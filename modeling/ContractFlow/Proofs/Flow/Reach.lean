import ContractFlow.Proofs.Flow.Place
import ContractFlow.Proofs.Flow.Round

/-! This module shows that a search for flows ends if it can reach finitely many nodes only, and what it reaches. -/

namespace ContractFlow

namespace FlowGraph

variable {g : FlowGraph} {p : Policy} {mode : FlowMode} {source : FlowNode} {limit : Int}

theorem isAnswered_rules (hlimit : p.maxCallDepth = .int limit) (hp : p.IsTotal) :
    (g.rules p mode).IsAnswered limit source where
  beyond := Policy.isBeyond_eq hlimit
  steps x _ := exists_steps hp mode x
  barrier x _ := hp.barrier _ x

section Run

variable (hlimit : p.maxCallDepth = .int limit) (hp : p.IsTotal)

include hlimit hp

theorem run_eq_reached_of_queue {s : Search} {k : Nat}
    (hk : ((Search.next (g.rules p mode))^[k] (.start source (g.flowOwner? source))).queue = [])
    (hs : (Search.start source (g.flowOwner? source)).run (g.rules p mode) = s) :
    s.notes.outcome = .ok () ∧
      ∀ x, x ∈ s.reached.map (·.1) ↔ ∃ depth, (g.rules p mode).Leads limit source x depth := by
  have ha : (g.rules p mode).IsAnswered limit source := isAnswered_rules hlimit hp
  rw [Search.run_eq_iterate hk] at hs
  exact hs ▸ ⟨Search.outcome_notes_iterate ha _ k, Search.mem_reached_iff ha _ hk⟩

variable (hfinite : {x | Relation.ReflTransGen (g.rules p mode).Step source x}.Finite)

include hfinite

theorem exists_queue_eq_nil :
    ∃ k, ((Search.next (g.rules p mode))^[k] (.start source (g.flowOwner? source))).queue = [] :=
  Search.exists_queue_eq_nil (isAnswered_rules hlimit hp) (g.flowOwner? source) hfinite

theorem run_eq_reached {s : Search}
    (hs : (Search.start source (g.flowOwner? source)).run (g.rules p mode) = s) :
    s.notes.outcome = .ok () ∧
      ∀ x, x ∈ s.reached.map (·.1) ↔ ∃ depth, (g.rules p mode).Leads limit source x depth := by
  obtain ⟨k, hk⟩ := exists_queue_eq_nil hlimit hp hfinite
  exact run_eq_reached_of_queue hlimit hp hk hs

end Run

theorem outcome_reach (hname : p.name.isKey = true) (hlimit : p.maxCallDepth = .int limit)
    (hsource : ∃ text, g.describeFlow source = .ok text) {s : Search}
    (hs : (Search.start source (g.flowOwner? source)).run (g.rules p mode) = s)
    (hnotes : s.notes.outcome = .ok ()) :
    (g.reach p mode source).outcome = .ok ⟨source, s.reached, s.truncated⟩ := by
  obtain ⟨text, htext⟩ := hsource
  have hkey : p.checkKey = .ok () := by
    unfold Policy.checkKey
    rw [hname, hlimit]
    rfl
  have hlift : (liftM p.checkKey : Query Unit).outcome = .ok () := hkey
  have htell : (liftM (g.describeFlow source) : Query Value).outcome = .ok text := htext
  unfold reach
  rw [Query.outcome_bind_ok hlift]
  simp only [hs]
  rw [Query.outcome_bind_ok hnotes]
  split
  · rw [Query.outcome_bind_ok htell]
    rfl
  · rfl

theorem mem_of_reaches {nodes : Set FlowNode} (hfinite : nodes.Finite) (hsource : source ∈ nodes)
    (hclosed : ∀ x ∈ nodes, ∀ y change, g.StepsTo p mode x y change → y ∈ nodes) {r : FlowReach}
    (hr : (g.reach p mode source).outcome = .ok r) {x : FlowNode} (hx : r.reaches x = true) : x ∈ nodes := by
  have hstart : (Search.start source (g.flowOwner? source)).Among nodes := Search.among_start hsource
  have hsteps : ∀ x ∈ nodes, ∀ step ∈ ((g.rules p mode).steps x).getD [], step.1 ∈ nodes := by
    intro x hx step hstep
    obtain ⟨ys, hys, hstep⟩ := Query.mem_getD_nil_iff.1 hstep
    exact hclosed x hx step.1 step.2 ((mem_steps_iff hys).1 hstep)
  have hamong := hstart.iterate hsteps
  obtain ⟨k, hk⟩ := Search.exists_queue_eq_nil_of_finite hfinite.toFinset fun k z hz =>
    hfinite.mem_toFinset.2 ((hamong k).reached z hz)
  have hreached : r.reached = ((Search.next (g.rules p mode))^[k] (.start source (g.flowOwner? source))).reached := by
    obtain ⟨-, -, hr⟩ := Query.outcome_bind_eq_ok.1 hr
    simp only [Search.run_eq_iterate hk] at hr
    obtain ⟨-, -, hr⟩ := Query.outcome_bind_eq_ok.1 hr
    split at hr
    · obtain ⟨-, -, hr⟩ := Query.outcome_bind_eq_ok.1 hr
      exact Except.ok.inj hr ▸ rfl
    · exact Except.ok.inj hr ▸ rfl
  rw [FlowReach.reaches, List.contains_iff_mem, FlowReach.nodes, hreached] at hx
  exact (hamong k).reached x hx

/--
If finitely many nodes can be reached at all, a search for flows comes to an end, and a node is reached just if steps
lead to it from the source that enter no barrier and stay within the bound on the call depth.
-/
theorem reach_is_exact (g : FlowGraph) (p : Policy) (mode : FlowMode) (source : FlowNode) (limit : Int)
    (hname : p.name.isKey = true) (hlimit : p.maxCallDepth = .int limit) (hp : p.IsTotal)
    (hsource : ∃ text, g.describeFlow source = .ok text)
    (hfinite : {x | Relation.ReflTransGen (g.rules p mode).Step source x}.Finite) :
    (∃ k, ((Search.next (g.rules p mode))^[k] (.start source (g.flowOwner? source))).queue = []) ∧
    ∃ r, (g.reach p mode source).outcome = .ok r ∧
      ∀ x, r.reaches x = true ↔ ∃ depth, (g.rules p mode).Leads limit source x depth := by
  refine ⟨exists_queue_eq_nil hlimit hp hfinite, ?_⟩
  obtain ⟨hnotes, hreached⟩ := run_eq_reached hlimit hp hfinite rfl
  refine ⟨_, outcome_reach hname hlimit hsource rfl hnotes, fun x => ?_⟩
  rw [FlowReach.reaches, List.contains_iff_mem]
  exact hreached x

end FlowGraph

namespace Sample

def flowGraph : FlowGraph :=
  .ofModel ⟨valueFlow, .container, true⟩

def openPolicy : Policy where
  name := "open"
  maxCallDepth := .int 2
  isSource _ := return false
  isSink _ := return false
  isBarrier _ _ := return false
  flowSteps _ := return []
  taintSteps _ := return []

theorem isTotal_openPolicy : openPolicy.IsTotal where
  barrier _ _ := ⟨false, rfl⟩
  flow _ := ⟨[], rfl⟩
  taint _ := ⟨[], rfl⟩

theorem reach_parameter :
    ∃ r, (flowGraph.reach openPolicy .data (.parameter 0 0)).outcome = .ok r ∧
      r.reaches (.definition 0 1) = true := by
  obtain ⟨b, hpos, hb⟩ := flowGraph.exists_bounds 0
  have hplace : flowGraph.IsPlace b (.parameter 0 0) := ⟨by decide, hpos⟩
  have hfinite : {x | Relation.ReflTransGen (flowGraph.rules openPolicy .data).Step (.parameter 0 0) x}.Finite :=
    FlowGraph.finite_reachable hb ⟨fun _ _ => .pure .nil, fun _ _ => .pure .nil⟩ hplace
  obtain ⟨-, r, hr, hreaches⟩ := FlowGraph.reach_is_exact flowGraph openPolicy .data (.parameter 0 0) 2 rfl rfl
    isTotal_openPolicy ⟨_, rfl⟩ hfinite
  refine ⟨r, hr, (hreaches _).2 ⟨0, ?_⟩⟩
  obtain ⟨steps, hsteps⟩ := FlowGraph.exists_steps (g := flowGraph) isTotal_openPolicy .data (.parameter 0 0)
  exact .step .start hsteps ((FlowGraph.mem_steps_iff hsteps).2 (.inside (by decide +kernel))) rfl rfl
    (by decide)

end Sample

end ContractFlow
