import ContractFlow.Proofs.Flow.Reach
import ContractFlow.Session

/-! This module shows that a search for flows reaches no less if it may do more. -/

namespace ContractFlow

open Outcome (bind_eq_ok pure_eq_ok)

/-! What may be done -/

namespace Search.Rules

variable {r r' : Rules} {limit limit' : Int} {source x : FlowNode} {depth : Nat}

structure Allowed (r : Rules) (limit : Int) (r' : Rules) (limit' : Int) : Prop where
  steps : ∀ x steps, (r.steps x).outcome = .ok steps →
    ∃ steps', (r'.steps x).outcome = .ok steps' ∧ steps ⊆ steps'
  barrier : ∀ x, (r.isBarrier x).outcome = .ok false → (r'.isBarrier x).outcome = .ok false
  depth : limit ≤ limit'

theorem Leads.mono (h : r.Allowed limit r' limit') (hx : r.Leads limit source x depth) :
    r'.Leads limit' source x depth := by
  induction hx with
  | start => exact .start
  | step _ hsteps hmem hbarrier hnext hlimit ih =>
    obtain ⟨steps', hsteps', hsub⟩ := h.steps _ _ hsteps
    exact .step ih hsteps' (hsub hmem) (h.barrier _ hbarrier) hnext (hlimit.trans h.depth)

end Search.Rules

/-! Elements that are kept apart -/

namespace FlowModel

variable (m : FlowModel) (aliasing : Aliasing)

theorem assignmentTargets_aliasing (target site : NodeId) :
    { m with aliasing := aliasing }.assignmentTargets target site = m.assignmentTargets target site := by
  rw [assignmentTargets, assignmentTargets.eq_def m]
  dsimp only
  split
  · split
    · next inner h =>
      have hmem : some inner ∈ m.arena.entries target "components" := by simp [h]
      have := m.arena.lt_of_mem_entries hmem
      exact assignmentTargets_aliasing inner site
    · rfl
    · rfl
  · rfl
termination_by m.arena.size - target

theorem slotTargets_aliasing (container : NodeId) (position : Int) :
    { m with aliasing := aliasing }.slotTargets container position = m.slotTargets container position := by
  unfold slotTargets
  simp only [assignmentTargets_aliasing]
  rfl

theorem expressionFlows_aliasing (n : NodeId) :
    { m with aliasing := aliasing }.expressionFlows n = m.expressionFlows n := by
  unfold expressionFlows componentFlows
  simp only [assignmentTargets_aliasing, slotTargets_aliasing]
  rfl

theorem callResultFlows_aliasing (call : NodeId) (i : Int) :
    { m with aliasing := aliasing }.callResultFlows call i = m.callResultFlows call i := by
  unfold callResultFlows
  simp only [slotTargets_aliasing]

theorem taintFlows_aliasing (x : FlowNode) : { m with aliasing := aliasing }.taintFlows x = m.taintFlows x := by
  cases x with
  | expression n =>
    show expressionTaint _ n = m.expressionTaint n
    unfold expressionTaint
    simp only [assignmentTargets_aliasing]
  | _ => rfl

variable {m aliasing} {x y : FlowNode}

theorem outcome_postUpdateFlows {n site : NodeId} {s : SsaForm} {d written : Nat}
    (hform : (m.formAround n).outcome = .ok (some s)) (hd : s.definitionOf? n = some d)
    (hwritten : s.graph.pointAt? site = some written) :
    (m.postUpdateFlows n site).outcome = .ok (((s.usesOf d).filter fun use =>
      use != n && (s.graph.pointAt? use).any (s.graph.strictlyReaches written)
        && !m.isApart (m.arena.literalIndex? n) (m.arena.literalIndex? use)).map FlowNode.expression) := by
  unfold postUpdateFlows
  rw [Query.outcome_bind_ok hform]
  simp only [hd, hwritten]
  rfl

theorem mem_postUpdateFlows_container {n site : NodeId}
    (hy : y ∈ ({ m with aliasing := aliasing }.postUpdateFlows n site).getD []) :
    y ∈ ({ m with aliasing := .container }.postUpdateFlows n site).getD [] := by
  obtain ⟨ys, hys, hy⟩ := Query.mem_getD_nil_iff.1 hy
  obtain ⟨form, hform, hys⟩ := Query.outcome_bind_eq_ok.1 hys
  cases form with
  | none =>
    obtain rfl := Except.ok.inj hys
    simp at hy
  | some s =>
    dsimp only at hys
    split at hys
    · next d written hd hwritten =>
      obtain rfl := Except.ok.inj hys
      obtain ⟨use, huse, rfl⟩ := List.mem_map.1 hy
      obtain ⟨huse, hlater⟩ := List.mem_filter.1 huse
      have hall := outcome_postUpdateFlows (m := { m with aliasing := .container }) hform hd hwritten
      refine Query.mem_getD_nil_iff.2 ⟨_, hall, List.mem_map_of_mem (List.mem_filter.2 ⟨huse, ?_⟩)⟩
      exact Bool.and_eq_true_iff.2 ⟨(Bool.and_eq_true_iff.1 hlater).1, rfl⟩
    · obtain rfl := Except.ok.inj hys
      simp at hy

theorem mem_stateFlows_container {site decl : NodeId}
    (hy : y ∈ (liftM ({ m with aliasing := aliasing }.stateFlows site decl) : Query _).getD []) :
    y ∈ (liftM ({ m with aliasing := .container }.stateFlows site decl) : Query _).getD [] := by
  obtain ⟨ys, hys, hy⟩ := Query.mem_getD_nil_iff.1 hy
  obtain ⟨reads, hreads, hys⟩ := bind_eq_ok.1 hys
  obtain rfl := pure_eq_ok.1 hys
  obtain ⟨n, hn, rfl⟩ := List.mem_map.1 hy
  refine Query.mem_getD_nil_iff.2 ⟨_, bind_eq_ok.2 ⟨reads, hreads, rfl⟩, List.mem_map_of_mem ?_⟩
  exact List.mem_filter.2 ⟨List.mem_of_mem_filter hn, rfl⟩

theorem mem_localFlows_container (hy : y ∈ ({ m with aliasing := aliasing }.localFlows x).getD []) :
    y ∈ ({ m with aliasing := .container }.localFlows x).getD [] := by
  cases x with
  | expression n =>
    change y ∈ (expressionFlows _ n).getD [] at hy
    show y ∈ (expressionFlows _ n).getD []
    rw [expressionFlows_aliasing] at hy ⊢
    exact hy
  | callResult call i =>
    change y ∈ (callResultFlows _ call i).getD [] at hy
    show y ∈ (callResultFlows _ call i).getD []
    rw [callResultFlows_aliasing] at hy ⊢
    exact hy
  | postUpdate n site => exact mem_postUpdateFlows_container hy
  | _ => exact hy

theorem mem_jumpFlows_container (hy : y ∈ ({ m with aliasing := aliasing }.jumpFlows x).getD []) :
    y ∈ ({ m with aliasing := .container }.jumpFlows x).getD [] := by
  cases x with
  | stateWrite site decl => exact mem_stateFlows_container hy
  | _ => exact hy

end FlowModel

/-! Searches that reach more -/

structure FlowSearch where
  graph : FlowGraph
  policy : Policy
  mode : FlowMode

namespace FlowSearch

variable {t t' : FlowSearch} {source : FlowNode} {limit limit' : Int}

def rules (t : FlowSearch) : Search.Rules :=
  t.graph.rules t.policy t.mode

def reach (t : FlowSearch) (source : FlowNode) : Query FlowReach :=
  t.graph.reach t.policy t.mode source

def Ends (t : FlowSearch) (source : FlowNode) : Prop :=
  ∃ k, ((Search.next t.rules)^[k] (.start source (t.graph.flowOwner? source))).queue = []

/-- If the search `t'` comes to an end, so does `t`, and what it reaches `t'` reaches too. -/
def Within (source : FlowNode) (t t' : FlowSearch) : Prop :=
  t'.Ends source → t.Ends source ∧ ∃ r r', (t.reach source).outcome = .ok r ∧
    (t'.reach source).outcome = .ok r' ∧ ∀ x, r.reaches x = true → r'.reaches x = true

structure IsPosed (t : FlowSearch) (limit : Int) (source : FlowNode) : Prop where
  name : t.policy.name.isKey = true
  depth : t.policy.maxCallDepth = .int limit
  total : t.policy.IsTotal
  source : ∃ text, t.graph.describeFlow source = .ok text

theorem exists_reach (h : t.IsPosed limit source) (hends : t.Ends source) :
    ∃ r, (t.reach source).outcome = .ok r ∧
      ∀ x, r.reaches x = true ↔ ∃ depth, t.rules.Leads limit source x depth := by
  obtain ⟨k, hk⟩ := hends
  obtain ⟨hnotes, hreached⟩ := FlowGraph.run_eq_reached_of_queue h.depth h.total hk rfl
  refine ⟨_, FlowGraph.outcome_reach h.name h.depth h.source rfl hnotes, fun x => ?_⟩
  rw [FlowReach.reaches, List.contains_iff_mem]
  exact hreached x

theorem within_of_allowed (h : t.IsPosed limit source) (h' : t'.IsPosed limit' source)
    (hallowed : t.rules.Allowed limit t'.rules limit') : t.Within source t' := by
  intro hends'
  obtain ⟨r', hr', hreaches'⟩ := exists_reach h' hends'
  -- `t` is led to nodes that `t'` is led to as well, and `t'` has listed all of those
  have hfinite : {x | ∃ d, t.rules.Leads limit source x d}.Finite := by
    refine (List.finite_toSet r'.nodes).subset fun x ⟨d, hx⟩ => ?_
    exact List.contains_iff_mem.1 ((hreaches' x).2 ⟨d, hx.mono hallowed⟩)
  have hends : t.Ends source :=
    Search.exists_queue_eq_nil_of_leads (FlowGraph.isAnswered_rules h.depth h.total) _ hfinite
  obtain ⟨r, hr, hreaches⟩ := exists_reach h hends
  refine ⟨hends, r, r', hr, hr', fun x hx => ?_⟩
  obtain ⟨d, hd⟩ := (hreaches x).1 hx
  exact (hreaches' x).2 ⟨d, hd.mono hallowed⟩

theorem within_of_stepsTo (h : t.IsPosed limit source) (h' : t'.IsPosed limit' source)
    (hsteps : ∀ x y change, t.graph.StepsTo t.policy t.mode x y change →
      t'.graph.StepsTo t'.policy t'.mode x y change)
    (hbarrier : ∀ x, (t'.rules.isBarrier x).outcome = .ok true → (t.rules.isBarrier x).outcome = .ok true)
    (hlimit : limit ≤ limit') : t.Within source t' := by
  refine within_of_allowed h h' ⟨fun x steps hx => ?_, fun x hx => ?_, hlimit⟩
  · obtain ⟨steps', hx'⟩ := FlowGraph.exists_steps h'.total t'.mode x
    refine ⟨steps', hx', fun step hstep => ?_⟩
    exact (FlowGraph.mem_steps_iff hx').2 (hsteps x _ _ ((FlowGraph.mem_steps_iff hx).1 hstep))
  · obtain ⟨b, hb⟩ := h'.total.barrier (t'.graph.reachedOwner? x) x
    cases b with
    | false => exact hb
    | true => exact absurd ((hbarrier x hb).symm.trans hx) (by simp)

end FlowSearch

namespace FlowGraph

variable {g : FlowGraph} {p p' : Policy} {mode : FlowMode} {x y : FlowNode} {change : Int}

theorem StepsTo.taint_of_data (h : g.StepsTo p .data x y change) : g.StepsTo p .taint x y change := by
  cases h with
  | inside hy => exact .inside hy
  | jump hy => exact .jump hy
  | added hy => exact .added hy

theorem StepsTo.congr (hflow : p'.flowSteps = p.flowSteps) (htaint : p'.taintSteps = p.taintSteps)
    (h : g.StepsTo p mode x y change) : g.StepsTo p' mode x y change := by
  cases h with
  | inside hy => exact .inside hy
  | jump hy => exact .jump hy
  | added hy => exact .added (hflow ▸ hy)
  | taint hy => exact .taint hy
  | addedTaint hy => exact .addedTaint (htaint ▸ hy)

theorem StepsTo.container {m : FlowModel} {aliasing : Aliasing}
    (h : (ofModel { m with aliasing := aliasing }).StepsTo p mode x y change) :
    (ofModel { m with aliasing := .container }).StepsTo p mode x y change := by
  cases h with
  | inside hy => exact .inside (FlowModel.mem_localFlows_container hy)
  | jump hy => exact .jump (FlowModel.mem_jumpFlows_container hy)
  | added hy => exact .added hy
  | taint hy =>
    have hsame := (m.taintFlows_aliasing aliasing x).trans (m.taintFlows_aliasing .container x).symm
    exact .taint (hsame ▸ hy)
  | addedTaint hy => exact .addedTaint hy

end FlowGraph

namespace FlowSearch

/--
Following taint, a greater bound on the call depth, fewer barriers and elements that are not kept apart each leave all
nodes reached that were reached before, whatever the source and the policy are.
-/
theorem reach_is_monotone (m : FlowModel) (p : Policy) (source : FlowNode) (limit : Int)
    (hname : p.name.isKey = true) (hlimit : p.maxCallDepth = .int limit) (hp : p.IsTotal)
    (hsource : ∃ text, m.describeFlow source = .ok text) :
    Within source ⟨.ofModel m, p, .data⟩ ⟨.ofModel m, p, .taint⟩ ∧
    ∀ mode,
      (∀ limit', limit ≤ limit' →
        Within source ⟨.ofModel m, p, mode⟩ ⟨.ofModel m, { p with maxCallDepth := .int limit' }, mode⟩) ∧
      (∀ isBarrier : Option CallableId → FlowNode → Query Bool,
        (∀ owner x, ∃ b, (isBarrier owner x).outcome = .ok b) →
        (∀ owner x, (isBarrier owner x).outcome = .ok true → (p.isBarrier owner x).outcome = .ok true) →
        Within source ⟨.ofModel m, p, mode⟩ ⟨.ofModel m, { p with isBarrier := isBarrier }, mode⟩) ∧
      Within source ⟨.ofModel { m with aliasing := .literalIndex }, p, mode⟩
        ⟨.ofModel { m with aliasing := .container }, p, mode⟩ := by
  have hposed (m' : FlowModel) (hvalues : m'.toValueFlow = m.toValueFlow) (mode : FlowMode) :
      IsPosed ⟨.ofModel m', p, mode⟩ limit source := ⟨hname, hlimit, hp, by rw [← hvalues] at hsource; exact hsource⟩
  refine ⟨?_, fun mode => ⟨fun limit' hle => ?_, fun isBarrier htotal hless => ?_, ?_⟩⟩
  · exact within_of_stepsTo (hposed m rfl .data) (hposed m rfl .taint) (fun _ _ _ hstep => hstep.taint_of_data)
      (fun _ hx => hx) le_rfl
  · have h' : IsPosed ⟨.ofModel m, { p with maxCallDepth := .int limit' }, mode⟩ limit' source :=
      ⟨hname, rfl, ⟨hp.barrier, hp.flow, hp.taint⟩, hsource⟩
    exact within_of_stepsTo (hposed m rfl mode) h' (fun _ _ _ => .congr (p := p) rfl rfl) (fun _ hx => hx) hle
  · have h' : IsPosed ⟨.ofModel m, { p with isBarrier := isBarrier }, mode⟩ limit source :=
      ⟨hname, hlimit, ⟨htotal, hp.flow, hp.taint⟩, hsource⟩
    exact within_of_stepsTo (hposed m rfl mode) h' (fun _ _ _ => .congr (p := p) rfl rfl)
      (fun x hx => hless _ x hx) le_rfl
  · exact within_of_stepsTo (hposed { m with aliasing := .literalIndex } rfl mode)
      (hposed { m with aliasing := .container } rfl mode) (fun _ _ _ hstep => hstep.container) (fun _ hx => hx) le_rfl

end FlowSearch

/-!
A function with the body `put(1); end(2);`, where the argument of the first call flows to that of the second both on its
own and through the parameter of `put`.
-/

namespace Detour

open Sample

def argument (call : NodeId) : Node :=
  { node .literal (some call) "arguments" [] [] with position := some 0 }

def nodes : Array Node := #[
  unit [1],
  contract "A" [] [2, 3, 4],
  bodied .functionDefinition 1 5 "f",
  function 1 6 7 "put",
  function 1 8 9 "end",
  block 2 [10, 11],
  parameterList 3 [12],
  block 3 [],
  parameterList 4 [13],
  block 4 [],
  statement 5 14,
  statement 5 15,
  parameter 6 "y",
  parameter 8 "z",
  call 10 16 [17],
  call 11 18 [19],
  identifier 14 "expression" "put",
  argument 14,
  identifier 15 "expression" "end",
  argument 15]

def arena : Arena :=
  arenaOf nodes (by decide +kernel)

def analysis : FlowGraph :=
  Session.analyse arena {} {}

/--
A policy that goes one call deep. It adds a step from the argument of the first call to that of the second, and one from
the parameter of the first callee to the argument of the second call.
-/
def policy : Policy where
  name := "detour"
  maxCallDepth := .int 1
  isSource _ := return false
  isSink _ := return false
  isBarrier _ _ := return false
  flowSteps
    | .argument 14 0 => return [.expression 19]
    | .parameter 1 0 => return [.argument 15 0]
    | _ => return []
  taintSteps _ := return []

theorem exists_describe : ∃ text, analysis.describeFlow (.argument 14 0) = .ok text :=
  Outcome.exists_of_isOk (by decide +kernel)

def narrowPolicy : Policy :=
  { policy with maxCallDepth := .int 0, isBarrier := fun _ x => return x == .expression 19 }

def search (p : Policy) (rounds : Nat) : Search :=
  (Search.next (analysis.rules p .data))^[rounds] (.start (.argument 14 0) (analysis.flowOwner? (.argument 14 0)))

theorem outcome_reach_search (p : Policy) (rounds : Nat) {limit : Int} (hname : p.name.isKey = true)
    (hlimit : p.maxCallDepth = .int limit)
    (hdone : (search p rounds).queue = [] ∧ (search p rounds).notes.outcome = .ok ()) :
    (analysis.reach p .data (.argument 14 0)).outcome =
      .ok ⟨.argument 14 0, (search p rounds).reached, (search p rounds).truncated⟩ :=
  FlowGraph.outcome_reach hname hlimit exists_describe (Search.run_eq_iterate hdone.1) hdone.2

theorem isTotal_narrowPolicy : narrowPolicy.IsTotal where
  barrier _ x := ⟨x == .expression 19, rfl⟩
  flow x := by
    change ∃ xs, (policy.flowSteps x).outcome = .ok xs
    unfold policy
    dsimp only
    split <;> exact ⟨_, rfl⟩
  taint _ := ⟨[], rfl⟩

/-- The second search reaches what the first one reaches, and a node that the first one does not reach. -/
def Gains (t t' : FlowSearch) (x : FlowNode) : Prop :=
  ∃ r r', (t.reach (.argument 14 0)).outcome = .ok r ∧ (t'.reach (.argument 14 0)).outcome = .ok r' ∧
    (∀ y, r.reaches y = true → r'.reaches y = true) ∧ r.reaches x = false ∧ r'.reaches x = true

theorem Gains.of_within {t t' : FlowSearch} {x : FlowNode} {u u' : FlowReach}
    (h : FlowSearch.Within (.argument 14 0) t t') (hends : t'.Ends (.argument 14 0))
    (hu : (t.reach (.argument 14 0)).outcome = .ok u) (hu' : (t'.reach (.argument 14 0)).outcome = .ok u')
    (hx : u.reaches x = false ∧ u'.reaches x = true) : Gains t t' x := by
  obtain ⟨-, r, r', hr, hr', hsub⟩ := h hends
  obtain rfl := Except.ok.inj (hu.symm.trans hr)
  obtain rfl := Except.ok.inj (hu'.symm.trans hr')
  exact ⟨_, _, hr, hr', hsub, hx⟩

/-- A greater bound lets the search into the first call, and without its barrier it comes to the second one. -/
theorem reach_argument_is_monotone :
    Gains ⟨analysis, narrowPolicy, .data⟩ ⟨analysis, { narrowPolicy with maxCallDepth := .int 1 }, .data⟩
      (.parameter 1 0) ∧
    Gains ⟨analysis, narrowPolicy, .data⟩ ⟨analysis, { narrowPolicy with isBarrier := policy.isBarrier }, .data⟩
      (.expression 19) ∧
    (∃ r r', (FlowSearch.reach ⟨analysis, narrowPolicy, .data⟩ (.argument 14 0)).outcome = .ok r ∧
      (FlowSearch.reach ⟨analysis, narrowPolicy, .taint⟩ (.argument 14 0)).outcome = .ok r' ∧
      ∀ x, r.reaches x = true → r'.reaches x = true) ∧
    ∃ r r', (FlowSearch.reach ⟨.ofModel { analysis.toFlowModel with aliasing := .literalIndex }, narrowPolicy, .data⟩
        (.argument 14 0)).outcome = .ok r ∧
      (FlowSearch.reach ⟨.ofModel { analysis.toFlowModel with aliasing := .container }, narrowPolicy, .data⟩
        (.argument 14 0)).outcome = .ok r' ∧
      ∀ x, r.reaches x = true → r'.reaches x = true := by
  obtain ⟨htaint, hall⟩ := FlowSearch.reach_is_monotone analysis.toFlowModel narrowPolicy (.argument 14 0) 0
    rfl rfl isTotal_narrowPolicy exists_describe
  obtain ⟨hdepth, hbarrier, haliasing⟩ := hall .data
  have hnarrow := outcome_reach_search narrowPolicy 1 rfl rfl (by decide +kernel)
  have hdeep := outcome_reach_search { narrowPolicy with maxCallDepth := .int 1 } 4 rfl rfl (by decide +kernel)
  have hopen := outcome_reach_search { narrowPolicy with isBarrier := policy.isBarrier } 3 rfl rfl
    (by decide +kernel)
  refine ⟨?_, ?_, (htaint ⟨1, by decide +kernel⟩).2, (haliasing ⟨1, by decide +kernel⟩).2⟩
  · exact .of_within (hdepth 1 (by decide)) ⟨4, by decide +kernel⟩ hnarrow hdeep (by decide +kernel)
  · have hless := hbarrier policy.isBarrier (fun _ _ => ⟨false, rfl⟩) (fun _ _ h => nomatch h)
    exact .of_within hless ⟨3, by decide +kernel⟩ hnarrow hopen (by decide +kernel)

end Detour

end ContractFlow
