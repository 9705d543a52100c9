import ContractFlow.Proofs.Flow.Monotone

/-! This module follows the ways that a search for flows records. -/

namespace ContractFlow

namespace Search

namespace Rules

variable (r : Rules) (limit : Int) (source : FlowNode)

inductive Trail : List (FlowNode × Nat) → Prop
  | start : Trail [(source, 0)]
  | step {x y : FlowNode} {depth next : Nat} {change : Int} {steps : List (FlowNode × Int)}
      {trail : List (FlowNode × Nat)} :
      Trail ((x, depth) :: trail) → (r.steps x).outcome = .ok steps → (y, change) ∈ steps →
      (r.isBarrier y).outcome = .ok false → (next : Int) = max 0 (depth + change) →
      Trail ((y, next) :: (x, depth) :: trail)

def StaysWithin (trail : List (FlowNode × Nat)) : Prop :=
  ∀ e ∈ trail, (e.2 : Int) ≤ max 0 limit

/--
A way that stays within the bound up to a node `x`, and leaves it with the step behind `x`. The search has come to `x`
on another way as well, less deep, from where the same step does not lead too deep.
-/
def LeavesBehindDetour (trail : List (FlowNode × Nat)) : Prop :=
  ∃ later y next x depth earlier, trail = later ++ (y, next) :: (x, depth) :: earlier ∧
    StaysWithin limit ((x, depth) :: earlier) ∧ limit < (next : Int) ∧
    ∃ d < depth, r.Leads limit source x d ∧ (d : Int) + (next - depth) ≤ limit

inductive Record : List (FlowNode × Option FlowNode) → Prop
  | start : Record [(source, none)]
  | step {x y : FlowNode} {depth next : Nat} {change : Int} {steps : List (FlowNode × Int)}
      {record : List (FlowNode × Option FlowNode)} :
      Record record → x ∈ record.map (·.1) → y ∉ record.map (·.1) → r.Leads limit source x depth →
      (r.steps x).outcome = .ok steps → (y, change) ∈ steps → (r.isBarrier y).outcome = .ok false →
      (next : Int) = max 0 (depth + change) → (next : Int) ≤ limit → Record ((y, some x) :: record)

variable {r limit source}

theorem Trail.next_eq {x y : FlowNode} {depth next : Nat} {steps : List (FlowNode × Int)}
    {trail : List (FlowNode × Nat)} (change : Int) (h : r.Trail source ((y, next) :: (x, depth) :: trail))
    (hsteps : (r.steps x).outcome = .ok steps) (honly : ∀ c, (y, c) ∈ steps → c = change) :
    r.Trail source ((x, depth) :: trail) ∧ (next : Int) = max 0 (depth + change) := by
  cases h with
  | step htrail hsteps' hmem _ hnext =>
    obtain rfl := Except.ok.inj (hsteps'.symm.trans hsteps)
    exact ⟨htrail, honly _ hmem ▸ hnext⟩

theorem staysWithin_or_leavesBehindDetour_cons {x y : FlowNode} {depth d next : Nat} {change : Int}
    {trail : List (FlowNode × Nat)} (hnext : (next : Int) = max 0 (depth + change))
    (hleads : r.Leads limit source x d) (hnear : max 0 (d + change) ≤ limit)
    (h : StaysWithin limit ((x, depth) :: trail) ∨ r.LeavesBehindDetour limit source ((x, depth) :: trail)) :
    StaysWithin limit ((y, next) :: (x, depth) :: trail) ∨
      r.LeavesBehindDetour limit source ((y, next) :: (x, depth) :: trail) := by
  rcases h with hwithin | ⟨later, y', next', x', depth', earlier, heq, hleaves⟩
  · by_cases hfar : limit < (next : Int)
    · exact .inr ⟨[], y, next, x, depth, trail, rfl, hwithin, hfar, d, by omega, hleads, by omega⟩
    · exact .inl (List.forall_mem_cons.2 ⟨by omega, hwithin⟩)
  · exact .inr ⟨(y, next) :: later, y', next', x', depth', earlier, by rw [heq, List.cons_append], hleaves⟩

namespace Record

variable {x : FlowNode} {record : List (FlowNode × Option FlowNode)}

theorem exists_leads (h : r.Record limit source record) (hx : x ∈ record.map (·.1)) :
    ∃ depth, r.Leads limit source x depth := by
  induction h with
  | start => exact ⟨0, List.mem_singleton.1 hx ▸ .start⟩
  | step _ _ _ hleads hsteps hmem hbarrier hnext hlimit ih =>
    rcases List.mem_cons.1 hx with rfl | hx
    · exact ⟨_, .step hleads hsteps hmem hbarrier hnext hlimit⟩
    · exact ih hx

theorem exists_trail (h : r.Record limit source record) (hx : x ∈ record.map (·.1)) :
    ∃ depth trail, r.Trail source ((x, depth) :: trail) ∧
      (((x, depth) :: trail).map (·.1)).reverse = FlowReach.trace record x ∧
      (StaysWithin limit ((x, depth) :: trail) ∨ r.LeavesBehindDetour limit source ((x, depth) :: trail)) := by
  induction h generalizing x with
  | start =>
    obtain rfl := List.mem_singleton.1 hx
    exact ⟨0, [], .start, by simp [FlowReach.trace], .inl (by simp [StaysWithin])⟩
  | @step z y d next change steps record hrecord hz hy hleads hsteps hmem hbarrier hnext hlimit ih =>
    by_cases hxy : y = x
    · subst hxy
      obtain ⟨depth, trail, htrail, hnodes, hbound⟩ := ih hz
      have hdepth : ((((depth : Int) + change).toNat : Nat) : Int) = max 0 (depth + change) := by omega
      refine ⟨_, _, .step htrail hsteps hmem hbarrier hdepth, ?_, ?_⟩
      · rw [List.map_cons, List.reverse_cons, hnodes, FlowReach.trace, if_pos rfl]
      · exact staysWithin_or_leavesBehindDetour_cons hdepth hleads (hnext ▸ hlimit) hbound
    · have hx : x ∈ record.map (·.1) := (List.mem_cons.1 hx).resolve_left (Ne.symm hxy)
      rw [FlowReach.trace, if_neg hxy]
      exact ih hx

end Record

end Rules

theorem extends_record {r : Rules} {limit : Int} {source : FlowNode}
    (hbeyond : ∀ depth, r.isBeyond depth = .ok (decide (limit < depth))) :
    r.Extends (r.Record limit source) (r.Leads limit source) := by
  intro x y depth change steps record hrecord hleads hx hsteps hmem hnear hbarrier
  have hlimit : ((((depth : Int) + change).toNat : Nat) : Int) ≤ limit := by
    simpa using Except.ok.inj ((hbeyond _).symm.trans hnear)
  have hnext : ((((depth : Int) + change).toNat : Nat) : Int) = max 0 (depth + change) := by omega
  exact ⟨.step hleads hsteps hmem hbarrier hnext hlimit,
    fun hy => .step hrecord hx hy hleads hsteps hmem hbarrier hnext hlimit⟩

end Search

namespace FlowGraph

open Search

variable {g : FlowGraph} {p : Policy} {mode : FlowMode} {source : FlowNode} {limit : Int}

theorem exists_iterate_of_reach (hends : FlowSearch.Ends ⟨g, p, mode⟩ source) {reach : FlowReach}
    (hreach : (g.reach p mode source).outcome = .ok reach) :
    ∃ k s, (Search.next (g.rules p mode))^[k] (.start source (g.flowOwner? source)) = s ∧ s.queue = [] ∧
      s.notes.outcome = .ok () ∧ reach = ⟨source, s.reached, s.truncated⟩ := by
  obtain ⟨k, hk⟩ := hends
  have hrun := Search.run_eq_iterate (r := g.rules p mode) hk
  obtain ⟨-, -, hreach⟩ := Query.outcome_bind_eq_ok.1 hreach
  simp only [hrun] at hreach
  obtain ⟨⟨⟩, hnotes, hreach⟩ := Query.outcome_bind_eq_ok.1 hreach
  refine ⟨k, _, rfl, hk, hnotes, ?_⟩
  split at hreach
  · obtain ⟨-, -, hreach⟩ := Query.outcome_bind_eq_ok.1 hreach
    exact (Except.ok.inj hreach).symm
  · exact (Except.ok.inj hreach).symm

theorem record_of_reach (hlimit : p.maxCallDepth = .int limit) (hends : FlowSearch.Ends ⟨g, p, mode⟩ source)
    {reach : FlowReach} (hreach : (g.reach p mode source).outcome = .ok reach) :
    (g.rules p mode).Record limit source reach.reached.reverse := by
  obtain ⟨k, s, rfl, -, hnotes, rfl⟩ := exists_iterate_of_reach hends hreach
  exact record_iterate (extends_record (Policy.isBeyond_eq hlimit)) .start .start _ k hnotes

/--
The way to a node that a search reports starts at the source, follows the steps and enters no barrier. It stays within
the bound on the call depth, unless it leaves it behind a node to which another way leads less deep. The node itself can
always be reached within the bound.
-/
theorem path_stays_within_depth_unless_behind_detour (g : FlowGraph) (p : Policy) (mode : FlowMode)
    (source : FlowNode) (limit : Int) (hlimit : p.maxCallDepth = .int limit)
    (hends : FlowSearch.Ends ⟨g, p, mode⟩ source) (reach : FlowReach)
    (hreach : (g.reach p mode source).outcome = .ok reach) (x : FlowNode) (hx : reach.reaches x = true) :
    (∃ depth, (g.rules p mode).Leads limit source x depth) ∧
    ∃ trail, (g.rules p mode).Trail source trail ∧ (trail.map (·.1)).reverse = reach.pathTo x ∧
      (Rules.StaysWithin limit trail ∨ (g.rules p mode).LeavesBehindDetour limit source trail) := by
  have hrecord := record_of_reach hlimit hends hreach
  have hmem : x ∈ reach.reached.reverse.map (·.1) := by
    rw [List.map_reverse, List.mem_reverse]
    exact List.contains_iff_mem.1 hx
  obtain ⟨depth, trail, htrail⟩ := hrecord.exists_trail hmem
  exact ⟨hrecord.exists_leads hmem, _, htrail⟩

end FlowGraph

namespace Detour

abbrev rules : Search.Rules :=
  analysis.rules policy .data

theorem steps_eq :
    (rules.steps (.argument 14 0)).outcome = .ok [(.parameter 1 0, 1), (.expression 19, 0)] ∧
    (rules.steps (.parameter 1 0)).outcome = .ok [(.definition 1 0, 0), (.argument 15 0, 0)] ∧
    (rules.steps (.argument 15 0)).outcome = .ok [(.parameter 2 0, 1)] := by
  decide +kernel

def done : Search :=
  search policy 8

theorem queue_done : done.queue = [] := by
  decide +kernel

theorem reached_done : done.reached =
    [(.argument 14 0, none), (.parameter 1 0, some (.argument 14 0)), (.expression 19, some (.argument 14 0)),
      (.definition 1 0, some (.parameter 1 0)), (.argument 15 0, some (.parameter 1 0)),
      (.parameter 2 0, some (.argument 15 0)), (.definition 2 0, some (.parameter 2 0))] := by
  decide +kernel

theorem outcome_reach : (analysis.reach policy .data (.argument 14 0)).outcome =
    .ok ⟨.argument 14 0, done.reached, done.truncated⟩ :=
  outcome_reach_search policy 8 rfl rfl ⟨queue_done, by decide +kernel⟩

theorem not_staysWithin {trail : List (FlowNode × Nat)} (htrail : rules.Trail (.argument 14 0) trail)
    (hnodes : (trail.map (·.1)).reverse = [.argument 14 0, .parameter 1 0, .argument 15 0, .parameter 2 0]) :
    ¬ Search.Rules.StaysWithin 1 trail := by
  obtain ⟨hfirst, hmiddle, hlast⟩ := steps_eq
  rw [List.reverse_eq_iff] at hnodes
  obtain ⟨⟨_, last⟩, _, rfl, rfl, hthree⟩ := List.map_eq_cons_iff.1 hnodes
  obtain ⟨⟨_, third⟩, _, rfl, rfl, htwo⟩ := List.map_eq_cons_iff.1 hthree
  obtain ⟨⟨_, second⟩, _, rfl, rfl, hone⟩ := List.map_eq_cons_iff.1 htwo
  obtain ⟨⟨_, first⟩, _, rfl, rfl, -⟩ := List.map_eq_cons_iff.1 hone
  obtain ⟨htrail, hthird⟩ := htrail.next_eq 1 hlast (by simp)
  obtain ⟨htrail, hsecond⟩ := htrail.next_eq 0 hmiddle (by simp)
  obtain ⟨-, hfirst⟩ := htrail.next_eq 1 hfirst (by simp)
  intro hwithin
  have := hwithin _ List.mem_cons_self
  omega

/-- The search records the way through both callees, although it may go one call deep only. -/
theorem path_leaves_bound :
    ∃ reach trail, (analysis.reach policy .data (.argument 14 0)).outcome = .ok reach ∧
      reach.pathTo (.parameter 2 0) = [.argument 14 0, .parameter 1 0, .argument 15 0, .parameter 2 0] ∧
      rules.Trail (.argument 14 0) trail ∧ (trail.map (·.1)).reverse = reach.pathTo (.parameter 2 0) ∧
      rules.LeavesBehindDetour 1 (.argument 14 0) trail := by
  have hreach := outcome_reach
  rw [reached_done] at hreach
  obtain ⟨-, trail, htrail, hnodes, hbound⟩ := FlowGraph.path_stays_within_depth_unless_behind_detour analysis policy
    .data (.argument 14 0) 1 rfl ⟨8, queue_done⟩ _ hreach (.parameter 2 0) (by decide)
  refine ⟨_, trail, hreach, by decide, htrail, hnodes, hbound.resolve_left (not_staysWithin htrail ?_)⟩
  exact hnodes.trans (by decide)

end Detour

end ContractFlow
