import ContractFlow.Flow.Policy
import ContractFlow.Proofs.Data.Group
import ContractFlow.Proofs.Query

/-! This module contains facts about the steps between flow nodes. -/

namespace ContractFlow

namespace Policy

variable {p : Policy} {limit : Int}

structure IsTotal (p : Policy) : Prop where
  barrier : ∀ owner x, ∃ b, (p.isBarrier owner x).outcome = .ok b
  flow : ∀ x, ∃ ys, (p.flowSteps x).outcome = .ok ys
  taint : ∀ x, ∃ ys, (p.taintSteps x).outcome = .ok ys

theorem isBeyond_eq (h : p.maxCallDepth = .int limit) (depth : Int) :
    p.isBeyond depth = .ok (decide (limit < depth)) := by
  unfold isBeyond
  rw [h]
  simp only [Value.compareInt?]
  by_cases hlt : limit < depth
  · simp [hlt, Int.compare_eq_gt.2 hlt]
  · simp [hlt, Int.compare_ne_gt.2 (Int.not_lt.1 hlt)]

end Policy

namespace FlowGraph

variable {g : FlowGraph} {p : Policy} {mode : FlowMode} {x y : FlowNode} {change : Int}

theorem getD_of_idxOf? {known : Array FlowNode} {i : Nat} (h : known.idxOf? x = some i) : known.getD i default = x := by
  obtain ⟨j, hj, rfl⟩ := Option.map_eq_some_iff.1 h
  rw [Array.getD, dif_pos j.isLt]
  exact (Array.finIdxOf?_eq_some_iff.1 hj).1

theorem localSteps_eq (g : FlowGraph) (x : FlowNode) : g.localSteps x = g.localNext x := by
  unfold localSteps
  split
  · next i hi => rw [Memo.get_eq, getD_of_idxOf? hi]
  · rfl

theorem jumpSteps_eq (g : FlowGraph) (x : FlowNode) : g.jumpSteps x = g.jumpNext x := by
  unfold jumpSteps
  split
  · next i hi => rw [Memo.get_eq, getD_of_idxOf? hi]
  · rfl

theorem taintSteps_eq (g : FlowGraph) (x : FlowNode) : g.taintSteps x = g.taintNext x := by
  unfold taintSteps
  split
  · next i hi => rw [Memo.get_eq, getD_of_idxOf? hi]
  · rfl

theorem outcome_localSteps (g : FlowGraph) (x : FlowNode) :
    (g.localSteps x).outcome = .ok (distinct ((g.localFlows x).getD [])) := by
  rw [localSteps_eq]
  rfl

theorem outcome_jumpSteps (g : FlowGraph) (x : FlowNode) :
    (g.jumpSteps x).outcome = .ok (distinct ((g.jumpFlows x).getD [])) := by
  rw [jumpSteps_eq]
  rfl

theorem outcome_taintSteps (g : FlowGraph) (x : FlowNode) :
    (g.taintSteps x).outcome = .ok (distinct ((g.taintFlows x).getD [])) := by
  rw [taintSteps_eq]
  rfl

theorem mem_localSteps_iff : y ∈ (g.localSteps x).getD [] ↔ y ∈ (g.localFlows x).getD [] := by
  rw [Query.getD_eq_of_outcome (g.outcome_localSteps x), mem_distinct_iff]

theorem mem_jumpSteps_iff : y ∈ (g.jumpSteps x).getD [] ↔ y ∈ (g.jumpFlows x).getD [] := by
  rw [Query.getD_eq_of_outcome (g.outcome_jumpSteps x), mem_distinct_iff]

inductive StepsTo (g : FlowGraph) (p : Policy) : FlowMode → FlowNode → FlowNode → Int → Prop
  | inside {mode : FlowMode} {x y : FlowNode} :
      y ∈ (g.localFlows x).getD [] → StepsTo g p mode x y 0
  | jump {mode : FlowMode} {x y : FlowNode} :
      y ∈ (g.jumpFlows x).getD [] → StepsTo g p mode x y (depthChange x y)
  | added {mode : FlowMode} {x y : FlowNode} :
      y ∈ (p.flowSteps x).getD [] → StepsTo g p mode x y 0
  | taint {x y : FlowNode} : y ∈ (g.taintFlows x).getD [] → StepsTo g p .taint x y 0
  | addedTaint {x y : FlowNode} : y ∈ (p.taintSteps x).getD [] → StepsTo g p .taint x y 0

theorem mem_steps_iff {ys : List (FlowNode × Int)} (h : (g.steps p mode x).outcome = .ok ys) :
    (y, change) ∈ ys ↔ g.StepsTo p mode x y change := by
  unfold steps at h
  rw [Query.outcome_bind_ok (g.outcome_localSteps x), Query.outcome_bind_ok (g.outcome_jumpSteps x)] at h
  obtain ⟨more, hmore, h⟩ := Query.outcome_bind_eq_ok.1 h
  have hflow : (p.flowSteps x).getD [] = more := Query.getD_eq_of_outcome hmore
  cases mode with
  | data =>
    obtain rfl := Except.ok.inj h
    simp only [List.mem_append, List.mem_map, mem_distinct_iff, Prod.mk.injEq]
    constructor
    · rintro ((⟨z, hz, rfl, rfl⟩ | ⟨z, hz, rfl, rfl⟩) | ⟨z, hz, rfl, rfl⟩)
      · exact .inside hz
      · exact .jump hz
      · exact .added (hflow ▸ hz)
    · rintro (h | h | h)
      · exact .inl (.inl ⟨y, h, rfl, rfl⟩)
      · exact .inl (.inr ⟨y, h, rfl, rfl⟩)
      · exact .inr ⟨y, hflow ▸ h, rfl, rfl⟩
  | taint =>
    rw [Query.outcome_bind_ok (g.outcome_taintSteps x)] at h
    obtain ⟨moreTaint, hmoreTaint, h⟩ := Query.outcome_bind_eq_ok.1 h
    have htaint : (p.taintSteps x).getD [] = moreTaint := Query.getD_eq_of_outcome hmoreTaint
    obtain rfl := Except.ok.inj h
    simp only [List.mem_append, List.mem_map, mem_distinct_iff, Prod.mk.injEq]
    constructor
    · rintro ((((⟨z, hz, rfl, rfl⟩ | ⟨z, hz, rfl, rfl⟩) | ⟨z, hz, rfl, rfl⟩) | ⟨z, hz, rfl, rfl⟩) |
        ⟨z, hz, rfl, rfl⟩)
      · exact .inside hz
      · exact .jump hz
      · exact .added (hflow ▸ hz)
      · exact .taint hz
      · exact .addedTaint (htaint ▸ hz)
    · rintro (h | h | h | h | h)
      · exact .inl (.inl (.inl (.inl ⟨y, h, rfl, rfl⟩)))
      · exact .inl (.inl (.inl (.inr ⟨y, h, rfl, rfl⟩)))
      · exact .inl (.inl (.inr ⟨y, hflow ▸ h, rfl, rfl⟩))
      · exact .inl (.inr ⟨y, h, rfl, rfl⟩)
      · exact .inr ⟨y, htaint ▸ h, rfl, rfl⟩

theorem exists_steps (hp : p.IsTotal) (mode : FlowMode) (x : FlowNode) : ∃ ys, (g.steps p mode x).outcome = .ok ys := by
  obtain ⟨more, hmore⟩ := hp.flow x
  obtain ⟨moreTaint, hmoreTaint⟩ := hp.taint x
  unfold steps
  rw [Query.outcome_bind_ok (g.outcome_localSteps x), Query.outcome_bind_ok (g.outcome_jumpSteps x),
    Query.outcome_bind_ok hmore]
  cases mode with
  | data => exact ⟨_, rfl⟩
  | taint =>
    rw [Query.outcome_bind_ok (g.outcome_taintSteps x), Query.outcome_bind_ok hmoreTaint]
    exact ⟨_, rfl⟩

end FlowGraph

end ContractFlow
