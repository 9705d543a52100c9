import ContractFlow.Program.Outline

/-!
This module contains the contracts that can be reached through base contracts.
-/

namespace ContractFlow.Outline

variable (o : Outline)

def contractName (c : ContractId) : Value :=
  (o.contractD c).name

def bases (c : ContractId) : List ContractId :=
  (o.contractD c).bases.filterMap fun b => o.findContract? b.name

def unseenBases (seen : List Value) (c : ContractId) : List ContractId :=
  (o.bases c).filter fun b => !seen.contains (o.contractName b)

def unseenWeight (seen : List Value) : Nat :=
  Graph.weight (fun c => (o.bases c).length + 1) (fun c => !seen.contains (o.contractName c))
    o.contractIds

variable {o} in
theorem unseenWeight_cons_lt {seen : List Value} {c : ContractId}
    (h : ¬ seen.contains (o.contractName c)) :
    o.unseenWeight (o.contractName c :: seen) + (o.unseenBases (o.contractName c :: seen) c).length
      < o.unseenWeight seen + 1 := by
  have hle : (o.unseenBases (o.contractName c :: seen) c).length ≤ (o.bases c).length :=
    List.length_filter_le ..
  have himp : ∀ y, (!(o.contractName c :: seen).contains (o.contractName y)) →
      !seen.contains (o.contractName y) := by
    intro y
    simp
  unfold unseenWeight
  by_cases hc : c ∈ o.contractIds
  · have := Graph.weight_add_le (w := fun c => (o.bases c).length + 1) himp hc (by simpa using h)
      (by simp)
    omega
  · have hbases : o.bases c = [] := by
      have : o.contractD c = default := by
        simp [contractIds, contractD] at hc ⊢
        rw [Array.getElem?_eq_none hc]
        rfl
      simp [bases, this, default, instInhabitedContract.default]
    have := Graph.weight_le (w := fun c => (o.bases c).length + 1) (l := o.contractIds) himp
    simp only [hbases, List.length_nil] at hle
    omega

/--
Depth-first search through the bases, which treats contracts of one name as one. `stack` holds what is
still to visit and `seen` the names that were visited.
-/
def visitBases (stack : List ContractId) (seen : List Value) : List ContractId :=
  match stack with
  | [] => []
  | c :: rest =>
    if h : seen.contains (o.contractName c) then visitBases rest seen
    else
      have := unseenWeight_cons_lt h
      c :: visitBases (o.unseenBases (o.contractName c :: seen) c ++ rest)
        (o.contractName c :: seen)
termination_by o.unseenWeight seen + stack.length
decreasing_by
  · simp
  · simp only [List.length_append, List.length_cons]
    omega

def baseClosure (c : ContractId) : List ContractId :=
  o.visitBases [c] []

end ContractFlow.Outline
