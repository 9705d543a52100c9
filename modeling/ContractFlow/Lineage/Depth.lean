import ContractFlow.Lineage.Order

/-! This module contains the depth of contracts: how many bases stand above them in a chain. -/

namespace ContractFlow

abbrev Depths := List (ContractId × Nat)

namespace Depths

def get? (ds : Depths) (c : ContractId) : Option Nat :=
  ds.lookup c

def isKnown (ds : Depths) (c : ContractId) : Bool :=
  (ds.lookup c).isSome

theorem isKnown_cons (ds : Depths) (c x : ContractId) (d : Nat) :
    isKnown ((c, d) :: ds) x = (x == c || ds.isKnown x) := by
  unfold isKnown
  rw [List.lookup_cons]
  cases x == c <;> simp

end Depths

namespace Outline

variable (o : Outline)

def depthFrom (ds : Depths) (c : ContractId) : Nat :=
  match (o.bases c).filterMap ds.get? with
  | [] => 0
  | d :: rest => 1 + rest.foldl max d

def depthWeight (stack : List (ContractId × Bool)) (path : List ContractId) (ds : Depths) : Nat :=
  Graph.weight (fun c => 2 * (o.bases c).length + 1)
      (fun c => !(path.contains c || ds.isKnown c)) o.contractIds
    + Graph.total (fun s => if s.2 then 1 else 2) stack

def openBases (path : List ContractId) (ds : Depths) (c : ContractId) : List (ContractId × Bool) :=
  ((o.bases c).filter fun b => !(ds.isKnown b || path.contains b)).reverse.map (·, false)

def closePath (path : List ContractId) (c : ContractId) : List ContractId :=
  path.filter (· != c)

theorem depthWeight_open (stack : List (ContractId × Bool)) {path : List ContractId} {ds : Depths}
    {c : ContractId} (hd : ¬ ds.isKnown c) (hp : ¬ path.contains c) :
    o.depthWeight (o.openBases (c :: path) ds c ++ (c, true) :: stack) (c :: path) ds
      < o.depthWeight ((c, false) :: stack) path ds := by
  have hlen : Graph.total (fun s => if s.2 then 1 else 2) (o.openBases (c :: path) ds c)
      ≤ 2 * (o.bases c).length := by
    have := List.length_filter_le
      (fun b => !(ds.isKnown b || (c :: path).contains b)) (o.bases c)
    rw [Graph.total_eq_of_const (k := 2) (by simp +contextual [openBases])]
    simp only [openBases, List.length_map, List.length_reverse]
    omega
  have himp : ∀ y, (!((c :: path).contains y || ds.isKnown y)) →
      !(path.contains y || ds.isKnown y) := by
    intro y
    simp only [List.contains_cons, Bool.not_eq_true', Bool.or_eq_false_iff]
    exact fun h => ⟨h.1.2, h.2⟩
  unfold depthWeight
  simp only [Graph.total_append, Graph.total_cons]
  by_cases hc : c ∈ o.contractIds
  · have := Graph.weight_add_le (w := fun c => 2 * (o.bases c).length + 1) himp hc
      (by simp at hp; simp [hp, hd]) (by simp)
    simp only [if_true, Bool.false_eq_true, if_false]
    omega
  · have hbases : o.bases c = [] := by
      have : o.contractD c = default := by
        simp [contractIds, contractD] at hc ⊢
        rw [Array.getElem?_eq_none hc]
        rfl
      simp [bases, this, default, instInhabitedContract.default]
    have := Graph.weight_le (w := fun c => 2 * (o.bases c).length + 1) (l := o.contractIds) himp
    simp only [hbases, List.length_nil] at hlen
    simp only [if_true, Bool.false_eq_true, if_false]
    omega

variable {o} in
theorem depthWeight_close {stack : List (ContractId × Bool)} {path : List ContractId} {ds : Depths}
    {c : ContractId} {d : Nat} :
    o.depthWeight stack (closePath path c) ((c, d) :: ds)
      < o.depthWeight ((c, true) :: stack) path ds := by
  unfold depthWeight
  have : Graph.weight (fun c => 2 * (o.bases c).length + 1)
      (fun x => !((closePath path c).contains x || Depths.isKnown ((c, d) :: ds) x)) o.contractIds
    ≤ Graph.weight (fun c => 2 * (o.bases c).length + 1)
      (fun x => !(path.contains x || ds.isKnown x)) o.contractIds := by
    apply Graph.weight_le
    intro x
    rw [Depths.isKnown_cons]
    by_cases hx : x = c
    · simp [hx]
    · simp [closePath, hx]
  simp only [Graph.total_cons, if_true]
  omega

/--
Finds the depths of what `stack` holds. A contract is opened, which puts it on `path` and its bases on
the stack, and closed once those are done.
-/
def findDepths (stack : List (ContractId × Bool)) (path : List ContractId) (ds : Depths) : Depths :=
  match stack with
  | [] => ds
  | (c, isOpen) :: rest =>
    if hd : ds.isKnown c then findDepths rest path ds
    else
      match isOpen with
      | true => findDepths rest (closePath path c) ((c, o.depthFrom ds c) :: ds)
      | false =>
        if hp : path.contains c then findDepths rest path ds
        else
          have := o.depthWeight_open rest hd hp
          findDepths (o.openBases (c :: path) ds c ++ (c, true) :: rest) (c :: path) ds
termination_by o.depthWeight stack path ds
decreasing_by
  · simp [depthWeight]; split <;> omega
  · exact depthWeight_close
  · simp [depthWeight]
  · assumption

def depth (ds : Depths) (c : ContractId) : Nat × Depths :=
  let ds := o.findDepths [(c, false)] [] ds
  ((ds.get? c).getD 0, ds)

end Outline

end ContractFlow
