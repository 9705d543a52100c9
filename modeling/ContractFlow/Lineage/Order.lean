import ContractFlow.Graph.DepthFirst
import ContractFlow.Program.Scope

/-! This module orders a contract and the contracts above it, the most derived first. -/

namespace ContractFlow

namespace Merge

def isFree (sequences : List (List Nat)) (x : Nat) : Bool :=
  sequences.all fun s => !s.tail.contains x

def front? (sequences : List (List Nat)) : Option Nat :=
  (sequences.filterMap List.head?).find? (isFree sequences)

def drop (x : Nat) (s : List Nat) : List Nat :=
  if s.head? = some x then s.tail else s

def size (sequences : List (List Nat)) : Nat :=
  Graph.total List.length sequences

theorem length_drop_le (x : Nat) (s : List Nat) : (drop x s).length ≤ s.length := by
  unfold drop
  split <;> simp

theorem size_drop_le (x : Nat) (sequences : List (List Nat)) :
    size (sequences.map (drop x)) ≤ size sequences := by
  induction sequences with
  | nil => simp [size]
  | cons s rest ih =>
    have := length_drop_le x s
    simp only [size, List.map_cons, Graph.total_cons] at ih ⊢
    omega

theorem size_drop_lt {x : Nat} {sequences : List (List Nat)} (h : front? sequences = some x) :
    size (sequences.map (drop x)) < size sequences := by
  have hx : x ∈ sequences.filterMap List.head? := List.mem_of_find?_eq_some h
  clear h
  induction sequences with
  | nil => simp at hx
  | cons s rest ih =>
    have hs := length_drop_le x s
    simp only [size, List.map_cons, Graph.total_cons] at ih ⊢
    by_cases hhead : s.head? = some x
    · have : (drop x s).length < s.length := by
        cases s <;> simp_all [drop]
      have := size_drop_le x rest
      simp only [size] at this
      omega
    · have : x ∈ rest.filterMap List.head? := by
        simp only [List.mem_filterMap, List.mem_cons] at hx ⊢
        obtain ⟨t, rfl | ht, hhd⟩ := hx
        · exact absurd hhd hhead
        · exact ⟨t, ht, hhd⟩
      have := ih this
      omega

end Merge

/--
Merges sequences into one that keeps the order of each of them: an element is taken once it stands
behind no other one. `none` if there is no such element.
-/
def merge (sequences : List (List Nat)) : Option (List Nat) :=
  if sequences.all List.isEmpty then some []
  else
    match h : Merge.front? sequences with
    | none => none
    | some x =>
      have := Merge.size_drop_lt h
      (merge (sequences.map (Merge.drop x))).map (x :: ·)
termination_by Merge.size sequences

namespace Outline

variable (o : Outline)

def cycles : List (List ContractId) :=
  (Graph.searchAll o.bases o.contracts.size o.contractIds []).filterMap fun
    | .back path => some path
    | .leave _ => none

def isAboveCycle (cycles : List (List ContractId)) (c : ContractId) : Bool :=
  (o.baseClosure c).any fun b => cycles.any (·.contains b)

def mergeBases (orders : ContractId → List ContractId) (c : ContractId) : Option (List ContractId) :=
  let bases := (o.bases c).reverse
  if bases.isEmpty then some [c] else (merge (bases.map orders ++ [bases])).map (c :: ·)

/--
The order of a contract and the contracts above it. Near a cycle, and where the orders of the bases
cannot be merged, it is the depth-first order. `fuel` bounds the length of a chain of bases.
-/
def linearize (cycles : List (List ContractId)) (fuel : Nat) (c : ContractId) : List ContractId :=
  match fuel with
  | 0 => o.baseClosure c
  | fuel + 1 =>
    if o.isAboveCycle cycles c then o.baseClosure c
    else (o.mergeBases (linearize cycles fuel) c).getD (o.baseClosure c)

def unmerged (cycles : List (List ContractId)) (fuel : Nat) (c : ContractId) : List ContractId :=
  match fuel with
  | 0 => []
  | fuel + 1 =>
    if o.isAboveCycle cycles c then []
    else
      ((o.bases c).reverse.flatMap (unmerged cycles fuel)).eraseDups
        ++ if (o.mergeBases (o.linearize cycles fuel) c).isNone then [c] else []

def linearization (c : ContractId) : List ContractId :=
  o.linearize o.cycles o.contracts.size c

def mergeFailures (c : ContractId) : List ContractId :=
  o.unmerged o.cycles o.contracts.size c

structure OrderTable (cycles : List (List ContractId)) (fuel : Nat) where
  orders : Memo (o.linearize cycles fuel)
  failures : Memo (o.unmerged cycles fuel)

def orderTable (cycles : List (List ContractId)) (above : Memo (o.isAboveCycle cycles)) :
    (fuel : Nat) → o.OrderTable cycles fuel
  | 0 => ⟨.upTo _ 0, .upTo _ 0⟩
  | fuel + 1 =>
    let lower : Thunk (o.OrderTable cycles fuel) := .mk fun _ => orderTable cycles above fuel
    let merged (c : ContractId) := o.mergeBases (fun b => lower.get.orders.get b) c
    { orders := .ofEq
        (fun c => if above.get c then o.baseClosure c else (merged c).getD (o.baseClosure c))
        (by simp [merged, linearize]) o.contracts.size
      failures := .ofEq
        (fun c =>
          if above.get c then []
          else ((o.bases c).reverse.flatMap fun b => lower.get.failures.get b).eraseDups
            ++ if (merged c).isNone then [c] else [])
        (by simp [merged, unmerged]) o.contracts.size }

end Outline

structure Lineage extends Program where
  orders : Memo toProgram.linearization
  failures : Memo toProgram.mergeFailures

namespace Lineage

def ofProgram (p : Program) : Lineage :=
  let table := p.orderTable p.cycles (.upTo _ p.contracts.size) p.contracts.size
  { toProgram := p, orders := table.orders, failures := table.failures }

instance : Inhabited Lineage := ⟨ofProgram default⟩

variable (l : Lineage)

def order (c : ContractId) : List ContractId :=
  l.orders.get c

def ancestors (c : ContractId) : List ContractId :=
  (l.order c).filter (· != c)

def isAncestor (ancestor c : ContractId) : Bool :=
  ancestor != c && (l.order c).contains ancestor

def derived (c : ContractId) : List ContractId :=
  l.contractIds.filter fun d => (l.order d).contains c

def unresolvedBases (c : ContractId) : List Value :=
  let known := (l.bases c).map l.contractName
  ((l.contractD c).bases.map (·.name)).filter fun name => !known.contains name

def baseIssue (c : ContractId) (base : BaseSpecifier) : Issue where
  kind := .unresolvedBase
  message := "base contract '" ++ base.name.display ++ "' of '" ++ (l.contractName c).display
    ++ "' is not defined"
  contract := l.contractName c

def cycleIssue (cycle : List ContractId) : Except Fault Issue := do
  let names := cycle.map l.contractName
  let first := names.headD ""
  return {
    kind := .inheritanceCycle
    message := "inheritance cycle: " ++ (← Value.join " -> " (names ++ [first]))
    contract := first }

def baseIssues : Except Fault (List Issue) := do
  let missing ← l.contractIds.mapM fun c => do
    let bases ← (l.contractD c).bases.filterM fun b => return (← l.contractNamed b.name).isNone
    return bases.map (l.baseIssue c)
  let cyclic ← l.cycles.mapM l.cycleIssue
  return missing.flatten ++ cyclic

def mergeIssue (c : ContractId) : Issue where
  kind := .linearizationFailure
  message := "linearization of inheritance graph of '" ++ (l.contractName c).display ++ "' is impossible"
  contract := l.contractName c

end Lineage

end ContractFlow
