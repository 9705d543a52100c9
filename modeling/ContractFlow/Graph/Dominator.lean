import ContractFlow.Graph.DepthFirst
import ContractFlow.Memo

/-! This module contains dominators, whose numbers in reverse postorder are improved round by round. -/

namespace ContractFlow.Graph

abbrev DominatorTable := Array (Option Nat)

namespace DominatorTable

def get (t : DominatorTable) (p : Nat) : Option Nat :=
  t.getD p none

def up (t : DominatorTable) (p : Nat) : Nat :=
  min ((t.get p).getD 0) (p - 1)

def meet (t : DominatorTable) (p q : Nat) : Nat :=
  if p = q then p
  else if q < p then meet t (t.up p) q
  else meet t p (t.up q)
termination_by p + q
decreasing_by
  · simp only [up]; omega
  · simp only [up]; omega

def improve (t : DominatorTable) (p : Nat) (qs : List Nat) : DominatorTable :=
  match qs.filter fun q => (t.get q).isSome with
  | [] => t
  | q :: rest => t.setIfInBounds p (some (rest.foldl (fun r q => t.meet q r) q))

def round (preds : Nat → List Nat) (t : DominatorTable) : DominatorTable :=
  (List.range' 1 (t.size - 1)).foldl (fun t p => t.improve p (preds p)) t

def potential (t : DominatorTable) : Nat :=
  total (fun d => d.getD t.size) t.toList

def settle (preds : Nat → List Nat) (t : DominatorTable) : DominatorTable :=
  if (round preds t).potential < t.potential then settle preds (round preds t) else round preds t
termination_by t.potential

def start (size : Nat) : DominatorTable :=
  Array.ofFn fun i : Fin size => if i.val = 0 then some 0 else none

end DominatorTable

structure Dominators where
  order : Array Nat
  preds : Array (List Nat)
  table : DominatorTable
deriving Inhabited

namespace Dominators

def compute (succ pred : Nat → List Nat) (n root : Nat) : Dominators :=
  let order := (postorder succ n root).reverse.toArray
  let preds := order.map fun v => (pred v).filterMap fun u => order.idxOf? u
  ⟨order, preds, DominatorTable.settle (fun p => preds.getD p []) (.start order.size)⟩

variable (t : Dominators)

def size : Nat :=
  t.order.size

def numbers : List Nat :=
  List.range t.size

def vertex (p : Nat) : Nat :=
  t.order.getD p 0

def number? (v : Nat) : Option Nat :=
  t.order.idxOf? v

def parent (p : Nat) : Nat :=
  (t.table.get p).getD 0

def predecessors (p : Nat) : List Nat :=
  t.preds.getD p []

def immediate? (v : Nat) : Option Nat :=
  (t.number? v).map fun p => t.vertex (t.parent p)

def children (p : Nat) : List Nat :=
  t.numbers.filter fun q => p < q && t.parent q == p

theorem lt_of_mem_children {t : Dominators} {p q : Nat} (h : q ∈ t.children p) :
    p < q ∧ q < t.size := by
  simp only [children, numbers, List.mem_filter, List.mem_range, Bool.and_eq_true,
    decide_eq_true_eq] at h
  exact ⟨h.2.1, h.1⟩

def runners (stop p : Nat) : List Nat :=
  if p = stop then []
  else if h : p = 0 then [p]
  else
    have : t.table.up p < p := by simp only [DominatorTable.up]; omega
    p :: runners stop (t.table.up p)
termination_by p

def endsAt (p q : Nat) : Bool :=
  2 ≤ (t.predecessors q).length &&
    (t.predecessors q).any fun r => (t.runners (t.parent q) r).contains p

def frontier (v : Nat) : List Nat :=
  match t.number? v with
  | none => []
  | some p => (t.numbers.filter (t.endsAt p)).map t.vertex

end Dominators

end ContractFlow.Graph
