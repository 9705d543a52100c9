import ContractFlow.Graph.Weight

/-! This module contains depth-first search in graphs whose vertices are the numbers below a bound. -/

namespace ContractFlow.Graph

inductive Event where
  | leave (vertex : Nat)
  /-- An edge leads back to a vertex on the path; `path` runs from there to the start of the edge. -/
  | back (path : List Nat)
deriving DecidableEq, Inhabited

def cycleAt (path : List Nat) (v : Nat) : List Nat :=
  v :: (path.takeWhile (· != v)).reverse

def framesWeight (frames : List (Nat × List Nat)) : Nat :=
  total (fun f => 2 * f.2.length + 1) frames

def unseenWeight (succ : Nat → List Nat) (n : Nat) (seen : List Nat) : Nat :=
  weight (fun v => 2 * (succ v).length + 1) (fun v => !seen.contains v) (List.range n)

theorem unseenWeight_cons_le (succ : Nat → List Nat) {n v : Nat} {seen : List Nat} (hv : v < n)
    (h : ¬ seen.contains v) :
    unseenWeight succ n (v :: seen) + (2 * (succ v).length + 1) ≤ unseenWeight succ n seen := by
  apply weight_add_le (x := v)
  · intro y; simp
  · exact List.mem_range.2 hv
  · simpa using h
  · simp

/--
Depth-first search. A frame holds a vertex on the path and the successors that are still to follow;
`seen` holds the vertices that were entered. Gives the events in order and all vertices seen.
-/
def search (succ : Nat → List Nat) (n : Nat) (frames : List (Nat × List Nat)) (seen : List Nat) :
    List Event × List Nat :=
  match frames with
  | [] => ([], seen)
  | (v, []) :: rest =>
    let (events, seen) := search succ n rest seen
    (.leave v :: events, seen)
  | (v, u :: us) :: rest =>
    if h : u < n ∧ ¬ seen.contains u then
      have := unseenWeight_cons_le succ h.1 h.2
      search succ n ((u, succ u) :: (v, us) :: rest) (u :: seen)
    else
      let path := v :: rest.map (·.1)
      let (events, seen) := search succ n ((v, us) :: rest) seen
      (if path.contains u then .back (cycleAt path u) :: events else events, seen)
termination_by unseenWeight succ n seen + framesWeight frames
decreasing_by
  · simp [framesWeight]
  · simp [framesWeight]
    omega
  · simp [framesWeight]

def searchAll (succ : Nat → List Nat) (n : Nat) (roots : List Nat) (seen : List Nat) : List Event :=
  match roots with
  | [] => []
  | r :: roots =>
    if seen.contains r then searchAll succ n roots seen
    else
      let (events, seen) := search succ n [(r, succ r)] (r :: seen)
      events ++ searchAll succ n roots seen

def postorder (succ : Nat → List Nat) (n : Nat) (root : Nat) : List Nat :=
  (search succ n [(root, succ root)] [root]).1.filterMap fun
    | .leave v => some v
    | .back _ => none

structure Return where
  found : Bool
  opened : List Nat
deriving Inhabited

def searchFor (succ : Nat → List Nat) (n : Nat) (root : Nat) (stack seen : List Nat) : Return :=
  match stack with
  | [] => ⟨false, []⟩
  | u :: rest =>
    if u = root then ⟨true, []⟩
    else if h : u < n ∧ ¬ seen.contains u then
      have := unseenWeight_cons_le succ h.1 h.2
      let found := searchFor succ n root ((succ u).reverse ++ rest) (u :: seen)
      { found with opened := u :: found.opened }
    else searchFor succ n root rest seen
termination_by unseenWeight succ n seen + stack.length
decreasing_by
  · simp only [List.length_append, List.length_reverse, List.length_cons]
    omega
  · simp

def comesBack (succ : Nat → List Nat) (n : Nat) (root : Nat) : Return :=
  let found := searchFor succ n root (succ root).reverse []
  { found with opened := root :: found.opened }

end ContractFlow.Graph
