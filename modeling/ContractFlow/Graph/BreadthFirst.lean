import ContractFlow.Graph.Weight

/-!
This module contains breadth-first searches in graphs whose vertices are the numbers below a bound.
-/

namespace ContractFlow.Graph

def unseenCount (n : Nat) (seen : List Nat) : Nat :=
  weight (fun _ => 1) (fun v => !seen.contains v) (List.range n)

theorem unseenCount_append_lt {n v : Nat} {seen : List Nat} (hv : v < n) (h : ¬ seen.contains v) :
    unseenCount n (seen ++ [v]) + 1 ≤ unseenCount n seen := by
  apply weight_add_le (w := fun _ => 1) (x := v)
  · intro y
    simp only [List.contains_append, Bool.not_eq_true', Bool.or_eq_false_iff]
    exact And.left
  · exact List.mem_range.2 hv
  · simpa using h
  · simp

structure Visit where
  vertex : Nat
  way : List Nat
deriving Inhabited

namespace Visit

def depth (v : Visit) : Nat :=
  v.way.length - 1

def path (v : Visit) : List Nat :=
  v.way.reverse

def start (root : Nat) : Visit :=
  ⟨root, [root]⟩

def next (v : Visit) (u : Nat) : Visit :=
  ⟨u, u :: v.way⟩

end Visit

structure Reached where
  seen : List Nat
  /-- Whether the bound cut a way, or a way met itself. -/
  truncated : Bool
deriving Inhabited

def follow (n : Nat) (limit : Int) (v : Visit) (us : List Nat) (r : Reached) : List Visit × Reached :=
  match us with
  | [] => ([], r)
  | u :: us =>
    let r := if v.way.contains u then { r with truncated := true } else r
    if !(u < n) || r.seen.contains u then follow n limit v us r
    else if (v.depth : Int) + 1 > limit then follow n limit v us { r with truncated := true }
    else
      let (visits, r) := follow n limit v us { r with seen := r.seen ++ [u] }
      (v.next u :: visits, r)

theorem unseenCount_follow (n : Nat) (limit : Int) (v : Visit) (us : List Nat) (r : Reached) :
    unseenCount n (follow n limit v us r).2.seen + (follow n limit v us r).1.length
      ≤ unseenCount n r.seen := by
  induction us generalizing r with
  | nil => simp [follow]
  | cons u us ih =>
    unfold follow
    have hseen : (if v.way.contains u then { r with truncated := true } else r).seen = r.seen := by
      split <;> rfl
    generalize (if v.way.contains u then { r with truncated := true } else r) = r' at hseen
    simp only
    split
    · rw [← hseen]; exact ih r'
    · next h =>
      split
      · rw [← hseen]; exact ih { r' with truncated := true }
      · simp only [Bool.or_eq_true, Bool.not_eq_true', not_or, Bool.not_eq_false] at h
        have hu : u < n := by simpa using h.1
        have hrest := ih { r' with seen := r'.seen ++ [u] }
        simp only at hrest
        have := unseenCount_append_lt hu h.2
        simp only [List.length_cons]
        rw [← hseen]
        omega

def reachWithin (succ : Nat → List Nat) (n : Nat) (limit : Int) (queue : List Visit) (r : Reached) :
    Reached :=
  match queue with
  | [] => r
  | v :: rest =>
    have := unseenCount_follow n limit v (succ v.vertex) r
    let found := follow n limit v (succ v.vertex) r
    reachWithin succ n limit (rest ++ found.1) found.2
termination_by unseenCount n r.seen + queue.length
decreasing_by
  simp only [List.length_append, List.length_cons]
  omega

def reachable (succ : Nat → List Nat) (n : Nat) (limit : Int) (root : Nat) : Reached :=
  reachWithin succ n limit [.start root] ⟨[root], false⟩

def fresh (n : Nat) (us seen : List Nat) : List Nat :=
  match us with
  | [] => []
  | u :: us =>
    if u < n && !seen.contains u then u :: fresh n us (seen ++ [u]) else fresh n us seen

theorem unseenCount_fresh (n : Nat) (us seen : List Nat) :
    unseenCount n (seen ++ fresh n us seen) + (fresh n us seen).length ≤ unseenCount n seen := by
  induction us generalizing seen with
  | nil => simp [fresh]
  | cons u us ih =>
    unfold fresh
    split
    · next h =>
      simp only [Bool.and_eq_true, Bool.not_eq_true', decide_eq_true_eq] at h
      have := ih (seen ++ [u])
      have := unseenCount_append_lt h.1 (by simpa using h.2)
      simp only [List.append_assoc, List.singleton_append, List.length_cons] at *
      omega
    · exact ih seen

def closureFrom (succ : Nat → List Nat) (n : Nat) (queue seen : List Nat) : List Nat :=
  match queue with
  | [] => seen
  | v :: rest =>
    have := unseenCount_fresh n (succ v) seen
    closureFrom succ n (rest ++ fresh n (succ v) seen) (seen ++ fresh n (succ v) seen)
termination_by unseenCount n seen + queue.length
decreasing_by
  simp only [List.length_append, List.length_cons]
  omega

def closure (succ : Nat → List Nat) (n : Nat) (v : Nat) : List Nat :=
  closureFrom succ n [v] [v]

structure Found where
  path : Option (List Nat)
  opened : List Nat
deriving Inhabited

def findWay (succ : Nat → List Nat) (n : Nat) (limit : Int) (target : Nat) (queue : List Visit)
    (seen : List Nat) : Found :=
  match queue with
  | [] => ⟨none, []⟩
  | v :: rest =>
    if (v.way.length : Int) > limit then findWay succ n limit target rest seen
    else if (succ v.vertex).contains target then ⟨some (v.next target).path, [v.vertex]⟩
    else
      have := unseenCount_fresh n (succ v.vertex) seen
      let found := findWay succ n limit target (rest ++ (fresh n (succ v.vertex) seen).map v.next)
        (seen ++ fresh n (succ v.vertex) seen)
      { found with opened := v.vertex :: found.opened }
termination_by unseenCount n seen + queue.length
decreasing_by
  · simp
  · simp only [List.length_append, List.length_cons, List.length_map]
    omega

def shortestPath (succ : Nat → List Nat) (n : Nat) (limit : Int) (root target : Nat) : Found :=
  if root = target then ⟨some [root], []⟩
  else findWay succ n limit target [.start root] [root]

end ContractFlow.Graph
