/-!
This module groups values by a key, with the groups in the order in which their keys first appear.
-/

namespace ContractFlow

variable {κ α : Type} [BEq κ]

def addToGroup (groups : List (κ × List α)) (k : κ) (x : α) : List (κ × List α) :=
  match groups with
  | [] => [(k, [x])]
  | (k', xs) :: rest => if k' == k then (k', xs ++ [x]) :: rest else (k', xs) :: addToGroup rest k x

def groupPairs (pairs : List (κ × α)) : List (κ × List α) :=
  pairs.foldl (fun groups (k, x) => addToGroup groups k x) []

def distinct [BEq α] (xs : List α) : List α :=
  xs.foldl (fun seen x => if seen.contains x then seen else seen ++ [x]) []

def takeThrough (p : α → Bool) : List α → List α
  | [] => []
  | x :: xs => if p x then [x] else x :: takeThrough p xs

end ContractFlow
