import ContractFlow.Graph.Weight
import ContractFlow.Location
import ContractFlow.Syntax.Arena

/-!
This module contains walks up and down a syntax tree and the locations of nodes.
-/

namespace ContractFlow.Arena

def ancestors (a : Arena) (n : NodeId) : List NodeId :=
  match h : a.parent? n with
  | none => []
  | some p =>
    have := a.lt_of_parent? h
    p :: ancestors a p
termination_by n

def lineage (a : Arena) (n : NodeId) : List NodeId :=
  n :: a.ancestors n

def findAncestor? (a : Arena) (n : NodeId) (labels : List Value) : Option NodeId :=
  (a.ancestors n).find? fun m => labels.contains (a.label m)

def preorder (a : Arena) (n : NodeId) : List NodeId :=
  n :: (a.children n).attach.flatMap fun c =>
    have := a.lt_of_mem_children c.2
    preorder a c.1
termination_by a.size - n

theorem preorder_eq (a : Arena) (n : NodeId) : a.preorder n = n :: (a.children n).flatMap a.preorder := by
  rw [preorder]
  simp [List.flatMap]

theorem length_preorder (a : Arena) (n : NodeId) :
    (a.preorder n).length = Graph.total (fun c => (a.preorder c).length) (a.children n) + 1 := by
  rw [preorder_eq, List.length_cons]
  congr 1
  induction a.children n with
  | nil => rfl
  | cons c rest ih => rw [List.flatMap_cons, List.length_append, ih, Graph.total_cons]

/--
Visits what `stack` holds, from the top, and puts the children of each node in its place. The nodes that were
visited stand in `visited`, the last one first.
-/
def walkFrom (a : Arena) (stack visited : List NodeId) : List NodeId :=
  match stack with
  | [] => visited.reverse
  | n :: rest => walkFrom a (a.children n ++ rest) (n :: visited)
termination_by Graph.total (fun n => (a.preorder n).length) stack
decreasing_by
  rw [Graph.total_append, Graph.total_cons, length_preorder]
  omega

def walk (a : Arena) (n : NodeId) : List NodeId :=
  a.walkFrom [n] []

def isInside (a : Arena) (n m : NodeId) : Bool :=
  (a.lineage n).contains m

def findInUnit? (a : Arena) (unit : Nat) (id : Int) : Option NodeId :=
  (List.range a.size).reverse.find? fun n => (a.node n).unit == unit && (a.node n).id? == some id

def findById? (a : Arena) (id : Option Int) : Option NodeId :=
  match id with
  | none => none
  | some id =>
    if id < 0 then none else (List.range a.units.size).findSome? fun u => a.findInUnit? u id

def localIndex (a : Arena) (n : NodeId) : Nat :=
  n - (a.units.getD (a.node n).unit default).root

def unitNodes (a : Arena) (unit : Nat) : List NodeId :=
  (List.range a.size).filter fun n => (a.node n).unit == unit

def describe (a : Arena) (n : NodeId) : Except Fault String := do
  let text := a.text n
  let token ← if text.holds then (" " ++ ·) <$> text.asPart else pure ""
  return "<" ++ (a.label n).display ++ "#" ++ toString (a.localIndex n) ++ token ++ ">"

/--
The location of the source range `range`, which gives an offset and a length in bytes. Without a
usable range only the file is known, and without the source text only the bytes.
-/
def locate (file : String) (text : List Char) (range : String) : Location :=
  match range.splitOn ":" with
  | offset :: length :: _ =>
    match Text.integer? offset, Text.integer? length with
    | some offset, some length =>
      if offset < 0 || text.isEmpty then
        { file := file, offset := max offset 0, length := max length 0 }
      else
        let first := SourceText.position text offset.toNat
        let last := SourceText.position text (offset + max (length - 1) 0).toNat
        { file := file, startLine := first.1, endLine := last.1, startCol := first.2,
          endCol := last.2, offset := offset, length := length }
    | _, _ => { file := file }
  | _ => { file := file }

def location (a : Arena) (n : NodeId) : Except Fault Location :=
  let unit := a.units.getD (a.node n).unit default
  match (a.node n).word "src", unit.file with
  | .text range, .text file => .ok (locate file unit.text range)
  | .text _, _ => .error (.malformedTexts ["file_path"])
  | _, _ => .error .malformedRange

end ContractFlow.Arena
