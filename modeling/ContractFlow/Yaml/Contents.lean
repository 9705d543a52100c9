import ContractFlow.Yaml.Tagged
import ContractFlow.Yaml.Tree

/-!
This module tells what a YAML document is about. A collection is known by its place before it is known what is in it.
-/

namespace ContractFlow

namespace Yaml

abbrev Entry := YamlRef × YamlRef

structure Maker where
  nodes : Array YamlNode
  made : Array (Option YamlContent)
  waiting : List YamlRef := []

abbrev Making := StateT Maker (Except YamlFault)

namespace Making

def node (r : YamlRef) : Making YamlNode :=
  return (← get).nodes.getD r .empty

def kind (r : YamlRef) : Making YamlKind :=
  return (← node r).kind

def entries (r : YamlRef) : Making (List Entry) := do
  match (← node r).entries? with
  | some entries => return entries
  | none => throw .malformed

def modifyNode (r : YamlRef) (f : YamlNode → YamlNode) : Making Unit :=
  modify fun m => { m with nodes := m.nodes.modify r f }

def setEntries (r : YamlRef) (entries : List Entry) : Making Unit :=
  modifyNode r fun n => .map n.kind entries

def hasMerge (entries : List Entry) : Making Bool :=
  entries.anyM fun (k, _) => return (← kind k) == .merge

def flatEntries (flatten : YamlRef → Making Unit) (r : YamlRef) : Making (List Entry) := do
  let _ ← entries r
  flatten r
  entries r

def entriesToMerge (flatten : YamlRef → Making Unit) (r : YamlRef) : Making (List Entry) := do
  match ← node r with
  | .list _ items => return (← items.mapM (flatEntries flatten)).reverse.flatten
  | _ => flatEntries flatten r

/--
Goes through the entries of the map at a place and takes those out that stand for the entries of others.
These go to the front, and `merged` are those that have been found, while `passed` stay where they are. If the
map is flattened meanwhile because it is merged into itself, nothing is left to do.
-/
def flattenFrom (flatten : YamlRef → Making Unit) (r : YamlRef) (merged passed : List Entry) :
    List Entry → Making Unit
  | [] => setEntries r (merged ++ passed)
  | (k, v) :: rest => do
    match ← kind k with
    | .merge =>
      setEntries r (passed ++ rest)
      let found ← entriesToMerge flatten v
      let now ← entries r
      if (← hasMerge rest) && !(← hasMerge now) then setEntries r (merged ++ found ++ now)
      else flattenFrom flatten r (merged ++ found) passed rest
    | .value =>
      modifyNode k (·.withKind .text)
      flattenFrom flatten r merged (passed ++ [(k, v)]) rest
    | _ => flattenFrom flatten r merged (passed ++ [(k, v)]) rest

def flatten (fuel : Nat) (r : YamlRef) : Making Unit :=
  match fuel with
  | 0 => throw .malformed
  | fuel + 1 => do flattenFrom (flatten fuel) r [] [] (← entries r)

def mergeBound (m : Maker) : Nat :=
  m.nodes.foldl (fun n node => n + (node.entries?.getD []).length) 1

def textAt (fuel : Nat) (r : YamlRef) : Making (List Text.TextUnit) :=
  match fuel with
  | 0 => throw .malformed
  | fuel + 1 => do
    match ← node r with
    | .scalar _ text => return text
    | .list .. => throw .malformed
    | .map _ entries =>
      match ← entries.findM? fun (k, _) => return (← kind k) == .value with
      | some (_, v) => textAt fuel v
      | none => throw .malformed

def note (r : YamlRef) (content : YamlContent) : Making Unit :=
  modify fun m => { m with made := m.made.setIfInBounds r (some content) }

def postpone (r : YamlRef) (content : YamlContent) : Making Unit := do
  note r content
  modify fun m => { m with waiting := m.waiting ++ [r] }

def meet (r : YamlRef) : Making Unit := do
  if ((← get).made.getD r none).isSome then return ()
  match ← kind r with
  | .list => postpone r (.list [])
  | .map => postpone r (.map [])
  | .set => postpone r (.set [])
  | .pairs => postpone r (.pairs [])
  | kind =>
    let text ← textAt ((← get).nodes.size + 1) r
    note r (.scalar (← scalarOf kind text))

def meetKey (r : YamlRef) : Making YamlScalar := do
  meet r
  match (← get).made.getD r none with
  | some (.scalar s) => return s
  | _ => throw .malformed

def listItems (r : YamlRef) : Making (List YamlRef) := do
  match ← node r with
  | .list _ items => return items
  | _ => throw .malformed

def mapEntries (r : YamlRef) : Making (List (YamlScalar × YamlRef)) := do
  let entries ← flatEntries (flatten (mergeBound (← get))) r
  entries.foldlM (fun found (k, v) => do
    let key ← meetKey k
    meet v
    return setEntry found key v) []

def onlyEntry (r : YamlRef) : Making Entry := do
  match ← entries r with
  | [(k, v)] =>
    meet k
    meet v
    return (k, v)
  | _ => throw .malformed

def complete (r : YamlRef) : Making Unit := do
  match ← kind r with
  | .list =>
    let items ← listItems r
    items.forM meet
    note r (.list items)
  | .map => note r (.map (← mapEntries r))
  | .set => note r (.set ((← mapEntries r).map (·.1)))
  | _ => note r (.pairs (← (← listItems r).mapM onlyEntry))

def completeAll (fuel : Nat) : Making Unit :=
  match fuel with
  | 0 => return ()
  | fuel + 1 => do
    match (← get).waiting with
    | [] => return ()
    | r :: rest =>
      modify fun m => { m with waiting := rest }
      complete r
      completeAll fuel

end Making

open Making in
def ofDocument (d : YamlDocument) : Except YamlFault Yaml := do
  let maker : Maker := { nodes := d.nodes, made := Array.replicate d.nodes.size none }
  let (_, m) ← (do meet d.root; completeAll (d.nodes.size + 1)).run maker
  return ⟨m.made.map (·.getD default), d.root⟩

end Yaml

end ContractFlow
