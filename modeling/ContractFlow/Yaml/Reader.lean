import ContractFlow.Yaml.Contents
import ContractFlow.Yaml.Lexer

/-!
This module reads YAML documents.
-/

namespace ContractFlow.Yaml

structure Reader where
  tokens : List YamlToken
  fault : Option YamlFault := none
  handles : List (String × String) := []
  nodes : Array YamlNode := #[]
  anchors : List (String × YamlRef) := []

abbrev Reading := StateT Reader (Except YamlFault)

namespace Reading

def peek : Reading (Option YamlToken) := do
  let r ← get
  match r.tokens, r.fault with
  | [], some fault => throw fault
  | tokens, _ => return tokens.head?

def advance : Reading Unit :=
  modify fun r => { r with tokens := r.tokens.tail }

def accept (token : YamlToken) : Reading Bool := do
  if (← peek) == some token then
    advance
    return true
  else return false

def expect (token : YamlToken) : Reading Unit := do
  if !(← accept token) then throw .malformed

def isAt (tokens : List YamlToken) : Reading Bool :=
  return (← peek).any tokens.contains

end Reading

open Reading

def standardHandles : List (String × String) :=
  [("!", "!"), ("!!", "tag:yaml.org,2002:")]

structure NodeMarks where
  anchor : Option String := none
  tag : Option String := none

def fullTag (t : TagName) : Reading String := do
  match t.handle with
  | none => return t.suffix
  | some handle =>
    match (← get).handles.lookup handle with
    | some start => return start ++ t.suffix
    | none => throw .malformed

def readMarks (fuel : Nat) (marks : NodeMarks) : Reading NodeMarks :=
  match fuel with
  | 0 => return marks
  | fuel + 1 => do
    match ← peek, marks.anchor, marks.tag with
    | some (.anchor name), none, _ =>
      advance
      readMarks fuel { marks with anchor := some name }
    | some (.tag t), _, none =>
      advance
      readMarks fuel { marks with tag := some (← fullTag t) }
    | _, _, _ => return marks

def NodeMarks.collectionKind (marks : NodeMarks) (usual : YamlKind) : YamlKind :=
  match marks.tag with
  | none | some "!" => usual
  | some name => .ofName name

def NodeMarks.scalarKind (marks : NodeMarks) (isPlain : Bool) (text : List Text.TextUnit) : YamlKind :=
  match marks.tag with
  | some "!" => .ofPlain text
  | some name => .ofName name
  | none => if isPlain then .ofPlain text else .text

def addNode (n : YamlNode) : Reading YamlRef := do
  let place := (← get).nodes.size
  modify fun r => { r with nodes := r.nodes.push n }
  return place

def setNode (place : YamlRef) (n : YamlNode) : Reading YamlRef := do
  modify fun r => { r with nodes := r.nodes.setIfInBounds place n }
  return place

def reserve (marks : NodeMarks) : Reading YamlRef := do
  let place ← addNode .empty
  if let some name := marks.anchor then
    if ((← get).anchors.lookup name).isSome then throw .malformed
    modify fun r => { r with anchors := (name, place) :: r.anchors }
  return place

mutual

def readNode (fuel : Nat) (inBlock isEntry : Bool) : Reading YamlRef :=
  match fuel with
  | 0 => throw .malformed
  | fuel + 1 => do
    if let some (.alias name) ← peek then
      advance
      match (← get).anchors.lookup name with
      | some place => return place
      | none => throw .malformed
    let marks ← readMarks 2 {}
    let start ← peek
    let place ← reserve marks
    match start with
    | some (.scalar text isPlain) =>
      advance
      setNode place (.scalar (marks.scalarKind isPlain text) text)
    | some .flowListStart =>
      advance
      setNode place (.list (marks.collectionKind .list) (← flowItems fuel true))
    | some .flowMapStart =>
      advance
      setNode place (.map (marks.collectionKind .map) (← flowEntries fuel true))
    | _ =>
      if isEntry && start == some .blockEntry then
        setNode place (.list (marks.collectionKind .list) (← looseItems fuel))
      else if inBlock && start == some .blockListStart then
        advance
        setNode place (.list (marks.collectionKind .list) (← blockItems fuel))
      else if inBlock && start == some .blockMapStart then
        advance
        setNode place (.map (marks.collectionKind .map) (← blockEntries fuel))
      else if marks.anchor.isSome || marks.tag.isSome then
        setNode place (.scalar (marks.scalarKind true []) [])
      else throw .malformed

def readNodeUnless (fuel : Nat) (inBlock isEntry : Bool) (ends : List YamlToken) : Reading YamlRef :=
  match fuel with
  | 0 => throw .malformed
  | fuel + 1 => do
    if ← isAt ends then addNode .empty else readNode fuel inBlock isEntry

def blockItems (fuel : Nat) : Reading (List YamlRef) :=
  match fuel with
  | 0 => throw .malformed
  | fuel + 1 => do
    if ← accept .blockEntry then
      let item ← readNodeUnless fuel true false [.blockEntry, .blockEnd]
      return item :: (← blockItems fuel)
    else
      expect .blockEnd
      return []

def looseItems (fuel : Nat) : Reading (List YamlRef) :=
  match fuel with
  | 0 => throw .malformed
  | fuel + 1 => do
    if ← accept .blockEntry then
      let item ← readNodeUnless fuel true false [.blockEntry, .key, .value, .blockEnd]
      return item :: (← looseItems fuel)
    else return []

def blockEntries (fuel : Nat) : Reading (List (YamlRef × YamlRef)) :=
  match fuel with
  | 0 => throw .malformed
  | fuel + 1 => do
    let ends : List YamlToken := [.key, .value, .blockEnd]
    if ← accept .key then
      let k ← readNodeUnless fuel true true ends
      let v ← if ← accept .value then readNodeUnless fuel true true ends else addNode .empty
      return (k, v) :: (← blockEntries fuel)
    else
      expect .blockEnd
      return []

def flowItems (fuel : Nat) (isFirst : Bool) : Reading (List YamlRef) :=
  match fuel with
  | 0 => throw .malformed
  | fuel + 1 => do
    if ← accept .flowListEnd then return []
    if !isFirst then expect .flowEntry
    if ← accept .key then
      let k ← readNodeUnless fuel false false [.value, .flowEntry, .flowListEnd]
      let v ← if ← accept .value then readNodeUnless fuel false false [.flowEntry, .flowListEnd]
        else addNode .empty
      let item ← addNode (.map .map [(k, v)])
      return item :: (← flowItems fuel false)
    else if ← accept .flowListEnd then return []
    else
      let item ← readNode fuel false false
      return item :: (← flowItems fuel false)

def flowEntries (fuel : Nat) (isFirst : Bool) : Reading (List (YamlRef × YamlRef)) :=
  match fuel with
  | 0 => throw .malformed
  | fuel + 1 => do
    if ← accept .flowMapEnd then return []
    if !isFirst then expect .flowEntry
    if ← accept .key then
      let k ← readNodeUnless fuel false false [.value, .flowEntry, .flowMapEnd]
      let v ← if ← accept .value then readNodeUnless fuel false false [.flowEntry, .flowMapEnd]
        else addNode .empty
      return (k, v) :: (← flowEntries fuel false)
    else if ← accept .flowMapEnd then return []
    else
      let k ← readNode fuel false false
      let v ← addNode .empty
      return (k, v) :: (← flowEntries fuel false)

end

def readDirectives (fuel : Nat) (hasVersion : Bool) : Reading Unit :=
  match fuel with
  | 0 => return ()
  | fuel + 1 => do
    match ← peek with
    | some (.directive (.version major)) =>
      if hasVersion || major != 1 then throw .malformed
      advance
      readDirectives fuel true
    | some (.directive (.handle name start)) =>
      if ((← get).handles.lookup name).isSome then throw .malformed
      advance
      modify fun r => { r with handles := r.handles ++ [(name, start)] }
      readDirectives fuel hasVersion
    | some (.directive .other) =>
      advance
      readDirectives fuel hasVersion
    | _ => return ()

def skipEnds (fuel : Nat) : Reading Unit :=
  match fuel with
  | 0 => return ()
  | fuel + 1 => do
    if ← accept .documentEnd then skipEnds fuel

def addStandardHandles : Reading Unit :=
  modify fun r => { r with handles := r.handles ++ standardHandles }

def readDocument (fuel : Nat) : Reading YamlRef := do
  match ← peek with
  | none => addNode .empty
  | some (.directive _) | some .documentStart =>
    readDirectives fuel false
    addStandardHandles
    expect .documentStart
    let ends ← peek
    let n ← match ends with
      | none | some (.directive _) | some .documentStart | some .documentEnd => addNode .empty
      | _ => readNode fuel true false
    readEnd n
  | _ =>
    addStandardHandles
    readEnd (← readNode fuel true false)
where
  readEnd (n : YamlRef) : Reading YamlRef := do
    skipEnds fuel
    if (← peek).isSome then throw .malformed
    return n

def isAllowed (c : Char) : Bool :=
  let n := c.toNat
  n == 9 || n == 10 || (0x20 ≤ n && n ≤ 0x7E) || n == 0x85 || (0xA0 ≤ n && n != 0xFFFE && n != 0xFFFF)

def unifyBreaks : List Char → List Char
  | [] => []
  | '\r' :: '\n' :: rest => '\n' :: unifyBreaks rest
  | '\r' :: rest => '\n' :: unifyBreaks rest
  | c :: rest => c :: unifyBreaks rest

def document (text : String) : Except YamlFault YamlDocument := do
  let cs := unifyBreaks text.toList
  if !cs.all isAllowed then throw .malformed
  let (tokens, fault) := tokens cs
  let (root, r) ← (readDocument (3 * tokens.length + 3)).run { tokens := tokens, fault := fault }
  return ⟨r.nodes, root⟩

def read (text : String) : Except YamlFault Yaml := do
  ofDocument (← document text)

end ContractFlow.Yaml
