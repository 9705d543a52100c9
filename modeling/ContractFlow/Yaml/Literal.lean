import ContractFlow.Yaml.Cursor

/-!
This module reads scalars that are blocks of lines.
-/

namespace ContractFlow.Yaml

inductive Chomping where
  | strip
  | clip
  | keep
deriving DecidableEq, Inhabited

structure BlockHeader where
  chomping : Chomping := .clip
  indent : Option Nat := none

namespace BlockHeader

def add? (h : BlockHeader) (c : Char) : Option BlockHeader :=
  if c == '+' then if h.chomping = .clip then some { h with chomping := .keep } else none
  else if c == '-' then if h.chomping = .clip then some { h with chomping := .strip } else none
  else if c.isDigit && c != '0' then
    if h.indent.isNone then some { h with indent := some (c.toNat - '0'.toNat) } else none
  else none

def read (h : BlockHeader) (fuel : Nat) (c : Cursor) : Except YamlFault (BlockHeader × Cursor) :=
  match fuel with
  | 0 => .error .malformed
  | fuel + 1 =>
    match c.head? with
    | none => (c.restOfLine).map (h, ·)
    | some x =>
      if x == ' ' || isBreak x then (c.restOfLine).map (h, ·)
      else
        match h.add? x with
        | some h => read h fuel c.next
        | none => .error .malformed

end BlockHeader

def leadingLines (fuel : Nat) (greatest : Nat) (c : Cursor) : List Char × Nat × Cursor :=
  let c := c.skipBlanks
  let greatest := max greatest c.column
  match fuel, c.head? with
  | fuel + 1, some x =>
    if isBreak x then
      let (others, greatest, last) := leadingLines fuel greatest c.next
      (breakChar x :: others, greatest, last)
    else ([], greatest, c)
  | _, _ => ([], greatest, c)

def skipIndent (indent : Nat) (c : Cursor) : Cursor :=
  c.skip (min (indent - c.column) (c.rest.takeWhile (· == ' ')).length)

def emptyLines (indent : Nat) (fuel : Nat) (c : Cursor) : List Char × Cursor :=
  let c := skipIndent indent c
  match fuel, c.head? with
  | fuel + 1, some x =>
    if isBreak x then
      let (others, last) := emptyLines indent fuel c.next
      (breakChar x :: others, last)
    else ([], c)
  | _, _ => ([], c)

def isInBlock (indent : Nat) (c : Cursor) : Bool :=
  c.column = indent && !c.isAtEnd

def lineJoint (isFolded : Bool) (end? : Option Char) (isFlush : Bool) (others : List Char) :
    List Char :=
  if isFolded && end? == some '\n' && isFlush then if others.isEmpty then [' '] else []
  else end?.toList

def blockLines (isFolded : Bool) (chomping : Chomping) (indent : Nat) (fuel : Nat)
    (before : List Char) (c : Cursor) : List Char × Cursor :=
  match fuel with
  | 0 => ([], c)
  | fuel + 1 =>
    let line := c.rest.takeWhile fun x => !isBreak x
    let last := c.skip line.length
    let end? := last.head?.map breakChar
    let (others, next) := emptyLines indent last.rest.length last.next
    if isInBlock indent next then
      let isFlush := !c.head?.any isSpace && !next.head?.any isSpace
      let (more, behind) := blockLines isFolded chomping indent fuel others next
      (before ++ line ++ lineJoint isFolded end? isFlush others ++ more, behind)
    else
      let tail := match chomping with
        | .strip => []
        | .clip => end?.toList
        | .keep => end?.toList ++ others
      (before ++ line ++ tail, next)

def takeLiteral (isFolded : Bool) (parent : Int) (c : Cursor) : Except YamlFault (String × Cursor) := do
  let (header, start) ← BlockHeader.read {} (c.rest.length + 1) c
  let least := (max 1 (parent + 1)).toNat
  let fuel := c.rest.length + 1
  let (before, indent, first) := match header.indent with
    | some n =>
      let (before, first) := emptyLines (least + n - 1) fuel start
      (before, least + n - 1, first)
    | none =>
      let (before, greatest, first) := leadingLines fuel 0 start
      (before, max least greatest, first)
  if isInBlock indent first then
    let (text, last) := blockLines isFolded header.chomping indent fuel before first
    return (String.ofList text, last)
  else
    return (String.ofList (if header.chomping = .keep then before else []), first)

end ContractFlow.Yaml
