import ContractFlow.Yaml.Node

/-!
This module contains places in the text of a YAML document.
-/

namespace ContractFlow.Yaml

structure Cursor where
  rest : List Char
  index : Nat := 0
  line : Nat := 0
  column : Nat := 0
deriving Inhabited

def isBreak (c : Char) : Bool :=
  c == '\n' || c.toNat == 0x85 || c.toNat == 0x2028 || c.toNat == 0x2029

def breakChar (c : Char) : Char :=
  if c.toNat == 0x85 then '\n' else c

def isSpace (c : Char) : Bool :=
  c == ' ' || c == '\t'

def isByteOrderMark (c : Char) : Bool :=
  c.toNat == 0xFEFF

def isGap : Option Char → Bool
  | none => true
  | some c => isSpace c || isBreak c

def isLineEnd : Option Char → Bool
  | none => true
  | some c => isBreak c

def isFlowMark : Option Char → Bool
  | some ',' | some '[' | some ']' | some '{' | some '}' => true
  | _ => false

def isSeparator : List Char → Bool
  | '-' :: '-' :: '-' :: rest | '.' :: '.' :: '.' :: rest => isGap rest.head?
  | _ => false

def isNameChar (c : Char) : Bool :=
  c.isAlphanum || c == '-' || c == '_'

namespace Cursor

def head? (c : Cursor) : Option Char :=
  c.rest.head?

def second? (c : Cursor) : Option Char :=
  c.rest[1]?

def next (c : Cursor) : Cursor :=
  match c.rest with
  | [] => c
  | x :: rest =>
    if isBreak x then ⟨rest, c.index + 1, c.line + 1, 0⟩
    else ⟨rest, c.index + 1, c.line, if isByteOrderMark x then c.column else c.column + 1⟩

def skip : Nat → Cursor → Cursor
  | 0, c => c
  | n + 1, c => skip n c.next

def goTo (c : Cursor) (rest : List Char) : Cursor :=
  c.skip (c.rest.length - rest.length)

def skipWhile (test : Char → Bool) (c : Cursor) : Cursor :=
  c.goTo (c.rest.dropWhile test)

def skipBlanks (c : Cursor) : Cursor :=
  c.skipWhile (· == ' ')

def skipComment (c : Cursor) : Cursor :=
  if c.head? == some '#' then c.skipWhile fun x => !isBreak x else c

def isAtEnd (c : Cursor) : Bool :=
  c.rest.isEmpty

def isAtBreak (c : Cursor) : Bool :=
  c.head?.any isBreak

def restOfLine (c : Cursor) : Except YamlFault Cursor :=
  let last := c.skipBlanks.skipComment
  if isLineEnd last.head? then .ok last.next else .error .malformed

end Cursor

end ContractFlow.Yaml
