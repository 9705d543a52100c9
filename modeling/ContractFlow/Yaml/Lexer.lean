import ContractFlow.Yaml.Literal
import ContractFlow.Yaml.Plain
import ContractFlow.Yaml.Token

/-!
This module cuts the text of a YAML document into tokens. What is indented further begins a collection, and
that a scalar is a key is known only when the colon behind it is found.
-/

namespace ContractFlow.Yaml

structure KeyCandidate where
  level : Nat
  isRequired : Bool
  count : Nat
  place : Cursor

def maxKeyLength : Nat := 1024

def KeyCandidate.isStale (k : KeyCandidate) (c : Cursor) : Bool :=
  k.place.line != c.line || maxKeyLength < c.index - k.place.index

structure Lexer where
  place : Cursor
  tokens : List YamlToken := []
  level : Nat := 0
  indent : Int := -1
  outer : List Int := []
  allowsKey : Bool := true
  candidates : List KeyCandidate := []

namespace Lexer

def insertAt (count : Nat) (token : YamlToken) (tokens : List YamlToken) : List YamlToken :=
  tokens.take count ++ token :: tokens.drop count

def add (token : YamlToken) (l : Lexer) : Lexer :=
  { l with tokens := l.tokens ++ [token] }

def addAt (token : YamlToken) (place : Cursor) (l : Lexer) : Lexer :=
  { l.add token with place := place }

def inFlow (l : Lexer) : Bool :=
  l.level != 0

def skipSpace (fuel : Nat) (l : Lexer) : Lexer :=
  let place := l.place.skipBlanks.skipComment
  match fuel with
  | 0 => l
  | fuel + 1 =>
    if place.isAtBreak then
      skipSpace fuel { l with place := place.next, allowsKey := l.allowsKey || !l.inFlow }
    else { l with place := place }

def dropStale (l : Lexer) : Except YamlFault Lexer :=
  let (stale, left) := l.candidates.partition (·.isStale l.place)
  if stale.any (·.isRequired) then .error .malformed else .ok { l with candidates := left }

def dropCandidate (l : Lexer) : Except YamlFault Lexer :=
  let (dropped, left) := l.candidates.partition (·.level = l.level)
  if dropped.any (·.isRequired) then .error .malformed else .ok { l with candidates := left }

def addCandidate (l : Lexer) : Except YamlFault Lexer :=
  if !l.allowsKey then .ok l
  else do
    let isRequired := !l.inFlow && l.indent = l.place.column
    let l ← l.dropCandidate
    return { l with candidates := ⟨l.level, isRequired, l.tokens.length, l.place⟩ :: l.candidates }

def closeBlocks (column : Int) (outer : List Int) (l : Lexer) : Lexer :=
  match outer with
  | [] => { l with outer := [] }
  | next :: outer =>
    if column < l.indent then closeBlocks column outer { l.add .blockEnd with indent := next }
    else { l with outer := next :: outer }

def unwind (column : Int) (l : Lexer) : Lexer :=
  if l.inFlow then l else closeBlocks column l.outer l

def openBlock (start : YamlToken) (column : Nat) (count : Nat) (l : Lexer) : Lexer :=
  if l.inFlow || (column : Int) ≤ l.indent then l
  else
    { l with
      tokens := insertAt count start l.tokens
      outer := l.indent :: l.outer
      indent := column }

def openBlockHere (start : YamlToken) (l : Lexer) : Except YamlFault Lexer :=
  if !l.inFlow && !l.allowsKey then .error .malformed
  else .ok (l.openBlock start l.place.column l.tokens.length)

def addMark (token : YamlToken) (allowsKey : Bool) (l : Lexer) : Except YamlFault Lexer := do
  let l ← { l with allowsKey := allowsKey }.dropCandidate
  return l.addAt token l.place.next

def openFlow (token : YamlToken) (l : Lexer) : Except YamlFault Lexer := do
  let l ← l.addCandidate
  return { l.addAt token l.place.next with level := l.level + 1, allowsKey := true }

def closeFlow (token : YamlToken) (l : Lexer) : Except YamlFault Lexer := do
  if !l.inFlow then throw .malformed
  let l ← l.addMark token false
  return { l with level := l.level - 1 }

def addValue (l : Lexer) : Except YamlFault Lexer := do
  match l.candidates.find? (·.level = l.level) with
  | some k =>
    let l := { l with
      tokens := insertAt k.count .key l.tokens
      candidates := l.candidates.filter fun k => k.level != l.level
      allowsKey := false }
    let l := l.openBlock .blockMapStart k.place.column k.count
    return l.addAt .value l.place.next
  | none => (← l.openBlockHere .blockMapStart).addMark .value !l.inFlow

def addNode (read : Cursor → Except YamlFault (YamlToken × Cursor)) (l : Lexer) :
    Except YamlFault Lexer := do
  let l ← l.addCandidate
  let (token, last) ← read l.place
  return { l.addAt token last with allowsKey := false }

def addPlain (l : Lexer) : Except YamlFault Lexer := do
  let l ← l.addCandidate
  let (text, last, isBroken) :=
    takePlain l.inFlow (l.indent + 1) l.place.rest.length l.place
  return { l.addAt (.scalar (Text.units text) true) last with allowsKey := isBroken }

def addLiteral (isFolded : Bool) (l : Lexer) : Except YamlFault Lexer := do
  let l ← { l with allowsKey := true }.dropCandidate
  let (text, last) ← takeLiteral isFolded l.indent l.place.next
  return l.addAt (.scalar (Text.units text.toList) false) last

def addLine (token : YamlToken) (place : Cursor) (l : Lexer) : Except YamlFault Lexer := do
  let l ← (l.unwind (-1)).dropCandidate
  return { l.addAt token place with allowsKey := false }

def isAtLine (mark : Char) (c : Cursor) : Bool :=
  c.column = 0 && c.head? == some mark && isSeparator c.rest

def addToken (x : Char) (l : Lexer) : Except YamlFault Lexer :=
  let c := l.place
  let isMark := l.inFlow || isGap c.second?
  if x == '%' && c.column = 0 then do
    let (d, last) ← takeDirective c.next
    l.addLine (.directive d) last
  else if isAtLine '-' c then l.addLine .documentStart (c.skip 3)
  else if isAtLine '.' c then l.addLine .documentEnd (c.skip 3)
  else if x == '[' then l.openFlow .flowListStart
  else if x == '{' then l.openFlow .flowMapStart
  else if x == ']' then l.closeFlow .flowListEnd
  else if x == '}' then l.closeFlow .flowMapEnd
  else if x == ',' then l.addMark .flowEntry true
  else if x == '-' && isGap c.second? then do
    (← l.openBlockHere .blockListStart).addMark .blockEntry true
  else if x == '?' && isMark then do
    (← l.openBlockHere .blockMapStart).addMark .key !l.inFlow
  else if x == ':' && isMark then l.addValue
  else if x == '*' then l.addNode fun c => (takeNodeName c.next).map fun (s, c) => (.alias s, c)
  else if x == '&' then l.addNode fun c => (takeNodeName c.next).map fun (s, c) => (.anchor s, c)
  else if x == '!' then l.addNode fun c => (takeTag c).map fun (t, c) => (.tag t, c)
  else if (x == '|' || x == '>') && !l.inFlow then l.addLiteral (x == '>')
  else if x == '\'' || x == '"' then
    l.addNode fun c => (takeQuoted c).map fun (s, c) => (.scalar s false, c)
  else if startsPlain l.inFlow c then l.addPlain
  else .error .malformed

def run (fuel : Nat) (l : Lexer) : List YamlToken × Option YamlFault :=
  match fuel with
  | 0 => (l.tokens, some .malformed)
  | fuel + 1 =>
    let l := l.skipSpace (l.place.rest.length + 1)
    match l.dropStale with
    | .error fault => (l.tokens, some fault)
    | .ok l =>
      let l := l.unwind l.place.column
      match l.place.head? with
      | none =>
        match (l.unwind (-1)).dropCandidate with
        | .error fault => (l.tokens, some fault)
        | .ok l => (l.tokens, none)
      | some x =>
        match l.addToken x with
        | .error fault => (l.tokens, some fault)
        | .ok l => run fuel l

end Lexer

def tokens (cs : List Char) : List YamlToken × Option YamlFault :=
  let start : Cursor := { rest := cs }
  let start := if cs.head?.any isByteOrderMark then start.next else start
  Lexer.run (cs.length + 1) { place := start }

end ContractFlow.Yaml
