import ContractFlow.Text.Integer
import ContractFlow.Yaml.Quoted

/-!
This module contains the tokens of YAML documents, and reads the names among them.
-/

namespace ContractFlow

structure TagName where
  handle : Option String
  suffix : String
deriving DecidableEq, Inhabited

inductive YamlDirective where
  | version (major : Nat)
  | handle (name : String) (start : String)
  | other
deriving DecidableEq, Inhabited

inductive YamlToken where
  | directive (d : YamlDirective)
  | documentStart | documentEnd
  | blockListStart | blockMapStart | blockEnd
  | flowListStart | flowListEnd | flowMapStart | flowMapEnd
  | blockEntry
  | flowEntry
  | key | value
  | anchor (name : String)
  | alias (name : String)
  | tag (name : TagName)
  | scalar (text : List Text.TextUnit) (isPlain : Bool)
deriving DecidableEq, Inhabited

namespace Yaml

def takeName (c : Cursor) : Except YamlFault (String × Cursor) :=
  match c.rest.takeWhile isNameChar with
  | [] => .error .malformed
  | name => .ok (String.ofList name, c.skip name.length)

def takeNodeName (c : Cursor) : Except YamlFault (String × Cursor) := do
  let (name, last) ← takeName c
  if isGap last.head? || last.head?.any (fun x => "?:,]\x7d%@\x60".contains x) then return (name, last)
  else throw .malformed

def isTagChar (c : Char) : Bool :=
  c.isAlphanum || "-;/?:@&=+$,_.!~*'()[]".contains c

def escapedBytes (fuel : Nat) (cs : List Char) : Except YamlFault (List UInt8 × List Char) :=
  match fuel, cs with
  | fuel + 1, '%' :: x :: y :: rest =>
    match hexNumber? [x, y] with
    | some n => (escapedBytes fuel rest).map fun (bytes, rest) => (n.toUInt8 :: bytes, rest)
    | none => .error .malformed
  | _, '%' :: _ => .error .malformed
  | _, cs => .ok ([], cs)

def tagChars (fuel : Nat) (cs : List Char) : Except YamlFault (List Char × List Char) :=
  match fuel, cs with
  | fuel + 1, c :: rest =>
    if c == '%' then do
      let (bytes, rest) ← escapedBytes (c :: rest).length (c :: rest)
      match String.fromUTF8? ⟨bytes.toArray⟩ with
      | some s => prepend s.toList (tagChars fuel rest)
      | none => .error .malformed
    else if isTagChar c then prepend [c] (tagChars fuel rest)
    else .ok ([], c :: rest)
  | _, cs => .ok ([], cs)

def takeTagText (c : Cursor) : Except YamlFault (String × Cursor) := do
  let (name, rest) ← tagChars c.rest.length c.rest
  if rest.length = c.rest.length then throw .malformed
  return (String.ofList name, c.goTo rest)

def takeHandle (c : Cursor) : Except YamlFault (String × Cursor) :=
  match c.rest with
  | '!' :: rest =>
    if rest.head? == some ' ' then .ok ("!", c.next)
    else
      let name := rest.takeWhile isNameChar
      if (rest.drop name.length).head? == some '!' then
        .ok (String.ofList ('!' :: name ++ ['!']), c.skip (name.length + 2))
      else .error .malformed
  | _ => .error .malformed

def atWordEnd (x : α × Cursor) : Except YamlFault (α × Cursor) :=
  if x.2.head? == some ' ' || isLineEnd x.2.head? then .ok x else .error .malformed

def takeTag (c : Cursor) : Except YamlFault (TagName × Cursor) := do
  if c.second? == some '<' then
    let (suffix, last) ← takeTagText (c.skip 2)
    if last.head? != some '>' then throw .malformed
    atWordEnd (⟨none, suffix⟩, last.next)
  else if isGap c.second? then atWordEnd (⟨none, "!"⟩, c.next)
  else
    let word := c.rest.tail.takeWhile fun x => x != ' ' && !isBreak x
    let (handle, start) ← if word.contains '!' then takeHandle c else .ok ("!", c.next)
    let (suffix, last) ← takeTagText start
    atWordEnd (⟨some handle, suffix⟩, last)

def takeVersionPart (c : Cursor) : Except YamlFault (Nat × Cursor) :=
  match c.rest.takeWhile Char.isDigit with
  | [] => .error .malformed
  | digits =>
    if Text.maxDigits < digits.length then .error .badNumber
    else .ok (digits.foldl (fun n d => n * 10 + (d.toNat - '0'.toNat)) 0, c.skip digits.length)

def takeDirective (c : Cursor) : Except YamlFault (YamlDirective × Cursor) := do
  let (name, behind) ← takeName c >>= atWordEnd
  let (d, last) ← match name with
    | "YAML" => do
      let (major, point) ← takeVersionPart behind.skipBlanks
      if point.head? != some '.' then throw .malformed
      let (_, last) ← takeVersionPart point.next >>= atWordEnd
      pure (.version major, last)
    | "TAG" => do
      let (handle, gap) ← takeHandle behind.skipBlanks
      if gap.head? != some ' ' then throw .malformed
      let (start, last) ← takeTagText gap.skipBlanks >>= atWordEnd
      pure (.handle handle start, last)
    | _ => pure (YamlDirective.other, behind.skipWhile fun x => !isBreak x)
  return (d, ← last.restOfLine)

end Yaml

end ContractFlow
