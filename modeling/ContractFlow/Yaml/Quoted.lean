import ContractFlow.Yaml.Cursor

/-!
This module reads scalars in quotes.
-/

namespace ContractFlow.Yaml

open Text

def joinBreaks (first : Char) (others : List Char) : List Char :=
  if first != '\n' then first :: others
  else if others.isEmpty then [' '] else others

def prepend (front : List α) (found : Except YamlFault (List α × List Char)) :
    Except YamlFault (List α × List Char) :=
  found.map fun (s, rest) => (front ++ s, rest)

def quotedBreaks (fuel : Nat) (cs : List Char) : Except YamlFault (List Char × List Char) :=
  match fuel with
  | 0 => .error .malformed
  | fuel + 1 =>
    if isSeparator cs then .error .malformed
    else
      match cs.dropWhile isSpace with
      | [] => .ok ([], [])
      | c :: rest =>
        if isBreak c then prepend [breakChar c] (quotedBreaks fuel rest) else .ok ([], c :: rest)

def quotedSpace (cs : List Char) : Except YamlFault (List Char × List Char) :=
  let spaces := cs.takeWhile isSpace
  match cs.dropWhile isSpace with
  | [] => .error .malformed
  | c :: rest =>
    if isBreak c then
      (quotedBreaks (rest.length + 1) rest).map fun (others, rest) =>
        (joinBreaks (breakChar c) others, rest)
    else .ok (spaces, c :: rest)

def takeSingle (fuel : Nat) (cs : List Char) : Except YamlFault (List Char × List Char) :=
  match fuel, cs with
  | 0, _ | _, [] => .error .malformed
  | fuel + 1, '\'' :: '\'' :: rest => prepend ['\''] (takeSingle fuel rest)
  | _, '\'' :: rest => .ok ([], rest)
  | fuel + 1, c :: rest =>
    if isGap (some c) then do
      let (space, rest) ← quotedSpace (c :: rest)
      prepend space (takeSingle fuel rest)
    else prepend [c] (takeSingle fuel rest)

def escapes : List (Char × Nat) :=
  [('0', 0), ('a', 7), ('b', 8), ('t', 9), ('\t', 9), ('n', 10), ('v', 11), ('f', 12), ('r', 13),
   ('e', 27), (' ', 32), ('"', 34), ('/', 47), ('\\', 92), ('N', 0x85), ('_', 0xA0), ('L', 0x2028),
   ('P', 0x2029)]

def hexLengths : List (Char × Nat) :=
  [('x', 2), ('u', 4), ('U', 8)]

def hexNumber? (digits : List Char) : Option Nat :=
  let isHex (c : Char) : Bool := c.isDigit || ('a' ≤ c.toLower && c.toLower ≤ 'f')
  let value (c : Char) : Nat := if c.isDigit then c.toNat - 48 else c.toLower.toNat - 87
  if digits.all isHex then some (digits.foldl (fun n c => n * 16 + value c) 0) else none

def hexUnit (digits : List Char) : Except YamlFault TextUnit :=
  match hexNumber? digits with
  | none => .error .malformed
  | some n =>
    if 0x80000000 ≤ n then .error .characterTooLarge
    else if 0x110000 ≤ n then .error .badCharacter
    else .ok (.ofNat n)

def takeEscape : List Char → Except YamlFault (List TextUnit × List Char)
  | [] => .error .malformed
  | c :: rest =>
    match escapes.lookup c, hexLengths.lookup c with
    | some n, _ => .ok ([.ofNat n], rest)
    | none, some n =>
      if rest.length < n then .error .malformed
      else (hexUnit (rest.take n)).map fun x => ([x], rest.drop n)
    | none, none =>
      if isBreak c then (quotedBreaks (rest.length + 1) rest).map fun (s, rest) => (units s, rest)
      else .error .malformed

def takeDouble (fuel : Nat) (cs : List Char) : Except YamlFault (List TextUnit × List Char) :=
  match fuel, cs with
  | 0, _ | _, [] => .error .malformed
  | _, '"' :: rest => .ok ([], rest)
  | fuel + 1, '\\' :: rest => do
    let (x, rest) ← takeEscape rest
    prepend x (takeDouble fuel rest)
  | fuel + 1, c :: rest =>
    if isGap (some c) then do
      let (space, rest) ← quotedSpace (c :: rest)
      prepend (units space) (takeDouble fuel rest)
    else prepend [.char c] (takeDouble fuel rest)

def takeQuoted (c : Cursor) : Except YamlFault (List TextUnit × Cursor) := do
  let (s, rest) ← match c.rest with
    | '\'' :: rest => (takeSingle (rest.length + 1) rest).map fun (s, rest) => (units s, rest)
    | '"' :: rest => takeDouble (rest.length + 1) rest
    | _ => .error .malformed
  return (s, c.goTo rest)

end ContractFlow.Yaml
