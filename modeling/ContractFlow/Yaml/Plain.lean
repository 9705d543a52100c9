import ContractFlow.Yaml.Quoted

/-!
This module reads scalars without quotes.
-/

namespace ContractFlow.Yaml

def isReserved (c : Char) : Bool :=
  isGap (some c) || "-?:,[]\x7b\x7d#&*!|>'\"%@\x60".contains c

def startsPlain (inFlow : Bool) (c : Cursor) : Bool :=
  match c.head? with
  | none => false
  | some x => !isReserved x || !isGap c.second? && (x == '-' || !inFlow && (x == '?' || x == ':'))

def endsWord (inFlow : Bool) (cs : List Char) : Bool :=
  isGap cs.head? || inFlow && (isFlowMark cs.head? || cs.head? == some '?')
    || cs.head? == some ':' && (isGap cs[1]? || inFlow && isFlowMark cs[1]?)

def takeWord (inFlow : Bool) : List Char → List Char × List Char
  | [] => ([], [])
  | c :: cs =>
    if endsWord inFlow (c :: cs) then ([], c :: cs)
    else
      let (word, rest) := takeWord inFlow cs
      (c :: word, rest)

structure WordGap where
  text : List Char
  place : Cursor
  isBroken : Bool

/--
The line ends behind a first one, without the blanks around them, and the place behind all that. In front of
the line between two documents there are none.
-/
def plainBreaks (fuel : Nat) (c : Cursor) : Option (List Char) × Cursor :=
  match fuel with
  | 0 => (none, c)
  | fuel + 1 =>
    if isSeparator c.rest then (none, c)
    else
      let c := c.skipBlanks
      match c.head? with
      | some x =>
        if isBreak x then
          let (others, last) := plainBreaks fuel c.next
          (others.map (breakChar x :: ·), last)
        else (some [], c)
      | none => (some [], c)

def wordGap (c : Cursor) : WordGap :=
  let start := c.skipBlanks
  match start.head? with
  | some x =>
    if isBreak x then
      let (others, last) := plainBreaks (start.rest.length + 1) start.next
      ⟨(others.map (joinBreaks (breakChar x))).getD [], last, true⟩
    else ⟨c.rest.takeWhile (· == ' '), start, false⟩
  | none => ⟨c.rest.takeWhile (· == ' '), start, false⟩

/--
A scalar without quotes at a place: its text, the place behind it and the space after it, and whether a line
ended in that space. It goes on in lines that are indented by at least `indent`.
-/
def takePlain (inFlow : Bool) (indent : Int) (fuel : Nat) (c : Cursor) : List Char × Cursor × Bool :=
  let (word, rest) := takeWord inFlow c.rest
  let gap := wordGap (c.goTo rest)
  match fuel with
  | 0 => (word, gap.place, gap.isBroken)
  | fuel + 1 =>
    if gap.text.isEmpty || gap.place.head? == some '#'
        || !inFlow && (gap.place.column : Int) < indent || endsWord inFlow gap.place.rest then
      (word, gap.place, gap.isBroken)
    else
      let (others, last, isBroken) := takePlain inFlow indent fuel gap.place
      (word ++ gap.text ++ others, last, isBroken)

end ContractFlow.Yaml
