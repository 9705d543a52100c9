import ContractFlow.Data.Value

/-! This module reads JSON text. Of repeated fields the last value stays, at the place of the first. -/

namespace ContractFlow.Json

def isSpace (c : Char) : Bool :=
  c == ' ' || c == '\t' || c == '\n' || c == '\r'

def skipSpace (cs : List Char) : List Char :=
  cs.dropWhile isSpace

def hexDigit? (c : Char) : Option Nat :=
  if c.isDigit then some (c.toNat - '0'.toNat)
  else if 'a' ≤ c && c ≤ 'f' then some (c.toNat - 'a'.toNat + 10)
  else if 'A' ≤ c && c ≤ 'F' then some (c.toNat - 'A'.toNat + 10)
  else none

def hex4? : List Char → Option (Nat × List Char)
  | a :: b :: c :: d :: rest => do
    let a ← hexDigit? a
    let b ← hexDigit? b
    let c ← hexDigit? c
    let d ← hexDigit? d
    return (((a * 16 + b) * 16 + c) * 16 + d, rest)
  | _ => none

def joinUnits (unit : Nat) (rest : List Char) : Char × List Char :=
  if 0xD800 ≤ unit && unit < 0xDC00 then
    match rest with
    | '\\' :: 'u' :: more =>
      match hex4? more with
      | some (low, after) =>
        if 0xDC00 ≤ low && low < 0xE000 then
          (Char.ofNat (0x10000 + (unit - 0xD800) * 0x400 + (low - 0xDC00)), after)
        else ('�', rest)
      | none => ('�', rest)
    | _ => ('�', rest)
  else if 0xDC00 ≤ unit && unit < 0xE000 then ('�', rest)
  else (Char.ofNat unit, rest)

def readString (fuel : Nat) (acc : List Char) (cs : List Char) : Option (String × List Char) :=
  match fuel with
  | 0 => none
  | fuel + 1 =>
    match cs with
    | [] => none
    | '"' :: rest => some (String.ofList acc.reverse, rest)
    | '\\' :: 'u' :: rest => do
      let (unit, rest) ← hex4? rest
      let (c, rest) := joinUnits unit rest
      readString fuel (c :: acc) rest
    | '\\' :: c :: rest =>
      let plain :=
        match c with
        | 'n' => some '\n'
        | 't' => some '\t'
        | 'r' => some '\r'
        | 'b' => some '\x08'
        | 'f' => some '\x0c'
        | '"' => some '"'
        | '\\' => some '\\'
        | '/' => some '/'
        | _ => none
      match plain with
      | some c => readString fuel (c :: acc) rest
      | none => none
    | c :: rest => readString fuel (c :: acc) rest

def digitsValue (cs : List Char) : Nat :=
  cs.foldl (fun n c => n * 10 + (c.toNat - '0'.toNat)) 0

def readMagnitude (negative : Bool) (cs : List Char) : Option (Value × List Char) :=
  let whole := cs.takeWhile Char.isDigit
  let rest := cs.dropWhile Char.isDigit
  if whole.isEmpty then none else
    let (fraction, rest) :=
      match rest with
      | '.' :: more => (some (more.takeWhile Char.isDigit), more.dropWhile Char.isDigit)
      | _ => (none, rest)
    let (power, rest) : Option Int × List Char :=
      match rest with
      | e :: more =>
        if e == 'e' || e == 'E' then
          let (down, more) : Bool × List Char :=
            match more with
            | '-' :: more => (true, more)
            | '+' :: more => (false, more)
            | _ => (false, more)
          let size : Int := digitsValue (more.takeWhile Char.isDigit)
          (some (if down then -size else size), more.dropWhile Char.isDigit)
        else (none, rest)
      | [] => (none, rest)
    if fraction.isNone && power.isNone then some (.int (Double.withSign negative (digitsValue whole)), rest)
    else
      let places := fraction.getD []
      let digits := digitsValue (whole ++ places)
      some (.float (.ofDecimal negative digits (power.getD 0 - places.length)), rest)

def readConstant (cs : List Char) : Option (Value × List Char) :=
  [("NaN", Double.nan), ("Infinity", .infinite false), ("-Infinity", .infinite true)].findSome?
    fun (word, x) => if word.toList.isPrefixOf cs then some (.float x, cs.drop word.length) else none

def readNumber (cs : List Char) : Option (Value × List Char) :=
  match readConstant cs, cs with
  | some found, _ => some found
  | none, '-' :: rest => readMagnitude true rest
  | none, cs => readMagnitude false cs

mutual

def readValue (fuel : Nat) (cs : List Char) : Option (Value × List Char) :=
  match fuel with
  | 0 => none
  | fuel + 1 =>
    match skipSpace cs with
    | 'n' :: 'u' :: 'l' :: 'l' :: rest => some (.null, rest)
    | 't' :: 'r' :: 'u' :: 'e' :: rest => some (.bool true, rest)
    | 'f' :: 'a' :: 'l' :: 's' :: 'e' :: rest => some (.bool false, rest)
    | '"' :: rest => do
      let (s, rest) ← readString fuel [] rest
      return (.text s, rest)
    | '[' :: rest =>
      match skipSpace rest with
      | ']' :: rest => some (.list [], rest)
      | rest => do
        let (items, rest) ← readItems fuel [] rest
        return (.list items, rest)
    | '{' :: rest =>
      match skipSpace rest with
      | '}' :: rest => some (.object [], rest)
      | rest => do
        let (fields, rest) ← readFields fuel [] rest
        return (.object fields, rest)
    | cs => readNumber cs

def readItems (fuel : Nat) (acc : List Value) (cs : List Char) : Option (List Value × List Char) :=
  match fuel with
  | 0 => none
  | fuel + 1 =>
    match readValue fuel cs with
    | none => none
    | some (v, rest) =>
      match skipSpace rest with
      | ',' :: rest => readItems fuel (v :: acc) rest
      | ']' :: rest => some ((v :: acc).reverse, rest)
      | _ => none

def readFields (fuel : Nat) (acc : Fields) (cs : List Char) : Option (Fields × List Char) :=
  match fuel with
  | 0 => none
  | fuel + 1 =>
    match skipSpace cs with
    | '"' :: rest =>
      match readString fuel [] rest with
      | none => none
      | some (key, rest) =>
        match skipSpace rest with
        | ':' :: rest =>
          match readValue fuel rest with
          | none => none
          | some (v, rest) =>
            let acc := Fields.set acc key v
            match skipSpace rest with
            | ',' :: rest => readFields fuel acc rest
            | '}' :: rest => some (acc, rest)
            | _ => none
        | _ => none
    | _ => none

end

def parse? (s : String) : Option Value := do
  let cs := s.toList
  let (v, rest) ← readValue (3 * cs.length + 3) cs
  if (skipSpace rest).isEmpty then some v else none

end ContractFlow.Json
