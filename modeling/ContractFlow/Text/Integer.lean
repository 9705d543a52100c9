import ContractFlow.Text.Character

/-! This module reads whole numbers from text in a forgiving way, with the digits of any script. -/

namespace ContractFlow.Text

def digitZeros : List Nat :=
  [0x30, 0x660, 0x6F0, 0x7C0, 0x966, 0x9E6, 0xA66, 0xAE6, 0xB66, 0xBE6, 0xC66, 0xCE6, 0xD66, 0xDE6,
   0xE50, 0xED0, 0xF20, 0x1040, 0x1090, 0x17E0, 0x1810, 0x1946, 0x19D0, 0x1A80, 0x1A90, 0x1B50,
   0x1BB0, 0x1C40, 0x1C50, 0xA620, 0xA8D0, 0xA900, 0xA9D0, 0xA9F0, 0xAA50, 0xABF0, 0xFF10, 0x104A0,
   0x10D30, 0x11066, 0x110F0, 0x11136, 0x111D0, 0x112F0, 0x11450, 0x114D0, 0x11650, 0x116C0,
   0x11730, 0x118E0, 0x11950, 0x11C50, 0x11D50, 0x11DA0, 0x16A60, 0x16AC0, 0x16B50, 0x1D7CE,
   0x1D7D8, 0x1D7E2, 0x1D7EC, 0x1D7F6, 0x1E140, 0x1E2F0, 0x1E950, 0x1FBF0]

def digit? (c : Char) : Option Nat :=
  if c.isDigit then some (c.toNat - 0x30)
  else if c.toNat < 0x80 then none
  else (digitZeros.find? fun z => z ≤ c.toNat && c.toNat < z + 10).map (c.toNat - ·)

def digits? (cs : List Char) : Option Nat :=
  start 0 cs
where
  start (acc : Nat) : List Char → Option Nat
    | [] => none
    | c :: cs => (digit? c).bind fun d => go (acc * 10 + d) cs
  go (acc : Nat) : List Char → Option Nat
    | [] => some acc
    | '_' :: cs => start acc cs
    | c :: cs => (digit? c).bind fun d => go (acc * 10 + d) cs

def signed? : List Char → Option Int
  | '-' :: cs => (digits? cs).map fun n => -(n : Int)
  | '+' :: cs => (digits? cs).map fun n => (n : Int)
  | cs => (digits? cs).map fun n => (n : Int)

def isMargin (c : Char) : Bool :=
  isBlank c && !(28 ≤ c.toNat && c.toNat ≤ 31)

def maxDigits : Nat := 4300

def integer? (s : String) : Option Int :=
  if maxDigits < s.toList.countP fun c => (digit? c).isSome then none
  else signed? (dropMargins isMargin s.toList)

inductive NumeralFault where
  | unreadable
  | tooLong
deriving DecidableEq, Inhabited

def afterZeros (last : Char) : List Char → Option (List Char)
  | [] => some [last]
  | c :: cs =>
    if c == '0' || c == '_' then afterZeros c cs
    else if c.isDigit || c == '-' then some (c :: cs)
    else if c == '.' then some (last :: c :: cs)
    else none

def dropZeros : List Char → Option (List Char)
  | [] => none
  | c :: cs => if c == '0' then afterZeros c cs else if c.isDigit || c == '-' then some (c :: cs) else none

def dropSignedZeros : List Char → Option (List Char)
  | '+' :: '-' :: _ => none
  | '+' :: cs => dropZeros cs
  | '-' :: cs => (dropZeros cs).map ('-' :: ·)
  | cs => dropZeros cs

def dropFraction (cs : List Char) : List Char :=
  match cs.dropWhile (· != '.') with
  | _ :: c :: rest => if (c :: rest).all (· == '0') then cs.takeWhile (· != '.') else cs
  | _ => cs

def dropUnderscores (cs : List Char) : List Char :=
  let isInner := cs.head? != some '_' && cs.getLast? != some '_'
    && (cs.zip cs.tail).all fun (c, d) => !(c == '_' && d == '_')
  if isInner then cs.filter (· != '_') else cs

def plainDigits (cs : List Char) : Except NumeralFault Nat :=
  let digits := cs.takeWhile Char.isDigit
  if digits.head? == some '0' && cs != ['0'] then .error .unreadable
  else if maxDigits < digits.length then .error .tooLong
  else if digits.isEmpty || digits.length < cs.length then .error .unreadable
  else .ok (digits.foldl (fun n c => n * 10 + (c.toNat - '0'.toNat)) 0)

def numeral (s : String) : Except NumeralFault Int :=
  match dropSignedZeros (dropMargins isMargin s.toList) with
  | none => .error .unreadable
  | some cs =>
    match dropUnderscores (dropFraction cs) with
    | '-' :: cs => (plainDigits cs).map fun n => -(n : Int)
    | cs => (plainDigits cs).map fun n => (n : Int)

end ContractFlow.Text
