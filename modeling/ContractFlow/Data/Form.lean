import ContractFlow.Data.Value
import ContractFlow.Text.Integer

/-!
This module reads records from named values. Everything that is wrong with the values is told at once.
-/

namespace ContractFlow

inductive Refusal where
  | absent
  | textExpected
  | textUnreadable
  | numberExpected
  | numberUnreadable
  | numberTooLong
  | numberInfinite
  | numberWithFraction
  | numberTooSmall
  | flagExpected
  | flagUnreadable
  | objectExpected
  | placeExpected
  | notAllowed
  | unknownName
deriving DecidableEq, Inhabited

def Refusal.name : Refusal → String
  | absent => "missing"
  | textExpected => "string_type"
  | textUnreadable => "string_unicode"
  | numberExpected => "int_type"
  | numberUnreadable => "int_parsing"
  | numberTooLong => "int_parsing_size"
  | numberInfinite => "finite_number"
  | numberWithFraction => "int_from_float"
  | numberTooSmall => "greater_than_equal"
  | flagExpected => "bool_type"
  | flagUnreadable => "bool_parsing"
  | objectExpected => "dict_type"
  | placeExpected => "path_type"
  | notAllowed => "literal_error"
  | unknownName => "extra_forbidden"

structure Complaint where
  path : List Value
  reason : Refusal
deriving Inhabited

namespace Form

def leastShort : Int := -Nat.pow 2 63

def isShort (n : Int) : Bool :=
  leastShort ≤ n && n < -leastShort

def isShortWhole (n : Int) : Bool :=
  isShort n && n != leastShort

def readDouble (x : Double) : Except Refusal Int :=
  match x.parts? with
  | none => .error .numberInfinite
  | some (n, rest) =>
    if !rest.isZero then .error .numberWithFraction
    else if isShortWhole n then .ok n
    else .error .numberTooLong

def readNumeral (s : String) : Except Refusal Int :=
  match Text.numeral s with
  | .ok n => .ok n
  | .error .unreadable => .error .numberUnreadable
  | .error .tooLong => .error .numberTooLong

def readInt : Value → Except Refusal Int
  | .int n => .ok n
  | .bool b => .ok (if b then 1 else 0)
  | .float x => readDouble x
  | .text s => readNumeral s
  | _ => .error .numberExpected

def readBound (v : Value) : Except Refusal Int := do
  let n ← readInt v
  if n < 1 then throw .numberTooSmall
  return n

def readText : Value → Except Refusal String
  | .text s => .ok s
  | _ => .error .textExpected

def flagWords : List (String × Bool) :=
  [("0", false), ("off", false), ("f", false), ("false", false), ("n", false), ("no", false),
   ("1", true), ("on", true), ("t", true), ("true", true), ("y", true), ("yes", true)]

def readFlagNumber (n : Int) : Except Refusal Bool :=
  if n = 0 then .ok false
  else if n = 1 then .ok true
  else .error (if isShort n then .flagUnreadable else .flagExpected)

def readFlag : Value → Except Refusal Bool
  | .bool b => .ok b
  | .int n => readFlagNumber n
  | .float x =>
    match x.whole? with
    | some n => if isShortWhole n then readFlagNumber n else .error .flagExpected
    | none => .error .flagExpected
  | .text s =>
    match flagWords.lookup (String.ofList (s.toList.map Char.toLower)) with
    | some b => .ok b
    | none => .error .flagUnreadable
  | _ => .error .flagExpected

def readChoice (choices : List (String × α)) : Value → Except Refusal α
  | .text s =>
    match choices.lookup s with
    | some x => .ok x
    | none => .error .notAllowed
  | _ => .error .notAllowed

def readFields : Value → Except Refusal Fields
  | .object fields => .ok fields
  | _ => .error .objectExpected

structure Item (α : Type) where
  name : String
  isRequired : Bool := false
  accept : Value → α → Except Refusal α

def Item.of (name : String) (read : Value → Except Refusal β) (store : α → β → α) : Item α :=
  { name := name, accept := fun v x => (read v).map (store x) }

def complaint (name : String) (reason : Refusal) : Complaint :=
  ⟨[.text name], reason⟩

def step (given? : String → Option Value) (state : α × List Complaint) (item : Item α) :
    α × List Complaint :=
  match given? item.name with
  | none =>
    if item.isRequired then (state.1, state.2 ++ [complaint item.name .absent]) else state
  | some v =>
    match item.accept v state.1 with
    | .ok x => (x, state.2)
    | .error r => (state.1, state.2 ++ [complaint item.name r])

def fill (items : List (Item α)) (given? : String → Option Value) (x : α) : α × List Complaint :=
  items.foldl (step given?) (x, [])

def check (state : α × List Complaint) : Except (List Complaint) α :=
  match state.2 with
  | [] => .ok state.1
  | complaints => .error complaints

end Form

end ContractFlow
