import ContractFlow.Data.Value

/-!
This module contains points in time and their dates in the Gregorian calendar.
-/

namespace ContractFlow

structure Instant where
  micros : Int
deriving DecidableEq, Inhabited

inductive ClockFault where
  | notANumber
  | undated
  | beyondCalendar
  | beyondClock
deriving DecidableEq, Inhabited

namespace Instant

def isCountable (seconds : Int) : Bool :=
  -Nat.pow 2 63 ≤ seconds && seconds < Nat.pow 2 63

def ofParts (seconds micros : Int) : Except ClockFault Instant :=
  if isCountable seconds then .ok ⟨seconds * 1000000 + micros⟩ else .error .beyondClock

def ofSeconds (x : Double) : Except ClockFault Instant :=
  match x.parts? with
  | none => .error (if x = .nan then .undated else .beyondClock)
  | some (seconds, rest) =>
    let micros := ((rest * Double.ofInt 1000000).nearest?).getD 0
    ofParts (seconds + micros / 1000000) (micros % 1000000)

def ofValue : Value → Except ClockFault Instant
  | .int n => ofParts n 0
  | .bool b => ofParts (if b then 1 else 0) 0
  | .float x => ofSeconds x
  | _ => .error .notANumber

variable (t : Instant)

def subsecond : Nat :=
  (t.micros % 1000000).toNat

def seconds : Int :=
  t.micros / 1000000

def secondOfDay : Nat :=
  (t.seconds % 86400).toNat

def days : Int :=
  t.seconds / 86400

end Instant

structure Date where
  year : Int
  month : Nat
  day : Nat
deriving DecidableEq, Inhabited

/--
The date that is a number of days after the start of the year 1970. Years are counted from March, so that
the day of the leap year is the last one, and in periods of 400 years, which all have the same length.
-/
def Date.ofDays (days : Int) : Date :=
  let shifted := days + 719468
  let era := shifted / 146097
  let dayOfEra := (shifted % 146097).toNat
  let yearOfEra :=
    (dayOfEra - dayOfEra / 1460 + dayOfEra / 36524 - dayOfEra / 146096) / 365
  let dayOfYear := dayOfEra - (365 * yearOfEra + yearOfEra / 4 - yearOfEra / 100)
  let shiftedMonth := (5 * dayOfYear + 2) / 153
  let day := dayOfYear - (153 * shiftedMonth + 2) / 5 + 1
  let month := if shiftedMonth < 10 then shiftedMonth + 3 else shiftedMonth - 9
  let year := yearOfEra + era * 400 + (if month ≤ 2 then 1 else 0)
  ⟨year, month, day⟩

namespace Instant

def padded (width n : Nat) : String :=
  let digits := Nat.toDigits 10 n
  String.ofList (List.replicate (width - digits.length) '0' ++ digits)

variable (t : Instant)

def clock : String :=
  let s := t.secondOfDay
  padded 2 (s / 3600) ++ ":" ++ padded 2 (s / 60 % 60) ++ ":" ++ padded 2 (s % 60)

def year : Int :=
  (Date.ofDays t.days).year

def isInCalendar : Bool :=
  let count := t.year - 1900
  count < Nat.pow 2 31 && -Nat.pow 2 31 ≤ count

def isWritable : Bool :=
  1 ≤ t.year && t.year ≤ 9999

def stamp : String :=
  let d := Date.ofDays t.days
  let fraction := if t.subsecond = 0 then "" else "." ++ padded 6 t.subsecond
  padded 4 d.year.toNat ++ "-" ++ padded 2 d.month ++ "-" ++ padded 2 d.day ++ "T" ++ t.clock ++ fraction
    ++ "+00:00"

def dated (v : Value) : Except ClockFault Instant := do
  let t ← ofValue v
  if !t.isInCalendar then throw .beyondCalendar
  if !t.isWritable then throw .undated
  return t

end Instant

end ContractFlow
