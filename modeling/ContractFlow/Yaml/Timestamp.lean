/-!
This module contains the dates and times that YAML documents tell without quotes.
-/

namespace ContractFlow

structure DayTime where
  hour : Nat
  minute : Nat
  second : Nat
  micros : Nat := 0
  offset : Option Int := none
deriving DecidableEq, Inhabited

structure Timestamp where
  year : Nat
  month : Nat
  day : Nat
  time : Option DayTime := none
deriving DecidableEq, Inhabited

namespace Timestamp

def takeNumber (least most : Nat) (cs : List Char) : Option (Nat × Nat × List Char) :=
  let digits := (cs.takeWhile Char.isDigit).take most
  if digits.length < least then none
  else some (digits.foldl (fun n c => n * 10 + (c.toNat - '0'.toNat)) 0, digits.length, cs.drop digits.length)

def takeMarked (mark : Char) (least most : Nat) : List Char → Option (Nat × Nat × List Char)
  | [] => none
  | c :: cs => if c == mark then takeNumber least most cs else none

def microsOf (digits : List Char) : Nat :=
  ((digits ++ List.replicate 6 '0').take 6).foldl (fun n c => n * 10 + (c.toNat - '0'.toNat)) 0

def isSpace (c : Char) : Bool :=
  c == ' ' || c == '\t'

def offset? (cs : List Char) : Option (Option Int) :=
  match cs.dropWhile isSpace with
  | [] => if cs.isEmpty then some none else none
  | ['Z'] => some (some 0)
  | sign :: rest => do
    if sign != '+' && sign != '-' then none
    let (hours, _, rest) ← takeNumber 1 2 rest
    let (minutes, _, rest) ← if rest.isEmpty then some (0, 0, []) else takeMarked ':' 2 2 rest
    if !rest.isEmpty then none
    let total : Int := hours * 60 + minutes
    return some (if sign == '-' then -total else total)

def dayTime? (cs : List Char) : Option DayTime := do
  let (hour, _, rest) ← takeNumber 1 2 cs
  let (minute, _, rest) ← takeMarked ':' 2 2 rest
  let (second, _, rest) ← takeMarked ':' 2 2 rest
  let (fraction, rest) := match rest with
    | '.' :: rest => (rest.takeWhile Char.isDigit, rest.dropWhile Char.isDigit)
    | rest => ([], rest)
  return ⟨hour, minute, second, microsOf fraction, ← offset? rest⟩

def afterGap? : List Char → Option (List Char)
  | [] => none
  | c :: cs =>
    if c == 'T' || c == 't' then some cs
    else if isSpace c then some (cs.dropWhile isSpace)
    else none

def read? (least : Nat) (cs : List Char) : Option Timestamp := do
  let (year, _, rest) ← takeNumber 4 4 cs
  let (month, monthSize, rest) ← takeMarked '-' 1 2 rest
  let (day, daySize, rest) ← takeMarked '-' 1 2 rest
  if rest.isEmpty then
    if least ≤ monthSize && least ≤ daySize then some ⟨year, month, day, none⟩ else none
  else
    return ⟨year, month, day, some (← dayTime? (← afterGap? rest))⟩

def ofText? (cs : List Char) : Option Timestamp :=
  read? 2 cs

def ofTagged? (cs : List Char) : Option Timestamp :=
  read? 1 (if cs.getLast? = some '\n' then cs.dropLast else cs)

def monthLength (year month : Nat) : Nat :=
  if month = 2 then if year % 4 = 0 && (year % 100 != 0 || year % 400 = 0) then 29 else 28
  else if [4, 6, 9, 11].contains month then 30 else 31

def isDayTime (t : DayTime) : Bool :=
  t.hour < 24 && t.minute < 60 && t.second < 60 && t.offset.all (·.natAbs < 1440)

def isValid (t : Timestamp) : Bool :=
  1 ≤ t.year && 1 ≤ t.month && t.month ≤ 12 && 1 ≤ t.day && t.day ≤ monthLength t.year t.month
    && t.time.all isDayTime

def padded (width n : Nat) : String :=
  let digits := Nat.toDigits 10 n
  String.ofList (List.replicate (width - digits.length) '0' ++ digits)

def offsetText (minutes : Int) : String :=
  (if minutes < 0 then "-" else "+") ++ padded 2 (minutes.natAbs / 60) ++ ":"
    ++ padded 2 (minutes.natAbs % 60)

def timeText (t : DayTime) : String :=
  padded 2 t.hour ++ ":" ++ padded 2 t.minute ++ ":" ++ padded 2 t.second
    ++ (if t.micros = 0 then "" else "." ++ padded 6 t.micros) ++ (t.offset.map offsetText).getD ""

def display (t : Timestamp) : String :=
  padded 4 t.year ++ "-" ++ padded 2 t.month ++ "-" ++ padded 2 t.day
    ++ (t.time.map fun time => " " ++ timeText time).getD ""

def quotedOffset (minutes : Int) : String :=
  let days := if minutes < 0 then ["days=-1"] else []
  let seconds := ["seconds=" ++ toString (minutes % 1440 * 60)]
  if minutes = 0 then "datetime.timezone.utc"
  else "datetime.timezone(datetime.timedelta(" ++ ", ".intercalate (days ++ seconds) ++ "))"

def timeParts (t : DayTime) : List Nat :=
  [t.hour, t.minute] ++ (if t.micros = 0 then if t.second = 0 then [] else [t.second]
    else [t.second, t.micros])

def quoted (t : Timestamp) : String :=
  let date := [t.year, t.month, t.day]
  let call (name : String) (parts : List Nat) (others : List String) : String :=
    name ++ "(" ++ ", ".intercalate (parts.map toString ++ others) ++ ")"
  match t.time with
  | none => call "datetime.date" date []
  | some time => call "datetime.datetime" (date ++ timeParts time)
      (time.offset.toList.map fun o => "tzinfo=" ++ quotedOffset o)

end Timestamp

end ContractFlow
