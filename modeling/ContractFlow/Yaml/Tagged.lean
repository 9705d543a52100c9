import ContractFlow.Yaml.Scalar

/-! This module tells what a scalar stands for whose kind is told. -/

namespace ContractFlow.Text

def takeDigits : List Char → List Nat × List Char
  | [] => ([], [])
  | c :: cs =>
    match digit? c with
    | none => ([], c :: cs)
    | some d =>
      let (ds, rest) := takeDigits cs
      (d :: ds, rest)

def ofDigits (ds : List Nat) : Nat :=
  ds.foldl (fun n d => n * 10 + d) 0

def splitSign : List Char → Bool × List Char
  | '-' :: cs => (true, cs)
  | '+' :: cs => (false, cs)
  | cs => (false, cs)

def power? : List Char → Option Int
  | [] => some 0
  | c :: cs =>
    if c != 'e' && c != 'E' then none
    else
      let (negative, cs) := splitSign cs
      match takeDigits cs with
      | ([], _) | (_, _ :: _) => none
      | (ds, []) => some (Double.withSign negative (ofDigits ds))

def unsignedDecimal? (negative : Bool) (cs : List Char) : Option Double :=
  let word := String.ofList (cs.map Char.toLower)
  if word == "inf" || word == "infinity" then some (.infinite negative)
  else if word == "nan" then some .nan
  else
    let (whole, rest) := takeDigits cs
    let (fraction, rest) := match rest with
      | '.' :: rest => takeDigits rest
      | rest => ([], rest)
    if whole.isEmpty && fraction.isEmpty then none
    else (power? rest).map fun e =>
      .ofDecimal negative (ofDigits (whole ++ fraction)) (e - fraction.length)

def decimal? (cs : List Char) : Option Double :=
  let (negative, cs) := splitSign (dropMargins isMargin cs)
  unsignedDecimal? negative cs

def sixBits? (c : Char) : Option Nat :=
  if 'A' ≤ c && c ≤ 'Z' then some (c.toNat - 'A'.toNat)
  else if 'a' ≤ c && c ≤ 'z' then some (c.toNat - 'a'.toNat + 26)
  else if c.isDigit then some (c.toNat - '0'.toNat + 52)
  else if c == '+' then some 62
  else if c == '/' then some 63
  else none

/--
The bytes behind those in `found`, of which the last comes first. `place` characters of a group of four have
been read, `rest` has those of their bits that are in no byte yet, and `marks` counts the last equals signs.
-/
def decodeFrom (place rest marks : Nat) (found : List UInt8) : List Char → Option (List UInt8)
  | [] => if place = 0 then some found.reverse else none
  | c :: cs =>
    if c == '=' then
      if place < 2 then decodeFrom place rest marks found cs
      else if 4 ≤ place + marks + 1 then some found.reverse
      else decodeFrom place rest (marks + 1) found cs
    else
      match sixBits? c with
      | none => decodeFrom place rest marks found cs
      | some bits =>
        match place with
        | 0 => decodeFrom 1 bits 0 found cs
        | 1 => decodeFrom 2 (bits % 16) 0 (UInt8.ofNat (rest * 4 + bits / 16) :: found) cs
        | 2 => decodeFrom 3 (bits % 4) 0 (UInt8.ofNat (rest * 16 + bits / 4) :: found) cs
        | _ => decodeFrom 0 0 0 (UInt8.ofNat (rest * 64 + bits) :: found) cs

def base64? (s : String) : Option (List UInt8) :=
  decodeFrom 0 0 0 [] s.toList

end ContractFlow.Text

namespace ContractFlow.Yaml

def anyDigit? (base : Nat) (c : Char) : Option Nat :=
  (Text.digit? c <|> (if isDigitOf 16 c then some (digitValue c) else none)).filter (· < base)

def digitsOf? (base : Nat) (cs : List Char) : Option Nat :=
  if cs.isEmpty then none
  else (cs.mapM (anyDigit? base)).map fun ds => ds.foldl (fun n d => n * base + d) 0

def dropBaseMark (mark : Char) : List Char → List Char
  | '0' :: c :: cs => if c.toLower == mark then cs else '0' :: c :: cs
  | cs => cs

def inBase (base : Nat) (mark : Char) (cs : List Char) : Except YamlFault Int :=
  let (negative, cs) := Text.splitSign (Text.dropMargins Text.isMargin cs)
  match digitsOf? base (dropBaseMark mark cs) with
  | some n => .ok (Double.withSign negative n)
  | none => .error .badNumber

def inTens (cs : List Char) : Except YamlFault Int :=
  match Text.integer? (String.ofList cs) with
  | some n => .ok n
  | none => .error .badNumber

def unsignedTagged (cs : List Char) : Except YamlFault Int :=
  match cs with
  | [] => .error .emptyNumber
  | ['0'] => .ok 0
  | '0' :: 'b' :: cs => inBase 2 'b' cs
  | '0' :: 'x' :: cs => inBase 16 'x' cs
  | '0' :: cs => inBase 8 'o' ('0' :: cs)
  | cs => do
    let parts ← (colonParts cs).mapM inTens
    return parts.foldl (fun n part => n * 60 + part) 0

def taggedInt (s : String) : Except YamlFault Int :=
  let cs := dropUnderscores s.toList
  if cs.isEmpty then .error .emptyNumber
  else
    let (negative, cs) := Text.splitSign cs
    (unsignedTagged cs).map fun n => if negative then -n else n

def unsignedFloat (cs : List Char) : Except YamlFault Double :=
  match String.ofList cs with
  | ".inf" => .ok (.infinite false)
  | ".nan" => .ok .nan
  | _ =>
    match (colonParts cs).mapM Text.decimal? with
    | none => .error .badNumber
    | some [x] => .ok x
    | some parts => sumOfParts parts

def taggedFloat (s : String) : Except YamlFault Double :=
  let cs := (dropUnderscores s.toList).map Char.toLower
  if cs.isEmpty then .error .emptyNumber
  else
    let (negative, cs) := Text.splitSign cs
    (unsignedFloat cs).map fun x => if negative then x.neg else x

def textScalar (kind : YamlKind) (s : String) : Except YamlFault YamlScalar :=
  match kind with
  | .plain => resolve s
  | .text => .ok (.value (.text s))
  | .null => .ok (.value .null)
  | .int => (taggedInt s).map fun n => .value (.int n)
  | .float => (taggedFloat s).map fun x => .value (.float x)
  | .flag =>
    match flags.lookup (String.ofList (s.toList.map Char.toLower)) with
    | some b => .ok (.value (.bool b))
    | none => .error .unknownFlag
  | .bytes =>
    match if s.toList.all (·.toNat < 128) then Text.base64? s else none with
    | some bs => .ok (.bytes bs)
    | none => .error .malformed
  | .timestamp =>
    match Timestamp.ofTagged? s.toList with
    | some t => if t.isValid then .ok (.timestamp t) else .error .badDate
    | none => .error .notADate
  | _ => .error .malformed

def scalarOf (kind : YamlKind) (us : List Text.TextUnit) : Except YamlFault YamlScalar :=
  match kind, Text.whole? us with
  | kind, some s => textScalar kind s
  | .plain, none | .text, none => .ok (.broken us)
  | kind, none => textScalar kind (Text.readable us)

end ContractFlow.Yaml
