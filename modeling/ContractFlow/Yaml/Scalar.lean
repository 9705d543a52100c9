import ContractFlow.Data.Value
import ContractFlow.Text.Integer
import ContractFlow.Yaml.Node
import ContractFlow.Yaml.Timestamp

/-!
This module tells what a scalar without quotes stands for.
-/

namespace ContractFlow

inductive YamlScalar where
  | value (v : Value)
  | timestamp (t : Timestamp)
  | bytes (bs : List UInt8)
  | broken (us : List Text.TextUnit)
deriving Inhabited

namespace Yaml

def flags : List (String × Bool) :=
  [("yes", true), ("Yes", true), ("YES", true), ("no", false), ("No", false), ("NO", false),
   ("true", true), ("True", true), ("TRUE", true), ("false", false), ("False", false),
   ("FALSE", false), ("on", true), ("On", true), ("ON", true), ("off", false), ("Off", false),
   ("OFF", false)]

def digitValue (c : Char) : Nat :=
  if c.isDigit then c.toNat - '0'.toNat
  else c.toLower.toNat - 'a'.toNat + 10

def isDigitOf (base : Nat) (c : Char) : Bool :=
  (c.isDigit || ('a' ≤ c.toLower && c.toLower ≤ 'f')) && digitValue c < base

def digitsValue (base : Nat) (cs : List Char) : Nat :=
  cs.foldl (fun n c => n * base + digitValue c) 0

def areDigits (base : Nat) (cs : List Char) : Bool :=
  cs.all fun c => c == '_' || isDigitOf base c

def dropUnderscores (cs : List Char) : List Char :=
  cs.filter (· != '_')

def decimalNumber (cs : List Char) : Except YamlFault Nat :=
  let digits := dropUnderscores cs
  if digits.length ≤ Text.maxDigits then .ok (digitsValue 10 digits) else .error .badNumber

def markedNumber (base : Nat) (cs : List Char) : Except YamlFault Nat :=
  let digits := dropUnderscores cs
  if digits.isEmpty then .error .badNumber else .ok (digitsValue base digits)

def colonParts (cs : List Char) : List (List Char) :=
  cs.splitOn ':'

def isSixtieth : List Char → Bool
  | [c] => c.isDigit
  | [c, d] => '0' ≤ c && c ≤ '5' && d.isDigit
  | _ => false

def startsWithDigit (test : Char → Bool) : List Char → Bool
  | [] => false
  | c :: cs => test c && areDigits 10 (c :: cs)

def unsigned? : List Char → Option (Except YamlFault Nat)
  | ['0'] => some (.ok 0)
  | '0' :: 'b' :: c :: cs => if areDigits 2 (c :: cs) then some (markedNumber 2 (c :: cs)) else none
  | '0' :: 'x' :: c :: cs => if areDigits 16 (c :: cs) then some (markedNumber 16 (c :: cs)) else none
  | '0' :: cs => if areDigits 8 cs then some (.ok (digitsValue 8 (dropUnderscores cs))) else none
  | cs =>
    match colonParts cs with
    | whole :: rest =>
      if startsWithDigit Char.isDigit whole && rest.all isSixtieth then
        some ((decimalNumber whole).map fun n =>
          rest.foldl (fun n part => n * 60 + digitsValue 10 part) n)
      else none
    | [] => none

def takeSign : List Char → Bool × List Char
  | '-' :: cs => (true, cs)
  | '+' :: cs => (false, cs)
  | cs => (false, cs)

def int? (cs : List Char) : Option (Except YamlFault Int) :=
  let (negative, cs) := takeSign cs
  (unsigned? cs).map fun n => n.map (Double.withSign negative)

def exponent? : List Char → Option Int
  | [] => some 0
  | 'e' :: cs | 'E' :: cs =>
    match cs with
    | '+' :: ds => if !ds.isEmpty && ds.all (·.isDigit) then some (digitsValue 10 ds) else none
    | '-' :: ds => if !ds.isEmpty && ds.all (·.isDigit) then some (-(digitsValue 10 ds : Int)) else none
    | _ => none
  | _ => none

def pointNumber (negative : Bool) (whole fraction : List Char) (power : Int) : Double :=
  let places := dropUnderscores fraction
  .ofDecimal negative (digitsValue 10 (dropUnderscores whole ++ places)) (power - places.length)

/--
The sum of the parts of a number in parts of sixty, from the last part on. What the first part counts for must
not be too large, even if the part is zero.
-/
def sumOfParts (parts : List Double) : Except YamlFault Double :=
  let add (state : Double × Nat) (part : Double) : Double × Nat :=
    (state.1 + part * Double.ofInt state.2, state.2 * 60)
  if Double.ofInt (Nat.pow 60 (parts.length - 1)) = .infinite false then .error .numberTooLarge
  else .ok (parts.reverse.foldl add (Double.zero false, 1)).1

def sixtiethNumber (negative : Bool) (parts : List (List Char)) (fraction : List Char) :
    Except YamlFault Double :=
  let last := pointNumber false (parts.getLastD []) fraction 0
  let others := parts.dropLast.map fun part => pointNumber false part [] 0
  (sumOfParts (others ++ [last])).map fun sum => if negative then sum.neg else sum

def point? (text : List Char) : Option (Except YamlFault Double) :=
  let (negative, cs) := takeSign text
  let whole := cs.takeWhile (· != '.')
  match cs.dropWhile (· != '.') with
  | [] => none
  | _ :: rest =>
    let fraction := rest.takeWhile fun c => c.isDigit || c == '_'
    let behind := rest.drop fraction.length
    match colonParts whole with
    | [] => none
    | [[]] =>
      if cs == text && (fraction.headD '_').isDigit then
        (exponent? behind).map fun power => .ok (pointNumber false [] fraction power)
      else none
    | first :: others =>
      if !startsWithDigit Char.isDigit first then none
      else if others.isEmpty then
        (exponent? behind).map fun power => .ok (pointNumber negative first fraction power)
      else if others.all isSixtieth && behind.isEmpty then
        some (sixtiethNumber negative (first :: others) fraction)
      else none

def infinities : List (String × Double) :=
  [(".inf", .infinite false), (".Inf", .infinite false), (".INF", .infinite false),
   ("+.inf", .infinite false), ("+.Inf", .infinite false), ("+.INF", .infinite false),
   ("-.inf", .infinite true), ("-.Inf", .infinite true), ("-.INF", .infinite true),
   (".nan", .nan), (".NaN", .nan), (".NAN", .nan)]

def float? (s : String) : Option (Except YamlFault Double) :=
  (infinities.lookup s).map .ok <|> point? s.toList

def resolve (s : String) : Except YamlFault YamlScalar :=
  if ["", "~", "null", "Null", "NULL"].contains s then .ok (.value .null)
  else
    match flags.lookup s, float? s, int? s.toList, Timestamp.ofText? s.toList with
    | some b, _, _, _ => .ok (.value (.bool b))
    | none, some x, _, _ => x.map fun x => .value (.float x)
    | none, none, some n, _ => n.map fun n => .value (.int n)
    | none, none, none, some t => if t.isValid then .ok (.timestamp t) else .error .badDate
    | none, none, none, none => .ok (.value (.text s))

end Yaml

end ContractFlow
