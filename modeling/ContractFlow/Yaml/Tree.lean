import ContractFlow.Data.Display
import ContractFlow.Yaml.Scalar

/-! This module contains the contents of YAML documents, which may be inside of themselves, and how they are shown. -/

namespace ContractFlow

namespace YamlScalar

def same : YamlScalar → YamlScalar → Bool
  | .value v, .value w => v == w
  | .timestamp t, .timestamp u => t == u
  | .bytes b, .bytes c => b == c
  | .broken us, .broken vs => us == vs
  | _, _ => false

def quotedByte (quote : Char) (b : UInt8) : String :=
  let c := Char.ofNat b.toNat
  if c == quote || c == '\\' then "\\" ++ c.toString
  else if c == '\t' then "\\t"
  else if c == '\n' then "\\n"
  else if c == '\r' then "\\r"
  else if b < 0x20 || 0x7F ≤ b then
    "\\x" ++ String.ofList [Nat.digitChar (b.toNat / 16), Nat.digitChar (b.toNat % 16)]
  else c.toString

def quotedBytes (bs : List UInt8) : String :=
  let has (c : Char) : Bool := bs.contains c.toUInt8
  let quote := if has '\'' && !has '"' then '"' else '\''
  "b" ++ quote.toString ++ String.join (bs.map (quotedByte quote)) ++ quote.toString

def quotedUnit (quote : Char) : Text.TextUnit → String
  | .char c => Value.quotedChar quote c
  | .half n => "\\u" ++ Value.hexDigits 4 n

def quotedUnits (us : List Text.TextUnit) : String :=
  let has (c : Char) : Bool := us.contains (.char c)
  let quote := if has '\'' && !has '"' then '"' else '\''
  quote.toString ++ String.join (us.map (quotedUnit quote)) ++ quote.toString

def quoted : YamlScalar → String
  | .value v => v.quoted
  | .timestamp t => t.quoted
  | .bytes bs => quotedBytes bs
  | .broken us => quotedUnits us

def display : YamlScalar → String
  | .value v => v.display
  | .timestamp t => t.display
  | .bytes bs => quotedBytes bs
  | .broken us => Text.readable us

def isShowable : YamlScalar → Bool
  | .value (.int n) => n.natAbs < Nat.pow 10 Text.maxDigits
  | _ => true

def quoted? (s : YamlScalar) : Option String :=
  if s.isShowable then some s.quoted else none

def textOf? (bs : List UInt8) : Option String :=
  String.fromUTF8? ⟨bs.toArray⟩

def isUnreadable : YamlScalar → Bool
  | .bytes bs => (textOf? bs).isNone
  | _ => false

def toValue : YamlScalar → Value
  | .value v => v
  | .timestamp t => .list [.int t.year, .int t.month, .int t.day]
  | .bytes bs => ((textOf? bs).map Value.text).getD (.list (bs.map fun b => .int b.toNat))
  | .broken us => .text (Text.readable us)

def keyText : YamlScalar → String
  | .value (.bool b) => if b then "true" else "false"
  | .value .null => "null"
  | .bytes bs => (textOf? bs).getD (quotedBytes bs)
  | s => s.display

end YamlScalar

inductive YamlContent where
  | scalar (s : YamlScalar)
  | list (items : List YamlRef)
  | map (entries : List (YamlScalar × YamlRef))
  | set (members : List YamlScalar)
  | pairs (entries : List (YamlRef × YamlRef))
deriving Inhabited

structure Yaml where
  contents : Array YamlContent
  root : YamlRef
deriving Inhabited

namespace Yaml

def setEntry (entries : List (YamlScalar × α)) (key : YamlScalar) (x : α) : List (YamlScalar × α) :=
  match entries with
  | [] => [(key, x)]
  | (k, y) :: rest => if k.same key then (k, x) :: rest else (k, y) :: setEntry rest key x

def enclosed (first : String) (texts : List String) (last : String) : String :=
  first ++ ", ".intercalate texts ++ last

variable (y : Yaml)

def content (r : YamlRef) : YamlContent :=
  y.contents.getD r default

/--
The contents at a place as they are shown inside of others, on a way into the contents at the places in
`inside`. There is nothing to show if a number in them has too many digits.
-/
def quotedIn (fuel : Nat) (inside : List YamlRef) (r : YamlRef) : Option String :=
  match fuel with
  | 0 => none
  | fuel + 1 =>
    let inner := quotedIn fuel (r :: inside)
    match y.content r with
    | .scalar s => s.quoted?
    | .list items =>
      if inside.contains r then some "[...]"
      else do return enclosed "[" (← items.mapM inner) "]"
    | .map entries =>
      if inside.contains r then some "\x7b...\x7d"
      else do
        let texts ← entries.mapM fun (k, x) => return (← k.quoted?) ++ ": " ++ (← inner x)
        return enclosed "\x7b" texts "\x7d"
    | .set [] => some "set()"
    | .set members => do return enclosed "\x7b" (← members.mapM (·.quoted?)) "\x7d"
    | .pairs entries =>
      if inside.contains r then some "[...]"
      else do
        let texts ← entries.mapM fun (k, x) => return enclosed "(" [← inner k, ← inner x] ")"
        return enclosed "[" texts "]"

def display? (r : YamlRef) : Option String :=
  match y.content r with
  | .scalar s => if s.isShowable then some s.display else none
  | _ => y.quotedIn (y.contents.size + 1) [] r

def valueIn (fuel : Nat) (inside : List YamlRef) (r : YamlRef) : Value :=
  match fuel with
  | 0 => .null
  | fuel + 1 =>
    let inner := valueIn fuel (r :: inside)
    if inside.contains r then .null
    else
      match y.content r with
      | .scalar s => s.toValue
      | .list items => .list (items.map inner)
      | .map entries => .object (entries.map fun (k, x) => (k.keyText, inner x))
      | .set members => .list (members.map (·.toValue))
      | .pairs entries => .list (entries.map fun (k, x) => .list [inner k, inner x])

def toValue (r : YamlRef) : Value :=
  y.valueIn (y.contents.size + 1) [] r

def outerValue (r : YamlRef) : Value :=
  match y.content r with
  | .scalar s => s.toValue
  | .map _ => .object []
  | _ => .list []

def holds (r : YamlRef) : Bool :=
  match y.content r with
  | .scalar s => s.toValue.holds
  | .list items => !items.isEmpty
  | .map entries => !entries.isEmpty
  | .set members => !members.isEmpty
  | .pairs entries => !entries.isEmpty

def entries? : Option (List (YamlScalar × YamlRef)) :=
  match y.content y.root with
  | .map entries => some entries
  | _ => none

def field? (name : String) : Option YamlRef :=
  (y.entries?.getD []).findSome? fun (k, r) =>
    match k with
    | .value (.text s) => if s = name then some r else none
    | _ => none

def setField (name text : String) : Yaml :=
  let entries := setEntry (y.entries?.getD []) (.value (.text name)) y.contents.size
  { y with contents :=
      (y.contents.push (.scalar (.value (.text text)))).setIfInBounds y.root (.map entries) }

end Yaml

end ContractFlow
