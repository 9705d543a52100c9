import ContractFlow.Data.Shortest
import ContractFlow.Data.Value

/-!
This module writes values as JSON text.
-/

namespace ContractFlow.Json

structure Style where
  itemGap : String
  fieldGap : String
  asciiOnly : Bool

def Style.compact : Style := ⟨",", ":", false⟩

def Style.spaced : Style := ⟨", ", ": ", true⟩

def escapeUnit (unit : Nat) : String :=
  let digits := Nat.toDigits 16 unit
  "\\u" ++ String.ofList (List.replicate (4 - digits.length) '0' ++ digits)

def escapeChar (style : Style) (c : Char) : String :=
  if c == '"' then "\\\""
  else if c == '\\' then "\\\\"
  else if c == '\n' then "\\n"
  else if c == '\r' then "\\r"
  else if c == '\t' then "\\t"
  else if c == '\x08' then "\\b"
  else if c == '\x0c' then "\\f"
  else if c.toNat < 0x20 then escapeUnit c.toNat
  else if style.asciiOnly && 0x7F ≤ c.toNat then
    if c.toNat < 0x10000 then escapeUnit c.toNat
    else
      let n := c.toNat - 0x10000
      escapeUnit (0xD800 + n / 0x400) ++ escapeUnit (0xDC00 + n % 0x400)
  else c.toString

def writeText (style : Style) (out : String) (s : String) : String :=
  s.foldl (fun out c => out ++ escapeChar style c) (out.push '"') |>.push '"'

def numberText : Double → String
  | .nan => "NaN"
  | .infinite negative => if negative then "-Infinity" else "Infinity"
  | x => x.text

mutual

def write (style : Style) (out : String) : Value → String
  | .null => out ++ "null"
  | .bool true => out ++ "true"
  | .bool false => out ++ "false"
  | .int n => out ++ toString n
  | .float x => out ++ numberText x
  | .text s => writeText style out s
  | .list [] => out ++ "[]"
  | .list (v :: vs) => (writeItems style (write style (out.push '[') v) vs).push ']'
  | .object [] => out ++ "\x7b\x7d"
  | .object ((k, v) :: fs) =>
    let out := writeText style (out.push '{') k ++ style.fieldGap
    (writeFields style (write style out v) fs).push '}'

def writeItems (style : Style) (out : String) : List Value → String
  | [] => out
  | v :: vs => writeItems style (write style (out ++ style.itemGap) v) vs

def writeFields (style : Style) (out : String) : List (String × Value) → String
  | [] => out
  | (k, v) :: fs =>
    let out := writeText style (out ++ style.itemGap) k ++ style.fieldGap
    writeFields style (write style out v) fs

end

def render (style : Style) (v : Value) : String :=
  write style "" v

end ContractFlow.Json
