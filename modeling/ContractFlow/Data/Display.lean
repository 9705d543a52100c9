import ContractFlow.Data.Shortest
import ContractFlow.Data.Value
import ContractFlow.Text.Invisible

/-!
This module shows values in messages: a text is shown as it is, and inside of a list or an object in
quotes.
-/

namespace ContractFlow.Value

def hexDigits (width n : Nat) : String :=
  let digits := Nat.toDigits 16 n
  String.ofList (List.replicate (width - digits.length) '0' ++ digits)

def quotedChar (quote c : Char) : String :=
  if c == quote || c == '\\' then "\\" ++ c.toString
  else if c == '\n' then "\\n"
  else if c == '\r' then "\\r"
  else if c == '\t' then "\\t"
  else if !Text.isInvisible c then c.toString
  else if c.toNat < 0x100 then "\\x" ++ hexDigits 2 c.toNat
  else if c.toNat < 0x10000 then "\\u" ++ hexDigits 4 c.toNat
  else "\\U" ++ hexDigits 8 c.toNat

def quotedText (s : String) : String :=
  let quote := if s.contains '\'' && !s.contains '"' then '"' else '\''
  quote.toString ++ String.join (s.toList.map (quotedChar quote)) ++ quote.toString

mutual

def quoted : Value → String
  | .null => "None"
  | .bool true => "True"
  | .bool false => "False"
  | .int n => toString n
  | .float x => x.text
  | .text s => quotedText s
  | .list [] => "[]"
  | .list (v :: vs) => "[" ++ quoted v ++ quotedItems vs ++ "]"
  | .object [] => "\x7b\x7d"
  | .object ((k, v) :: fs) => "\x7b" ++ quotedText k ++ ": " ++ quoted v ++ quotedFields fs ++ "\x7d"

def quotedItems : List Value → String
  | [] => ""
  | v :: vs => ", " ++ quoted v ++ quotedItems vs

def quotedFields : List (String × Value) → String
  | [] => ""
  | (k, v) :: fs => ", " ++ quotedText k ++ ": " ++ quoted v ++ quotedFields fs

end

def display : Value → String
  | .text s => s
  | v => v.quoted

end ContractFlow.Value
