import ContractFlow.Data.Word
import ContractFlow.Text.Character

/-!
This module compares types by their text.
-/

namespace ContractFlow.TypeText

def remove (part : List Char) (cs : List Char) : List Char :=
  match cs with
  | [] => []
  | c :: rest =>
    if part.isPrefixOf (c :: rest) && !part.isEmpty then remove part (rest.drop (part.length - 1))
    else c :: remove part rest
termination_by cs.length
decreasing_by all_goals simp; try omega

def behind? (start s : String) : Option String :=
  if s.startsWith start then some (String.ofList (s.toList.drop start.length)) else none

def contractName (type : String) : String :=
  match ["contract ", "interface ", "library "].findSome? fun word => behind? word type with
  | some rest => (rest.splitOn " ").headD ""
  | none => ""

def normalize (type : String) : String :=
  let places := [" storage ref", " storage pointer", " memory", " calldata", " payable", " pointer"]
  let bare := String.ofList (places.foldl (fun cs word => remove word.toList cs) type.toList)
  let words := ["contract ", "interface ", "struct ", "enum "]
  Text.trim (words.foldl (fun s word => (behind? word s).getD s) bare)

def fits (argument parameter : String) : Bool :=
  if argument == parameter then true
  else if argument.startsWith "int_const" || argument.startsWith "rational_const" then
    parameter.startsWith "uint" || parameter.startsWith "int"
  else if argument.startsWith "literal_string" then
    parameter == "string" || parameter.startsWith "bytes"
  else parameter.endsWith ((argument.splitOn ".").getLastD "")

/--
Whether an argument can be passed to a parameter, as far as the texts of the types tell. What has no type
can be passed to everything.
-/
def isAccepted (argument parameter : Value) : Except Fault Bool := do
  if !argument.holds || !parameter.holds then return true
  let argument ← argument.asText
  let parameter ← parameter.asText
  return fits (normalize argument) (normalize parameter)

end ContractFlow.TypeText
