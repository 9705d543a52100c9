/-!
This module contains the parts of YAML documents as they are written, in whose texts halves of characters may stand
alone.
-/

namespace ContractFlow.Text

inductive TextUnit where
  | char (c : Char)
  | half (n : Nat)
deriving DecidableEq, Inhabited

namespace TextUnit

def ofNat (n : Nat) : TextUnit :=
  if 0xD800 ≤ n && n ≤ 0xDFFF then half n else char (Char.ofNat n)

def char? : TextUnit → Option Char
  | char c => some c
  | half _ => none

def readable : TextUnit → Char
  | char c => c
  | half _ => '�'

end TextUnit

def units (cs : List Char) : List TextUnit :=
  cs.map .char

def whole? (us : List TextUnit) : Option String :=
  (us.mapM TextUnit.char?).map String.ofList

def readable (us : List TextUnit) : String :=
  String.ofList (us.map TextUnit.readable)

end ContractFlow.Text

namespace ContractFlow

inductive YamlFault where
  | malformed
  | badNumber
  | emptyNumber
  | unknownFlag
  | notADate
  | badDate
  | badCharacter
  | characterTooLarge
  | numberTooLarge
deriving DecidableEq, Inhabited

/--
Whether a document is not just left out of many because of its fault: a scalar is not of the kind that it is
said to be, or too large a number comes up.
-/
def YamlFault.isSevere : YamlFault → Bool
  | emptyNumber | unknownFlag | notADate | characterTooLarge | numberTooLarge => true
  | malformed | badNumber | badDate | badCharacter => false

inductive YamlKind where
  | plain
  | text
  | null
  | int
  | float
  | flag
  | bytes
  | timestamp
  | list
  | map
  | set
  | pairs
  | merge
  | value
  | unknown
deriving DecidableEq, Inhabited

namespace YamlKind

def usualStart : String := "tag:yaml.org,2002:"

def usual : List (String × YamlKind) :=
  [("str", text), ("null", null), ("int", int), ("float", float), ("bool", flag), ("binary", bytes),
   ("timestamp", timestamp), ("seq", list), ("map", map), ("set", set), ("omap", pairs),
   ("pairs", pairs), ("merge", merge), ("value", value)]

def ofName (name : String) : YamlKind :=
  if name.startsWith usualStart then
    (usual.lookup (name.drop usualStart.length).toString).getD unknown
  else unknown

def ofPlain (us : List Text.TextUnit) : YamlKind :=
  match us with
  | [.char '<', .char '<'] => merge
  | [.char '='] => value
  | _ => plain

end YamlKind

abbrev YamlRef := Nat

inductive YamlNode where
  | scalar (kind : YamlKind) (text : List Text.TextUnit)
  | list (kind : YamlKind) (items : List YamlRef)
  | map (kind : YamlKind) (entries : List (YamlRef × YamlRef))
deriving Inhabited

namespace YamlNode

def empty : YamlNode := .scalar .plain []

def kind : YamlNode → YamlKind
  | scalar k _ | list k _ | map k _ => k

def withKind (k : YamlKind) : YamlNode → YamlNode
  | scalar _ s => scalar k s
  | list _ items => list k items
  | map _ entries => map k entries

def entries? : YamlNode → Option (List (YamlRef × YamlRef))
  | map _ entries => some entries
  | _ => none

end YamlNode

/--
A document: its nodes, and the one that holds the others. A node with a name can stand in several places,
even inside of itself.
-/
structure YamlDocument where
  nodes : Array YamlNode
  root : YamlRef
deriving Inhabited

end ContractFlow
