import ContractFlow.Data.Group
import ContractFlow.Data.Value

/-!
This module contains the files that plugins are loaded from.
-/

namespace ContractFlow

abbrev FilePlace := List String

inductive ModuleItem where
  | policy (typeName base : String) (name category : Option Value) (isAbstract : Bool)
  | plain (typeName : String)
  | alias (name target : String)
  | failure (message : String)
deriving Inhabited

inductive FileContent where
  | directory
  | file (text : String) (items : List ModuleItem)
deriving Inhabited

structure FileTree where
  entries : List (FilePlace × FileContent)
deriving Inhabited

inductive PlaceFault where
  | missing
  | notADirectory
  | nameTooLong
  | badName
deriving DecidableEq, Inhabited

def maxNameBytes : Nat := 255

namespace FileTree

variable (t : FileTree)

def listed? (p : FilePlace) : Option FileContent :=
  t.entries.reverse.lookup p

def hasDirectory (p : FilePlace) : Bool :=
  p.isEmpty || (t.entries.any fun (q, _) => p.length < q.length && q.take p.length == p) ||
    match t.listed? p with
    | some .directory => true
    | _ => false

def follow (p : FilePlace) (name : String) : Except PlaceFault FilePlace :=
  if !t.hasDirectory p then .error (if (t.listed? p).isSome then .notADirectory else .missing)
  else if maxNameBytes < name.utf8ByteSize then .error .nameTooLong
  else if name != ".." then .ok (p ++ [name])
  else if p.isEmpty then .error .missing
  else .ok p.dropLast

def locate (p : FilePlace) : Except PlaceFault FilePlace :=
  if p.any fun name => name.contains '\x00' then .error .badName else p.foldlM t.follow []

def isTooLong (p : FilePlace) : Bool :=
  match t.locate p with
  | .error .nameTooLong => true
  | _ => false

def target? (p : FilePlace) : Option FilePlace :=
  (t.locate p).toOption

def find? (p : FilePlace) : Option FileContent :=
  (t.target? p).bind t.listed?

def isFile (p : FilePlace) : Bool :=
  match t.find? p with
  | some (.file ..) => true
  | _ => false

def isDirectory (p : FilePlace) : Bool :=
  (t.target? p).any t.hasDirectory

def sortPlaces (ps : List FilePlace) : List FilePlace :=
  (distinct ps).mergeSort fun p q => !decide (q < p)

def namesBelow (p : FilePlace) : List FilePlace :=
  let inside := t.entries.filterMap fun (q, _) =>
    if p.length < q.length && q.take p.length == p then some (q.drop p.length) else none
  inside.flatMap fun q => (List.range q.length).map fun i => q.take (i + 1)

def below (p : FilePlace) : List FilePlace :=
  (sortPlaces (((t.target? p).map t.namesBelow).getD [])).map (p ++ ·)

def children (p : FilePlace) : List FilePlace :=
  (t.below p).filter fun q => q.length = p.length + 1

def subdirectories (p : FilePlace) : List FilePlace :=
  (t.children p).filter t.isDirectory

end FileTree

def FilePlace.resolve (p : FilePlace) (path : String) : FilePlace :=
  let parts := (path.splitOn "/").filter fun part => part != "" && part != "."
  if path.startsWith "/" then "/" :: parts else p ++ parts

def FilePlace.name (p : FilePlace) : String :=
  p.getLastD ""

def FilePlace.isModule (p : FilePlace) : Bool :=
  FilePlace.name p |>.endsWith ".py"

def FilePlace.stem (p : FilePlace) : String :=
  let name := FilePlace.name p
  if name == ".py" then name else (name.dropEnd 3).toString

end ContractFlow
