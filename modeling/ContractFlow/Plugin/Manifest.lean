import ContractFlow.Data.Form
import ContractFlow.Plugin.Files
import ContractFlow.Yaml.Reader

/-!
This module contains the manifests that plugins are described by.
-/

namespace ContractFlow

structure Manifest where
  name : String := ""
  version : String := "0.0.0"
  description : String := ""
  author : String := ""
  providesPolicies : Bool := true
  options : Thunk Fields := .pure []
  place : Option FilePlace := none
deriving Inhabited

inductive ManifestFault where
  | fileMissing
  | fileIsDirectory
  | nowhere (fault : PlaceFault)
  | notYaml (fault : YamlFault)
  | notAMap
  | numberTooLong
  | invalid (complaints : List Complaint)
deriving Inhabited

namespace Manifest

def modulePrefix (name : String) : String :=
  "solflow_plugin_" ++ String.ofList (name.toList.map fun c => if c == '-' || c == ' ' then '_' else c)

open Form in
def items : List (Item Manifest) :=
  [{ Item.of "name" readText (fun m x => { m with name := x }) with isRequired := true },
   .of "version" readText fun m x => { m with version := x },
   .of "description" readText fun m x => { m with description := x },
   .of "author" readText fun m x => { m with author := x },
   .of "provides_configurations" readFlag fun m x => { m with providesPolicies := x },
   .of "options" readFields fun m x => { m with options := .pure x }]

def checkPlace (v : Option Value) (state : Manifest × List Complaint) : Manifest × List Complaint :=
  match v with
  | none | some .null => state
  | some (.text s) => ({ state.1 with place := some ["..", s] }, state.2)
  | some _ => (state.1, state.2 ++ [Form.complaint "path" .placeExpected])

def ofFields (fields : Fields) : Except (List Complaint) Manifest :=
  let given := Fields.get? fields
  Form.check (checkPlace (given "path") (Form.fill items given {}))

def keyStep : YamlScalar → Value
  | .value (.int n) => if Form.isShort n then .int n else .text (toString n)
  | .value (.bool b) => .int (if b then 1 else 0)
  | k => .text k.quoted

def keyComplaint? (k : YamlScalar) : Option Complaint :=
  let complaint (reason : Refusal) : Complaint := ⟨[.text "options", keyStep k, .text "[key]"], reason⟩
  match k with
  | .value (.text _) | .broken _ => none
  | .bytes _ => if k.isUnreadable then some (complaint .textUnreadable) else none
  | _ => some (complaint .textExpected)

def keyComplaints : YamlContent → List Complaint
  | .map entries => entries.filterMap fun (k, _) => keyComplaint? k
  | _ => []

/--
Why a scalar is refused, given why its value would be. Bytes that are no text count like other texts, and no
flag is looked for in a text with halves of characters.
-/
def refusalOf (s : YamlScalar) (reason : Refusal) : Refusal :=
  match s, s.isUnreadable, reason with
  | .broken _, _, .flagUnreadable => .textUnreadable
  | _, true, .textExpected => .textUnreadable
  | _, true, .flagExpected => .flagUnreadable
  | _, _, reason => reason

def refine (y : Yaml) (c : Complaint) : Complaint :=
  match c.path with
  | [.text name] =>
    match (y.field? name).map y.content with
    | some (.scalar s) => { c with reason := refusalOf s c.reason }
    | _ => c
  | _ => c

def withText (y : Yaml) (name : String) : Except ManifestFault Yaml :=
  match y.field? name with
  | none => .ok y
  | some r =>
    match y.display? r with
    | some text => .ok (y.setField name text)
    | none => .error .numberTooLong

/--
The manifest in a document that was found in a directory. Name and version may be anything and count as
texts from then on, also where the document is inside of itself.
-/
def ofDocument (place : FilePlace) (y : Yaml) : Except ManifestFault Manifest := do
  let y := if (y.field? "name").isSome then y else y.setField "name" (FilePlace.name place)
  let y ← withText (← withText y "name") "version"
  let options := (y.field? "options").filter y.holds
  let given (key : String) : Option Value :=
    match key with
    | "options" => (options.map y.outerValue).getD (.object [])
    | key => (y.field? key).map y.outerValue
  let (m, complaints) := Form.fill items given { place := some place }
  let others := (options.map fun r => keyComplaints (y.content r)).getD []
  match Form.check (m, complaints.map (refine y) ++ others) with
  | .error complaints => .error (.invalid complaints)
  | .ok m =>
    match options with
    | none => .ok m
    | some r => .ok { m with options := .mk fun _ => (y.toValue r).fields?.getD [] }

def ofFile (t : FileTree) (file : FilePlace) : Except ManifestFault Manifest :=
  match t.locate file with
  | .error fault => .error (.nowhere fault)
  | .ok place =>
    match t.listed? place with
    | some (.file text _) =>
      match Yaml.read text with
      | .error fault => .error (.notYaml fault)
      | .ok y => if y.entries?.isSome then ofDocument file.dropLast y else .error .notAMap
    | _ => .error (if t.hasDirectory place then .fileIsDirectory else .fileMissing)

def fileIn? (t : FileTree) (place : FilePlace) : Option FilePlace :=
  ["plugin.yaml", "plugin.yml"].map (fun name => place ++ [name]) |>.find? t.isFile

end Manifest

end ContractFlow
