import ContractFlow.Data.Form

/-!
This module contains the settings of the analysis, and how they are read from named values and from the
environment.
-/

namespace ContractFlow

inductive Aliasing where
  | container
  | literalIndex
deriving DecidableEq, Inhabited

def Aliasing.name : Aliasing → String
  | container => "container"
  | literalIndex => "literal-index"

structure Settings where
  appName : String := "SolFlow Engine"
  appEnv : String := "development"
  logLevel : String := "INFO"
  maxCallDepth : Int := 20
  maxPathLength : Int := 500
  maxPathsPerQuery : Int := 100
  aliasing : Aliasing := .container
  spliceModifiers : Bool := true
  virtualDispatch : Bool := true
  pluginsDir : String := "/etc/solflow/plugins"
deriving DecidableEq, Inhabited

namespace Settings

open Form

def environments : List (String × String) :=
  [("development", "development"), ("staging", "staging"), ("production", "production")]

def aliasings : List (String × Aliasing) :=
  [("container", .container), ("literal-index", .literalIndex)]

def items : List (Item Settings) :=
  [.of "app_name" readText fun s x => { s with appName := x },
   .of "app_env" (readChoice environments) fun s x => { s with appEnv := x },
   .of "log_level" readText fun s x => { s with logLevel := x },
   .of "max_call_depth" readBound fun s x => { s with maxCallDepth := x },
   .of "max_path_length" readBound fun s x => { s with maxPathLength := x },
   .of "max_paths_per_query" readBound fun s x => { s with maxPathsPerQuery := x },
   .of "storage_aliasing" (readChoice aliasings) fun s x => { s with aliasing := x },
   .of "splice_modifiers" readFlag fun s x => { s with spliceModifiers := x },
   .of "resolve_virtual_dispatch" readFlag fun s x => { s with virtualDispatch := x },
   .of "plugins_dir" readText fun s x => { s with pluginsDir := x }]

def lower (s : String) : String :=
  String.ofList (s.toList.map Char.toLower)

def variableNamed? (env : List (String × String)) (name : String) : Option String :=
  (env.reverse.find? fun e => lower e.1 == "solflow_" ++ name).map (·.2)

def valueNamed? (named : Fields) (name : String) : Option Value :=
  (named.find? fun f => lower f.1 == name).map (·.2)

def given? (env : List (String × String)) (named : Fields) (name : String) : Option Value :=
  valueNamed? named name <|> (variableNamed? env name).map .text

def read (env : List (String × String)) (named : Fields) : Except (List Complaint) Settings :=
  let (s, complaints) := fill items (given? env named) {}
  let unknown := named.filter fun f => !items.any (·.name == lower f.1)
  check (s, complaints ++ unknown.map fun f => complaint f.1 .unknownName)

def toValue (s : Settings) : Value :=
  .object
    [("app_name", .text s.appName), ("app_env", .text s.appEnv), ("log_level", .text s.logLevel),
     ("max_call_depth", .int s.maxCallDepth), ("max_path_length", .int s.maxPathLength),
     ("max_paths_per_query", .int s.maxPathsPerQuery), ("storage_aliasing", .text s.aliasing.name),
     ("splice_modifiers", .bool s.spliceModifiers),
     ("resolve_virtual_dispatch", .bool s.virtualDispatch), ("plugins_dir", .text s.pluginsDir)]

end Settings

end ContractFlow
