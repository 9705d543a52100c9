import ContractFlow.Data.JsonWriter
import ContractFlow.Log.Record

/-!
This module lays out log records as lines of text.
-/

namespace ContractFlow

inductive Layout where
  | json
  | colored
deriving DecidableEq, Inhabited

namespace LogRecord

variable (r : LogRecord)

def subjectNames : List String :=
  ["contract", "callable", "configuration", "issue_kind", "depth"]

def subject (name : String) : Value :=
  Fields.get r.subjects name

def givenSubjects : Fields :=
  subjectNames.filterMap fun name =>
    match r.subject name with
    | .null | .text "" => none
    | v => some (name, v)

def sourceValue : Value :=
  .object
    [("module", r.module), ("function", r.function), ("line", r.line)]

def errorValue (e : LoggedError) : Value :=
  .object
    [("type", .text e.kind), ("message", .text e.message), ("traceback", .text e.text)]

def partAt (v : Value) (i : Nat) : Except LogFault Value :=
  match v with
  | .text s => ((s.toList[i]?).map fun c => .ok (.text c.toString)).getD (.error .missingPart)
  | .list vs => ((vs[i]?).map .ok).getD (.error .missingPart)
  | .object _ => .error .namedParts
  | _ => .error .withoutParts

def standsForError (v : Value) : Except LogFault Bool :=
  if v.holds then (partAt v 1).map Value.holds else .ok false

def error? : Except LogFault (Option LoggedError) := do
  match r.note with
  | .nothing => return none
  | .error e => return some e
  | .other v =>
    if ← standsForError v then
      let _ ← (partAt v 2).mapError fun _ => .notThreeParts
      if (partAt v 3).toOption.isSome then throw .notThreeParts
      throw .notAnError
    else return none

def errorText? : Except LogFault (Option String) := do
  match r.note with
  | .nothing => return none
  | .error e => return some e.text
  | .other v =>
    if ← standsForError v then
      let _ ← partAt v 2
      throw .notAnError
    else return none

def toValue : Except LogFault Value := do
  let instant ← r.instant
  let message ← r.message
  let subjects := if r.givenSubjects.isEmpty then [] else [("analysis", .object r.givenSubjects)]
  let error := (← r.error?).toList.map fun e => ("exception", errorValue e)
  return .object
    ([("timestamp", .text instant.stamp), ("level", r.title),
      ("logger", r.logger), ("message", .text message), ("source", r.sourceValue)]
      ++ subjects ++ error)

def color? (v : Value) : Option Nat :=
  let colors := [(Severity.debug, 36), (Severity.info, 32), (Severity.warning, 33),
    (Severity.error, 31), (Severity.critical, 35)]
  (colors.find? fun c => Value.int c.1 == v).map (·.2)

def padRight (width : Nat) (s : String) : String :=
  s ++ String.ofList (List.replicate (width - s.length) ' ')

def head (instant : Instant) : Except LogFault String := do
  let title ← match r.title with
    | .text title => .ok title
    | .null | .list _ | .object _ => .error .untitled
    | _ => .error .numberAsTitle
  let text := instant.clock ++ " " ++ padRight 8 title
  if !r.severity.isKey then throw .notASeverity
  match color? r.severity with
  | some code => return "\x1b[" ++ toString code ++ "m" ++ text ++ "\x1b[0m"
  | none => return text

def scopeText : String :=
  ".".intercalate ((["contract", "callable"].map r.subject).filterMap fun v =>
    if v.holds then some v.display else none)

def coloredLine : Except LogFault String := do
  let instant ← r.instant
  let head ← r.head instant
  let message ← r.message
  let scope := if r.scopeText.isEmpty then [] else ["[" ++ r.scopeText ++ "]"]
  let policy := r.subject "configuration"
  let hint := if policy.holds then ["(configuration=" ++ policy.display ++ ")"] else []
  let line := " ".intercalate ([head, r.logger.display ++ ":"] ++ scope ++ [message] ++ hint)
  return ((← r.errorText?).map fun text => line ++ "\n" ++ text).getD line

def layOut (layout : Layout) : Except LogFault String :=
  match layout with
  | .json => r.toValue.map (Json.render .spaced)
  | .colored => r.coloredLine

end LogRecord

end ContractFlow
