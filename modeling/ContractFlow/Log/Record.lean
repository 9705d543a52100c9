import ContractFlow.Data.Display
import ContractFlow.Log.Instant
import ContractFlow.Text.Character

/-! This module contains the records that are logged, nearly every part of which may be any value. -/

namespace ContractFlow

abbrev Severity := Int

namespace Severity

def debug : Severity := 10
def info : Severity := 20
def warning : Severity := 30
def error : Severity := 40
def critical : Severity := 50

def words : List (String × Severity) :=
  [("DEBUG", debug), ("INFO", info), ("WARNING", warning), ("ERROR", error), ("CRITICAL", critical),
   ("NOTSET", 0), ("WARN", warning), ("FATAL", critical)]

inductive WordFault where
  | notAText
  | layoutName
  | tableName
deriving DecidableEq, Inhabited

def reservedWords : List (String × WordFault) :=
  [("BASIC_FORMAT", .layoutName), ("_STYLES", .tableName)]

def ofWord : Value → Except WordFault Severity
  | .text word =>
    match reservedWords.lookup (Text.capitals word) with
    | some fault => .error fault
    | none => .ok ((words.lookup (Text.capitals word)).getD info)
  | _ => .error .notAText

def title (v : Value) : Value :=
  match words.find? fun w => Value.int w.2 == v with
  | some (word, _) => word
  | none =>
    match v.text?.bind (words.lookup ·) with
    | some s => .int s
    | none => "Level " ++ v.display

end Severity

structure LoggedError where
  kind : String
  fullKind : String
  message : String
deriving DecidableEq, Inhabited

def LoggedError.text (e : LoggedError) : String :=
  if e.message.isEmpty then e.fullKind else e.fullKind ++ ": " ++ e.message

inductive ErrorNote where
  | nothing
  | error (e : LoggedError)
  | other (v : Value)
deriving Inhabited

inductive LogArguments where
  | several (vs : List Value)
  | single (v : Value)
deriving Inhabited

def LogArguments.ofList : List Value → LogArguments
  | [.object (f :: fields)] => .single (.object (f :: fields))
  | vs => .several vs

structure LogRecord where
  logger : Value
  severity : Value
  title : Value
  pattern : Value
  arguments : LogArguments
  module : Value
  function : Value
  line : Value
  created : Value
  note : ErrorNote
  subjects : Fields := []
deriving Inhabited

inductive LogFault where
  | wrongArguments
  | badPattern
  | notASeverity
  | numberAsTitle
  | untitled
  | notALogger
  | withoutParts
  | namedParts
  | missingPart
  | notThreeParts
  | notAnError
  | clock (fault : ClockFault)
deriving DecidableEq, Inhabited

def fillPattern : List Char → List Value → Except LogFault (List Char × List Value)
  | [], args => .ok ([], args)
  | ['%'], _ => .error .badPattern
  | '%' :: '%' :: rest, args => (fillPattern rest args).map fun (cs, left) => ('%' :: cs, left)
  | '%' :: _ :: _, [] => .error .wrongArguments
  | '%' :: 's' :: rest, arg :: args =>
    (fillPattern rest args).map fun (cs, left) => (arg.display.toList ++ cs, left)
  | '%' :: _ :: _, _ :: _ => .error .badPattern
  | c :: rest, args => (fillPattern rest args).map fun (cs, left) => (c :: cs, left)

namespace LogArguments

def isEmpty : LogArguments → Bool
  | several vs => vs.isEmpty
  | single v => !v.holds

def fill (pattern : List Char) : LogArguments → Except LogFault (List Char)
  | several vs => do
    let (text, left) ← fillPattern pattern vs
    if left.isEmpty then return text else throw .wrongArguments
  | single v => do
    let (text, left) ← fillPattern pattern [v]
    if left.isEmpty || !v.isKey then return text else throw .wrongArguments

end LogArguments

def LogRecord.message (r : LogRecord) : Except LogFault String :=
  if r.arguments.isEmpty then .ok r.pattern.display
  else (r.arguments.fill r.pattern.display.toList).map String.ofList

def LogRecord.instant (r : LogRecord) : Except LogFault Instant :=
  (Instant.dated r.created).mapError .clock

end ContractFlow
