import ContractFlow.Log.Record

/-!
This module makes the records that are logged.
-/

namespace ContractFlow

structure LogEntry where
  logger : Value := "solflow"
  severity : Value := .int Severity.info
  pattern : Value := ""
  arguments : List Value := []
  source : Value := "mod"
  function : Value := .null
  line : Value := .int 1
  created : Value := .int 0
  error : Option LoggedError := none
  extra : Fields := []
deriving Inhabited

def baseName (path : List Char) : List Char :=
  (path.reverse.takeWhile (· != '/')).reverse

def withoutEnding (name : List Char) : List Char :=
  let (dots, rest) := name.span (· == '.')
  match rest.reverse.dropWhile (· != '.') with
  | [] => name
  | _ :: front => dots ++ front.reverse

namespace LogRecord

def set (r : LogRecord) (name : String) (v : Value) : LogRecord :=
  match name with
  | "name" => { r with logger := v }
  | "levelno" => { r with severity := v }
  | "levelname" => { r with title := v }
  | "msg" => { r with pattern := v }
  | "args" => { r with arguments := .single v }
  | "module" => { r with module := v }
  | "funcName" => { r with function := v }
  | "lineno" => { r with line := v }
  | "created" => { r with created := v }
  | "exc_info" => { r with note := .other v }
  | _ => { r with subjects := Fields.set r.subjects name v }

end LogRecord

namespace LogEntry

variable (e : LogEntry)

def module : String :=
  String.ofList (withoutEnding (baseName (e.source.display ++ ".py").toList))

def plainRecord : LogRecord where
  logger := e.logger
  severity := e.severity
  title := Severity.title e.severity
  pattern := e.pattern
  arguments := .ofList e.arguments
  module := e.module
  function := e.function
  line := e.line
  created := e.created
  note := (e.error.map .error).getD .nothing

def record : Except LogFault LogRecord :=
  if e.severity.isKey then .ok (e.extra.foldl (fun r f => r.set f.1 f.2) e.plainRecord)
  else .error .notASeverity

end LogEntry

end ContractFlow
