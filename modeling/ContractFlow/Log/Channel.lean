import ContractFlow.Log.Layout

/-! This module contains the channel that records are sent through. -/

namespace ContractFlow

/--
How severities compare with that of a record. A record needs a logger, which is the one above all others
if it has no name.
-/
def LogRecord.rank (r : LogRecord) : Except LogFault (Severity → Option Ordering) :=
  if r.logger.holds && r.logger.text?.isNone then .error .notALogger
  else
    match r.severity.compareInt? 0 with
    | some _ => .ok fun s => (r.severity.compareInt? s).getD none
    | none => .error .notASeverity

structure LogScope where
  contract : Value := .text ""
  callable : Value := .text ""
deriving Inhabited

namespace LogScope

def setSubject (name : String) (value : Value) (r : LogRecord) : LogRecord :=
  if (r.subject name).holds then r else { r with subjects := Fields.set r.subjects name value }

def apply (s : LogScope) (r : LogRecord) : LogRecord :=
  setSubject "callable" s.callable (setSubject "contract" s.contract r)

end LogScope

structure LogChannel where
  layout : Layout
  threshold : Severity
  scopes : List LogScope := []
deriving Inhabited

namespace LogChannel

def chattyLoggers : List String :=
  ["solflow.core.taint", "solflow.core.dataflow"]

def setUp (environment word : Value) : Except Severity.WordFault LogChannel := do
  let threshold ← Severity.ofWord word
  let isManaged := environment == "staging" || environment == "production"
  return { layout := if isManaged then .json else .colored, threshold := threshold }

variable (c : LogChannel)

def chattyThreshold : Severity :=
  if c.threshold ≤ Severity.debug then Severity.debug else Severity.info

def isChatty (logger : String) : Bool :=
  chattyLoggers.any fun name => logger == name || logger.startsWith (name ++ ".")

def thresholdOf (logger : String) : Severity :=
  if isChatty logger then c.chattyThreshold else c.threshold

def accepts (r : LogRecord) : Except LogFault Bool := do
  let order ← r.rank
  return order 0 == some .lt && isBelow (order (c.thresholdOf r.logger.textD))
    && isBelow (order c.threshold)
where
  isBelow (order : Option Ordering) : Bool := order == some .lt || order == some .eq

def emit (r : LogRecord) : Except LogFault String := do
  if ← c.accepts r then
    match (c.scopes.foldl (fun r s => s.apply r) r).layOut c.layout with
    | .ok line => return line ++ "\n"
    | .error _ => return ""
  else return ""

end LogChannel

end ContractFlow
