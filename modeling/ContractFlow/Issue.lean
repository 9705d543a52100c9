import ContractFlow.Data.Value

/-!
This module contains the problems that the analysis reports about a program without giving up.
-/

namespace ContractFlow

inductive IssueKind where
  | inheritanceCycle
  | linearizationFailure
  | unresolvedBase
  | diamondConflict
  | analysisFailure
  | boundExceeded
deriving DecidableEq, Inhabited

namespace IssueKind

def name : IssueKind → String
  | inheritanceCycle => "inheritance-cycle"
  | linearizationFailure => "linearization-failure"
  | unresolvedBase => "unresolved-base"
  | diamondConflict => "diamond-conflict"
  | analysisFailure => "analysis-failure"
  | boundExceeded => "bound-exceeded"

def all : List IssueKind :=
  [inheritanceCycle, linearizationFailure, unresolvedBase, diamondConflict, analysisFailure,
   boundExceeded]

def ofName? (name : String) : Option IssueKind :=
  all.find? (·.name == name)

end IssueKind

structure Issue where
  kind : IssueKind
  message : Value
  contract : Value := ""
  callable : Value := ""
  details : Fields := []
deriving Inhabited, BEq

def Issue.toValue (i : Issue) : Value :=
  .object
    [("kind", .text i.kind.name), ("message", i.message), ("contract", i.contract),
     ("callable", i.callable),
     ("details", .object (i.details.foldl (fun fs (k, v) => Fields.set fs k v) []))]

end ContractFlow
