/-!
This module contains the reasons for which a question about a program has no answer.
-/

namespace ContractFlow

inductive Fault where
  | notATree
  | malformedKind
  | malformedType
  | malformedRange
  | malformedNames
  | notAKey
  | notText
  | notJoinable
  | notANumber
  | outOfRange
  | absent
  | malformedTexts (fields : List String)
  | planned
deriving DecidableEq, Inhabited

def Fault.message : Fault → String
  | notATree => "expected a solc AST dictionary with a 'nodeType' key"
  | malformedKind => "malformed node kind"
  | malformedType => "malformed type description"
  | malformedRange => "malformed source range"
  | malformedNames => "malformed option names"
  | notAKey => "a list or an object cannot be looked up"
  | notText => "text expected"
  | notJoinable => "only text can be joined"
  | notANumber => "number expected"
  | outOfRange => "no such place"
  | absent => "nothing to ask about"
  | malformedTexts fields => "texts expected: " ++ ", ".intercalate fields
  | planned => "planned failure"

end ContractFlow
