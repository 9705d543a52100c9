import ContractFlow.Proofs.Control.Behaviour
import ContractFlow.Proofs.Control.Structure

/-! This module contains the executions of bodies, which work off a list of tasks. -/

open Computability

namespace ContractFlow

inductive Task where
  | visit (n : NodeId)
  | evaluate (n : NodeId)
  /-- A statement; `inLoop` tells whether it stands in the body of a loop. -/
  | execute (inLoop : Bool) (n : NodeId)
  /-- The condition of a loop, and the rounds that follow. -/
  | test (inLoop : Bool) (n : NodeId)
  | enter (inLoop : Bool) (n : NodeId)
  | choose (inLoop : Bool) (n : NodeId)
  | leave (way : Ending)

def Kind.isStructured : Kind → Bool
  | .block | .uncheckedBlock | .ifStatement | .forStatement | .whileStatement | .doWhileStatement
  | .tryStatement | .returnStatement | .revertStatement | .throwStatement | .breakStatement
  | .continueStatement | .expressionStatement | .variableDeclarationStatement | .emitStatement => true
  | _ => false

namespace Arena

variable (a : Arena)

def evaluated (n : NodeId) (role : String) : List Task :=
  (a.child? n role).toList.map .evaluate

def executed (inLoop : Bool) (n : NodeId) (role : String) : List Task :=
  (a.child? n role).toList.map (.execute inLoop)

def between (inLoop : Bool) (n : NodeId) : List Task :=
  if a.kind n = .doWhileStatement then [] else a.executed inLoop n "loopExpression"

def IsShortCircuit (n : NodeId) : Prop :=
  a.kind n = .binaryOperation ∧ (a.text n = .text "&&" ∨ a.text n = .text "||")

/-- Whether a condition can be false; a missing one cannot. -/
def MayFail (n : NodeId) : Prop :=
  (a.child? n "condition").isSome = true

/-- The tasks that a task consists of, one of several lists where there is a choice. -/
inductive Unfolds : Task → List Task → Prop
  | both {n : NodeId} : a.IsShortCircuit n → Unfolds (.evaluate n)
      (a.evaluated n "leftExpression" ++ a.evaluated n "rightExpression" ++ [.visit n])
  | skipped {n : NodeId} : a.IsShortCircuit n → Unfolds (.evaluate n)
      (a.evaluated n "leftExpression" ++ [.visit n])
  | chooseTrue {n : NodeId} : a.kind n = .conditional → Unfolds (.evaluate n)
      (a.evaluated n "condition" ++ a.evaluated n "trueExpression" ++ [.visit n])
  | chooseFalse {n : NodeId} : a.kind n = .conditional → a.MayFail n → Unfolds (.evaluate n)
      (a.evaluated n "condition" ++ a.evaluated n "falseExpression" ++ [.visit n])
  | operands {n : NodeId} : ¬a.IsShortCircuit n → a.kind n ≠ .conditional → Unfolds (.evaluate n)
      ((a.operands n).map .evaluate ++ [.visit n])
  | block {l : Bool} {n : NodeId} : a.kind n = .block ∨ a.kind n = .uncheckedBlock →
      Unfolds (.execute l n) ((a.items n "statements").map (.execute l))
  | ifTrue {l : Bool} {n : NodeId} : a.kind n = .ifStatement → Unfolds (.execute l n)
      (.visit n :: a.evaluated n "condition" ++ a.executed l n "trueBody")
  | ifFalse {l : Bool} {n : NodeId} : a.kind n = .ifStatement → a.MayFail n → Unfolds (.execute l n)
      (.visit n :: a.evaluated n "condition" ++ a.executed l n "falseBody")
  | loop {l : Bool} {n : NodeId} : a.kind n = .forStatement ∨ a.kind n = .whileStatement →
      Unfolds (.execute l n) (.visit n :: a.executed l n "initializationExpression" ++ [.test l n])
  | doLoop {l : Bool} {n : NodeId} : a.kind n = .doWhileStatement →
      Unfolds (.execute l n) [.visit n, .enter l n]
  | testTrue {l : Bool} {n : NodeId} : Unfolds (.test l n) (a.evaluated n "condition" ++ [.enter l n])
  | testFalse {l : Bool} {n : NodeId} : a.MayFail n → Unfolds (.test l n) (a.evaluated n "condition")
  | attempt {l : Bool} {n : NodeId} : a.kind n = .tryStatement → Unfolds (.execute l n)
      (.visit n :: a.evaluated n "externalCall" ++ [.choose l n])
  | clause {l : Bool} {n c : NodeId} : some c ∈ a.entries n "clauses" →
      Unfolds (.choose l n) (.visit c :: a.executed l c "block")
  | noClause {l : Bool} {n : NodeId} : a.entries n "clauses" = [] → Unfolds (.choose l n) []
  | returns {l : Bool} {n : NodeId} : a.kind n = .returnStatement → Unfolds (.execute l n)
      (a.evaluated n "expression" ++ [.visit n, .leave .returns])
  | reverts {l : Bool} {n : NodeId} : a.kind n = .revertStatement ∨ a.kind n = .throwStatement →
      Unfolds (.execute l n) (a.evaluated n "errorCall" ++ [.visit n, .leave .reverts])
  | breaks {n : NodeId} : a.kind n = .breakStatement →
      Unfolds (.execute true n) [.visit n, .leave .breaks]
  | continues {n : NodeId} : a.kind n = .continueStatement →
      Unfolds (.execute true n) [.visit n, .leave .continues]
  | ignored {n : NodeId} : a.kind n = .breakStatement ∨ a.kind n = .continueStatement →
      Unfolds (.execute false n) [.visit n]
  | expression {l : Bool} {n : NodeId} : a.kind n = .expressionStatement →
      (a.child? n "expression").any a.isRevertCall = false →
      Unfolds (.execute l n) (a.evaluated n "expression" ++ [.visit n])
  | revertCall {l : Bool} {n : NodeId} : a.kind n = .expressionStatement →
      (a.child? n "expression").any a.isRevertCall = true →
      Unfolds (.execute l n) (a.evaluated n "expression" ++ [.visit n, .leave .reverts])
  | declaration {l : Bool} {n : NodeId} : a.kind n = .variableDeclarationStatement →
      Unfolds (.execute l n) (a.evaluated n "initialValue" ++ [.visit n])
  | emit {l : Bool} {n : NodeId} : a.kind n = .emitStatement →
      Unfolds (.execute l n) (a.evaluated n "eventCall" ++ [.visit n])
  | other {l : Bool} {n : NodeId} : (a.kind n).isStructured = false → Unfolds (.execute l n) [.visit n]

/--
An execution of tasks, in order, that visits the given nodes and ends in the given way. The body of a loop
is executed on its own, since what it leaves is the loop.
-/
inductive Performs : List Task → List NodeId → Ending → Prop
  | cut {todo : List Task} : Performs todo [] .underway
  | done : Performs [] [] .falls
  | visit {n : NodeId} {todo : List Task} {w : List NodeId} {e : Ending} :
      Performs todo w e → Performs (.visit n :: todo) (n :: w) e
  | leave {way : Ending} {todo : List Task} : way ≠ .falls → Performs (.leave way :: todo) [] way
  | unfold {t : Task} {parts todo : List Task} {w : List NodeId} {e : Ending} :
      a.Unfolds t parts → Performs (parts ++ todo) w e → Performs (t :: todo) w e
  | again {l : Bool} {n : NodeId} {todo : List Task} {w w' : List NodeId} {e e' : Ending} :
      Performs (a.executed true n "body") w e → e = .falls ∨ e = .continues →
      Performs (a.between l n ++ .test l n :: todo) w' e' → Performs (.enter l n :: todo) (w ++ w') e'
  | broken {l : Bool} {n : NodeId} {todo : List Task} {w w' : List NodeId} {e : Ending} :
      Performs (a.executed true n "body") w .breaks → Performs todo w' e →
      Performs (.enter l n :: todo) (w ++ w') e
  | inside {l : Bool} {n : NodeId} {todo : List Task} {w : List NodeId} {e : Ending} :
      Performs (a.executed true n "body") w e → e = .returns ∨ e = .reverts ∨ e = .underway →
      Performs (.enter l n :: todo) w e

end Arena

end ContractFlow
