import ContractFlow.Syntax.Navigate

/-!
This module contains the control structure of bodies: what runs after what, and where there is a choice.
-/

namespace ContractFlow

inductive EdgeKind where
  | normal | whenTrue | whenFalse | back | exception
deriving DecidableEq, Inhabited

def EdgeKind.name : EdgeKind → String
  | normal => "normal"
  | whenTrue => "true"
  | whenFalse => "false"
  | back => "back"
  | exception => "exception"

inductive Departure where
  | breaks | continues | returns
deriving DecidableEq, Inhabited

/-- The control structure of an expression, of a statement or of a whole body. -/
inductive Control where
  | skip
  | stuck
  | visit (n : NodeId)
  | seq (first second : Control)
  | either (first second : Control)
  | label (kind : EdgeKind) (part : Control)
  /-- What the part ends with is brought together. -/
  | join (part : Control)
  /-- A condition, whose absence counts as true, and a part for each outcome. -/
  | branch (condition yes no : Control)
  /-- A loop that tests its condition first; `next` runs between two rounds. -/
  | loop (condition body next : Control)
  | doLoop (body condition : Control)
  | leave (way : Departure)
  | stop
  | hole
deriving DecidableEq, Inhabited

namespace Control

def all : List Control → Control
  | [] => skip
  | c :: rest => seq c (all rest)

def anyOf : List Control → Control
  | [] => stuck
  | c :: rest => either c (anyOf rest)

end Control

namespace Arena

variable (a : Arena)

def operands (n : NodeId) : List NodeId :=
  match a.kind n with
  | .identifier | .literal | .elementaryTypeNameExpression | .newExpression => []
  | .functionCallOptions => (a.child? n "expression").toList ++ a.items n "options"
  | _ => (a.children n).filter fun c => !(a.kind c).isTypeName

theorem lt_of_mem_operands {a : Arena} {n c : Nat} (h : c ∈ a.operands n) : n < c ∧ c < a.size := by
  unfold operands at h
  split at h
  · simp at h
  · simp at h
  · simp at h
  · simp at h
  · rcases List.mem_append.1 h with h | h
    · exact a.lt_of_child? (Option.mem_toList.1 h)
    · exact a.lt_of_mem_items h
  · exact a.lt_of_mem_children (List.mem_filter.1 h).1

/--
The control structure of an expression: its operands, then itself. `&&` and `||` may skip their right
operand, and a conditional evaluates one of its branches.
-/
def expressionControl (n : NodeId) : Control :=
  let part (role : String) : Control :=
    match h : a.child? n role with
    | none => .skip
    | some c =>
      have := a.lt_of_child? h
      expressionControl c
  let whole := .seq (.all ((a.operands n).attach.map fun c =>
    have := a.lt_of_mem_operands c.2
    expressionControl c.1)) (.visit n)
  let shortCircuit (kind skipped : EdgeKind) : Control :=
    .seq (part "leftExpression")
      (.seq (.either (.label kind (part "rightExpression")) (.label skipped .skip)) (.visit n))
  match a.kind n with
  | .binaryOperation =>
    match a.text n with
    | .text "&&" => shortCircuit .whenTrue .whenFalse
    | .text "||" => shortCircuit .whenFalse .whenTrue
    | _ => whole
  | .conditional =>
    .seq (.branch (part "condition") (part "trueExpression") (part "falseExpression")) (.visit n)
  | _ => whole
termination_by a.size - n

def partControl (n : NodeId) (role : String) : Control :=
  match a.child? n role with
  | none => .skip
  | some c => a.expressionControl c

def isRevertCall (n : NodeId) : Bool :=
  a.kind n == .functionCall &&
    (a.child? n "expression").any fun c => a.kind c == .identifier && a.text c == "revert"

/--
The control structure of a statement; `inLoop` tells whether it stands in the body of a loop. Outside
of loops `break` and `continue` do nothing.
-/
def statementControl (inLoop : Bool) (n : NodeId) : Control :=
  let part (inLoop : Bool) (role : String) : Control :=
    match h : a.child? n role with
    | none => .skip
    | some c =>
      have := a.lt_of_child? h
      statementControl inLoop c
  match a.kind n with
  | .block | .uncheckedBlock =>
    .all ((a.items n "statements").attach.map fun c =>
      have := a.lt_of_mem_items c.2
      statementControl inLoop c.1)
  | .ifStatement =>
    .seq (.visit n)
      (.join (.branch (a.partControl n "condition") (part inLoop "trueBody") (part inLoop "falseBody")))
  | .forStatement | .whileStatement =>
    .seq (.visit n) (.seq (part inLoop "initializationExpression")
      (.loop (a.partControl n "condition") (part true "body") (part inLoop "loopExpression")))
  | .doWhileStatement =>
    .seq (.visit n) (.doLoop (part true "body") (a.partControl n "condition"))
  | .tryStatement =>
    let clauses := (a.entries n "clauses").zipIdx.attach.filterMap fun e =>
      match h : e.1.1 with
      | none => none
      | some c =>
        have hc : some c ∈ a.entries n "clauses" := h ▸ List.fst_mem_of_mem_zipIdx e.2
        have := a.lt_of_mem_entries hc
        let block := match h' : a.child? c "block" with
          | none => .skip
          | some b =>
            have := a.lt_of_child? h'
            statementControl inLoop b
        some (.label (if e.1.2 = 0 then .normal else .exception) (.seq (.visit c) block))
    .seq (.visit n) (.seq (a.partControl n "externalCall")
      (.join (if (a.entries n "clauses").isEmpty then .skip else .anyOf clauses)))
  | .returnStatement =>
    .seq (a.partControl n "expression") (.seq (.visit n) (.leave .returns))
  | .revertStatement | .throwStatement =>
    .seq (a.partControl n "errorCall") (.seq (.visit n) .stop)
  | .breakStatement => .seq (.visit n) (if inLoop then .leave .breaks else .skip)
  | .continueStatement => .seq (.visit n) (if inLoop then .leave .continues else .skip)
  | .placeholderStatement => .seq (.visit n) .hole
  | .expressionStatement =>
    let isLast := (a.child? n "expression").any a.isRevertCall
    .seq (a.partControl n "expression") (.seq (.visit n) (if isLast then .stop else .skip))
  | .variableDeclarationStatement => .seq (a.partControl n "initialValue") (.visit n)
  | .emitStatement => .seq (a.partControl n "eventCall") (.visit n)
  | _ => .visit n
termination_by a.size - n

def bodyControl (body : Option NodeId) : Control :=
  match body with
  | none => .skip
  | some n => a.statementControl false n

end Arena

end ContractFlow
