import ContractFlow.Proofs.Syntax.Tree

/-! This module contains the equations of control structures, and the induction over those of expressions. -/

namespace ContractFlow.Arena

variable (a : Arena)

theorem induction_behind {P : NodeId → Prop}
    (step : ∀ n, (∀ c, n < c → c < a.size → P c) → P n) (n : NodeId) : P n := by
  generalize hk : a.size - n = k
  induction k using Nat.strongRecOn generalizing n with
  | ind k ih =>
    apply step
    intro c hnc hc
    have hlt : a.size - c < a.size - n := by
      have : (n : Nat) < c := hnc
      omega
    exact ih (a.size - c) (hk ▸ hlt) c rfl

def bodyPart (inLoop : Bool) (n : NodeId) (role : String) : Control :=
  match a.child? n role with
  | none => .skip
  | some c => a.statementControl inLoop c

def clauseControl (inLoop : Bool) (position : Nat) (c : NodeId) : Control :=
  .label (if position = 0 then .normal else .exception)
    (.seq (.visit c) (a.bodyPart inLoop c "block"))

theorem expressionControl_eq (n : NodeId) :
    a.expressionControl n =
      match a.kind n with
      | .binaryOperation =>
        match a.text n with
        | .text "&&" => .seq (a.partControl n "leftExpression")
          (.seq (.either (.label .whenTrue (a.partControl n "rightExpression"))
            (.label .whenFalse .skip)) (.visit n))
        | .text "||" => .seq (a.partControl n "leftExpression")
          (.seq (.either (.label .whenFalse (a.partControl n "rightExpression"))
            (.label .whenTrue .skip)) (.visit n))
        | _ => .seq (.all ((a.operands n).map a.expressionControl)) (.visit n)
      | .conditional =>
        .seq (.branch (a.partControl n "condition") (a.partControl n "trueExpression")
          (a.partControl n "falseExpression")) (.visit n)
      | _ => .seq (.all ((a.operands n).map a.expressionControl)) (.visit n) := by
  rw [expressionControl]
  simp only [List.map_attach_eq_pmap, List.pmap_eq_map]
  unfold partControl
  split
  · split
    all_goals grind
  all_goals grind

def clauseControls (inLoop : Bool) (n : NodeId) : List Control :=
  (a.entries n "clauses").zipIdx.filterMap fun e => e.1.map (a.clauseControl inLoop e.2)

theorem clauseControls_eq_attach (inLoop : Bool) (n : NodeId) :
    a.clauseControls inLoop n = (a.entries n "clauses").zipIdx.attach.filterMap
      fun e => e.1.1.map (a.clauseControl inLoop e.1.2) := by
  unfold clauseControls
  rw [← List.attach_map_subtype_val (a.entries n "clauses").zipIdx, List.filterMap_map,
    List.attach_map_subtype_val]
  rfl

theorem statementControl_of_try (inLoop : Bool) {n : NodeId} (hkind : a.kind n = .tryStatement) :
    a.statementControl inLoop n = .seq (.visit n) (.seq (a.partControl n "externalCall")
      (.join (if (a.entries n "clauses").isEmpty then .skip else .anyOf (a.clauseControls inLoop n)))) := by
  rw [statementControl]
  simp only [hkind, clauseControls_eq_attach]
  unfold clauseControl bodyPart
  congr
  funext e
  grind

theorem statementControl_eq (inLoop : Bool) (n : NodeId) :
    a.statementControl inLoop n =
      match a.kind n with
      | .block | .uncheckedBlock => .all ((a.items n "statements").map (a.statementControl inLoop))
      | .ifStatement =>
        .seq (.visit n) (.join (.branch (a.partControl n "condition")
          (a.bodyPart inLoop n "trueBody") (a.bodyPart inLoop n "falseBody")))
      | .forStatement | .whileStatement =>
        .seq (.visit n) (.seq (a.bodyPart inLoop n "initializationExpression")
          (.loop (a.partControl n "condition") (a.bodyPart true n "body")
            (a.bodyPart inLoop n "loopExpression")))
      | .doWhileStatement =>
        .seq (.visit n) (.doLoop (a.bodyPart true n "body") (a.partControl n "condition"))
      | .tryStatement =>
        .seq (.visit n) (.seq (a.partControl n "externalCall")
          (.join (if (a.entries n "clauses").isEmpty then .skip
            else .anyOf (a.clauseControls inLoop n))))
      | .returnStatement =>
        .seq (a.partControl n "expression") (.seq (.visit n) (.leave .returns))
      | .revertStatement | .throwStatement =>
        .seq (a.partControl n "errorCall") (.seq (.visit n) .stop)
      | .breakStatement => .seq (.visit n) (if inLoop then .leave .breaks else .skip)
      | .continueStatement => .seq (.visit n) (if inLoop then .leave .continues else .skip)
      | .placeholderStatement => .seq (.visit n) .hole
      | .expressionStatement =>
        .seq (a.partControl n "expression")
          (.seq (.visit n) (if (a.child? n "expression").any a.isRevertCall then .stop else .skip))
      | .variableDeclarationStatement => .seq (a.partControl n "initialValue") (.visit n)
      | .emitStatement => .seq (a.partControl n "eventCall") (.visit n)
      | _ => .visit n := by
  by_cases hkind : a.kind n = .tryStatement
  · rw [a.statementControl_of_try inLoop hkind, hkind]
  · rw [statementControl]
    simp only [List.map_attach_eq_pmap, List.pmap_eq_map]
    unfold bodyPart
    split <;> grind

end ContractFlow.Arena

namespace ContractFlow.Control

structure Lifts (P : Control → Prop) : Prop where
  skip : P .skip
  visit (n : NodeId) : P (.visit n)
  seq {first second : Control} : P first → P second → P (.seq first second)
  short {part : Control} (kind skipped : EdgeKind) : P part → P (.either (.label kind part) (.label skipped .skip))
  branch {condition yes no : Control} : P condition → P yes → P no → P (.branch condition yes no)

namespace Lifts

variable {P : Control → Prop} (h : Lifts P)

include h

theorem all {cs : List Control} (hcs : ∀ c ∈ cs, P c) : P (all cs) := by
  induction cs with
  | nil => exact h.skip
  | cons c cs ih =>
    obtain ⟨hc, hcs⟩ := List.forall_mem_cons.1 hcs
    exact h.seq hc (ih hcs)

theorem expression (a : Arena) (n : NodeId) : P (a.expressionControl n) := by
  induction n using a.induction_behind with
  | step n ih =>
    have hpart (role : String) : P (a.partControl n role) := by
      unfold Arena.partControl
      split
      · exact h.skip
      · next c hc => exact ih c (a.lt_of_child? hc).1 (a.lt_of_child? hc).2
    have hwhole : P (.seq (.all ((a.operands n).map a.expressionControl)) (.visit n)) := by
      refine h.seq (h.all fun c hc => ?_) (h.visit n)
      obtain ⟨m, hm, rfl⟩ := List.mem_map.1 hc
      exact ih m (a.lt_of_mem_operands hm).1 (a.lt_of_mem_operands hm).2
    have hshort (kind skipped : EdgeKind) := h.seq (hpart "leftExpression")
      (h.seq (h.short kind skipped (hpart "rightExpression")) (h.visit n))
    rw [Arena.expressionControl_eq]
    split
    · split
      · exact hshort _ _
      · exact hshort _ _
      · exact hwhole
    · exact h.seq (h.branch (hpart _) (hpart _) (hpart _)) (h.visit n)
    · exact hwhole

theorem part (a : Arena) (n : NodeId) (role : String) : P (a.partControl n role) := by
  unfold Arena.partControl
  split
  · exact h.skip
  · exact h.expression a _

end Lifts

end ContractFlow.Control
