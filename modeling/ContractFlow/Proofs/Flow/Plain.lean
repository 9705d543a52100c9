import ContractFlow.Flow.Local
import ContractFlow.Proofs.Control.Operand

/-! This module contains plain bodies, in which values pass through local variables only. -/

namespace ContractFlow

namespace Program

variable (p : Program)

def NamesLocal (n y : NodeId) : Prop :=
  p.findVariable n = .ok (some y) ∧ p.isLocal y = true

/-- Names of local variables and literals, put together by binary operators, parentheses and conditionals. -/
inductive IsPlainExpression : NodeId → Prop
  | identifier {n y : NodeId} : p.NamesLocal n y → IsPlainExpression n
  | literal {n : NodeId} : p.arena.kind n = .literal → IsPlainExpression n
  | operation {n : NodeId} : p.arena.kind n = .binaryOperation →
      (∀ c ∈ p.arena.children n, IsPlainExpression c) → IsPlainExpression n
  | parenthesis {n c : NodeId} : p.arena.kind n = .tupleExpression →
      p.arena.entries n "components" = [some c] →
      (∀ c ∈ p.arena.children n, IsPlainExpression c) → IsPlainExpression n
  | conditional {n : NodeId} : p.arena.kind n = .conditional →
      (∀ c ∈ p.arena.children n, IsPlainExpression c) → IsPlainExpression n

structure IsPlainAssignment (n target v : NodeId) : Prop where
  kind : p.arena.kind n = .assignment
  operator : p.arena.text n = .text "="
  left : p.arena.child? n "leftHandSide" = some target
  name : ∃ y, p.NamesLocal target y
  right : p.arena.child? n "rightHandSide" = some v
  plain : p.IsPlainExpression v
  children : ∀ c ∈ p.arena.children n, c = target ∨ c = v

/-- Declarations of one variable with a value, plain assignments, blocks, branches, loops and returns. -/
inductive IsPlainStatement : NodeId → Prop
  | block {n : NodeId} : p.arena.kind n = .block →
      (∀ c ∈ p.arena.items n "statements", IsPlainStatement c) → IsPlainStatement n
  | declaration {n y v : NodeId} : p.arena.kind n = .variableDeclarationStatement →
      p.arena.entries n "declarations" = [some y] → p.arena.child? n "initialValue" = some v →
      p.IsPlainExpression v → IsPlainStatement n
  | assignment {n s target v : NodeId} : p.arena.kind n = .expressionStatement →
      p.arena.child? n "expression" = some s → p.IsPlainAssignment s target v → IsPlainStatement n
  | branch {n : NodeId} : p.arena.kind n = .ifStatement →
      (∀ c, p.arena.child? n "condition" = some c → p.IsPlainExpression c) →
      (∀ b, p.arena.child? n "trueBody" = some b → IsPlainStatement b) →
      (∀ b, p.arena.child? n "falseBody" = some b → IsPlainStatement b) → IsPlainStatement n
  | loop {n : NodeId} : p.arena.kind n = .forStatement ∨ p.arena.kind n = .whileStatement →
      (∀ b, p.arena.child? n "initializationExpression" = some b → IsPlainStatement b) →
      (∀ c, p.arena.child? n "condition" = some c → p.IsPlainExpression c) →
      (∀ b, p.arena.child? n "body" = some b → IsPlainStatement b) →
      (∀ b, p.arena.child? n "loopExpression" = some b → IsPlainStatement b) → IsPlainStatement n
  | returns {n : NodeId} : p.arena.kind n = .returnStatement →
      (∀ v, p.arena.child? n "expression" = some v → p.IsPlainExpression v) → IsPlainStatement n

/-- A program without calls and invoked modifiers whose bodies are plain. -/
structure IsPlain : Prop where
  calls : ∀ n, p.arena.kind n ≠ .functionCall
  invocations : ∀ f, (p.callableD f).invocations = []
  bodies : ∀ f body, (p.callableD f).body = some body → p.IsPlainStatement body

/-- The declaration or the assignment `s` gives the variable `y` the value of `v`. -/
inductive Assigns (s y v : NodeId) : Prop
  | declaration : p.arena.kind s = .variableDeclarationStatement → p.arena.entries s "declarations" = [some y] →
      p.arena.child? s "initialValue" = some v → Assigns s y v
  | assignment {target : NodeId} : p.arena.kind s = .assignment → p.arena.text s = .text "=" →
      p.arena.child? s "leftHandSide" = some target → p.localOf? target = some y →
      p.arena.child? s "rightHandSide" = some v → Assigns s y v

/-- The value of `c`, if it is evaluated, goes into the value of the expression `n` around it. -/
inductive Feeds (c n : NodeId) : Prop
  | parenthesis : p.arena.parent? c = some n → p.arena.kind n = .tupleExpression →
      (p.arena.entries n "components").length = 1 → Feeds c n
  | operand : p.arena.parent? c = some n → p.arena.kind n = .binaryOperation →
      p.arena.isPropagating n = .ok true → Feeds c n
  | branch : p.arena.parent? c = some n → p.arena.kind n = .conditional →
      p.arena.role c = "trueExpression" ∨ p.arena.role c = "falseExpression" → Feeds c n

inductive Passes (n : NodeId) : Prop
  | assigned {s y : NodeId} : p.Assigns s y n → Passes n
  | parenthesis {q c : NodeId} : p.arena.parent? n = some q → p.arena.kind q = .tupleExpression →
      p.arena.entries q "components" = [some c] → Passes n
  | operand {q : NodeId} : p.arena.parent? n = some q → p.arena.kind q = .binaryOperation → Passes n
  | branch {q : NodeId} : p.arena.parent? n = some q → p.arena.kind q = .conditional → Passes n
  | tested {q : NodeId} : p.arena.parent? n = some q →
      p.arena.kind q = .ifStatement ∨ p.arena.kind q = .forStatement ∨ p.arena.kind q = .whileStatement → Passes n
  | returned {q : NodeId} : p.arena.parent? n = some q → p.arena.kind q = .returnStatement → Passes n

inductive IsPlainNode (n : NodeId) : Prop
  | statement : p.arena.kind n = .expressionStatement ∨ p.arena.kind n = .ifStatement ∨
      p.arena.kind n = .forStatement ∨ p.arena.kind n = .whileStatement ∨ p.arena.kind n = .returnStatement →
      IsPlainNode n
  | declaration {y v : NodeId} : p.arena.kind n = .variableDeclarationStatement →
      p.arena.entries n "declarations" = [some y] → p.arena.child? n "initialValue" = some v → IsPlainNode n
  | assignment {s target v : NodeId} : p.IsPlainAssignment n target v → p.arena.parent? n = some s →
      p.arena.kind s = .expressionStatement → IsPlainNode n
  | target {s v : NodeId} : p.IsPlainAssignment s n v → IsPlainNode n
  | value : p.IsPlainExpression n → p.Passes n → p.isRead n = true → IsPlainNode n

end Program

namespace Arena

variable {a : Arena} {n m c : NodeId} {role : String}

theorem mem_children_of_child? (h : a.child? n role = some c) : c ∈ a.children n :=
  Node.mem_children_of_child? h

theorem mem_children_of_mem_operands (hkind : a.kind n ≠ .functionCallOptions) (h : c ∈ a.operands n) :
    c ∈ a.children n ∧ a.kind n ≠ .identifier ∧ a.kind n ≠ .literal := by
  unfold operands at h
  split at h
  · simp at h
  · simp at h
  · simp at h
  · simp at h
  · next hk => exact absurd hk hkind
  · next h₁ h₂ _ _ _ => exact ⟨(List.mem_filter.1 h).1, h₁, h₂⟩

theorem mem_visits_expressionControl (hkind : a.kind n ≠ .functionCallOptions)
    (h : m ∈ (a.expressionControl n).visits) : m = n ∨ (a.kind n ≠ .identifier ∧ a.kind n ≠ .literal) ∧
      ∃ c ∈ a.children n, m ∈ (a.expressionControl c).visits := by
  have hpart {role : String} (hm : m ∈ (a.partControl n role).visits) :
      ∃ c ∈ a.children n, m ∈ (a.expressionControl c).visits := by
    unfold partControl at hm
    split at hm
    · simp [Control.visits] at hm
    · next c hc => exact ⟨c, mem_children_of_child? hc, hm⟩
  have hwhole (hm : m ∈ (Control.seq (.all ((a.operands n).map a.expressionControl)) (.visit n)).visits) :
      m = n ∨ (a.kind n ≠ .identifier ∧ a.kind n ≠ .literal) ∧
        ∃ c ∈ a.children n, m ∈ (a.expressionControl c).visits := by
    rcases List.mem_append.1 hm with hm | hm
    · rw [Control.visits_all, List.flatMap_map, List.mem_flatMap] at hm
      obtain ⟨c, hc, hm⟩ := hm
      obtain ⟨hmem, hleaf⟩ := mem_children_of_mem_operands hkind hc
      exact .inr ⟨hleaf, c, hmem, hm⟩
    · exact .inl (List.mem_singleton.1 hm)
  rw [expressionControl_eq] at h
  split at h
  · next hk =>
    have hleft {l r : String} (h : m ∈ (a.partControl n l).visits ∨ m ∈ (a.partControl n r).visits) :=
      And.intro (show a.kind n ≠ .identifier ∧ a.kind n ≠ .literal by simp [hk]) (h.elim hpart hpart)
    split at h
    · simp only [Control.visits, List.mem_append, List.mem_singleton, List.not_mem_nil, or_false, ← or_assoc] at h
      exact h.symm.imp_right hleft
    · simp only [Control.visits, List.mem_append, List.mem_singleton, List.not_mem_nil, or_false, ← or_assoc] at h
      exact h.symm.imp_right hleft
    · exact hwhole h
  · next hk =>
    simp only [Control.visits, List.mem_append, List.mem_singleton] at h
    exact h.symm.imp_right fun h => ⟨by simp [hk], h.elim (Or.rec hpart hpart) hpart⟩
  · exact hwhole h

theorem not_isShortCircuit (hkind : a.kind n = .binaryOperation) (h : a.isPropagating n = .ok true) :
    ¬a.IsShortCircuit n := by
  unfold isPropagating at h
  rw [hkind] at h
  rintro ⟨-, htext | htext⟩ <;>
    · rw [htext] at h
      exact absurd h (by decide)

theorem isAssignmentTarget_eq {q : NodeId} (h : a.parent? n = some q) :
    a.isAssignmentTarget n = match a.kind q with
      | .tupleExpression => a.isAssignmentTarget q
      | .assignment => a.role n == "leftHandSide" && a.text q == .text "="
      | _ => false := by
  rw [isAssignmentTarget]
  split
  · next hnone => simp [h] at hnone
  · next q' hq =>
    obtain rfl := Option.some.inj (h.symm.trans hq)
    rfl

end Arena

namespace Program

variable {p : Program} {n m c s y y' v w : NodeId}

theorem of_localOf? (h : p.localOf? n = some y) : p.arena.kind n = .identifier ∧
    p.arena.kind y = .variableDeclaration ∧ p.NamesLocal n y := by
  obtain ⟨hvariable, hlocal⟩ := Option.filter_eq_some_iff.1 h
  unfold variableOf? at hvariable
  split at hvariable
  · next hk =>
    obtain ⟨hdeclaration, hkind⟩ := Option.filter_eq_some_iff.1 hvariable
    unfold declaration? at hdeclaration
    split at hdeclaration
    · next hl =>
      refine ⟨eq_of_beq hk, eq_of_beq hkind, ?_, hlocal⟩
      simp [findVariable, hk, hl, hdeclaration, hkind]
    · simp at hdeclaration
  · simp at hvariable

theorem kind_of_variableOf? (h : p.variableOf? n = some y) : p.arena.kind n = .identifier := by
  unfold variableOf? at h
  split at h
  · next hk => exact eq_of_beq hk
  · simp at h

namespace NamesLocal

theorem kind (h : p.NamesLocal n y) : p.arena.kind n = .identifier :=
  kind_of_findVariable h.1

theorem variableOf? (h : p.NamesLocal n y) : p.variableOf? n = some y :=
  findVariable_eq h.1

theorem localOf? (h : p.NamesLocal n y) : p.localOf? n = some y := by
  rw [Program.localOf?, h.variableOf?]
  exact Option.filter_eq_some_iff.2 ⟨rfl, h.2⟩

end NamesLocal

theorem IsPlainExpression.kind (h : p.IsPlainExpression n) : p.arena.kind n = .identifier ∨
    p.arena.kind n = .literal ∨ p.arena.kind n = .binaryOperation ∨ p.arena.kind n = .tupleExpression ∨
      p.arena.kind n = .conditional := by
  cases h with
  | identifier h => simp [h.kind]
  | literal h => simp [h]
  | operation h => simp [h]
  | parenthesis h => simp [h]
  | conditional h => simp [h]

theorem IsPlainStatement.not_isPlainExpression (h : p.IsPlainStatement n) : ¬p.IsPlainExpression n := by
  intro hn
  have hkind := hn.kind
  cases h with
  | block h | declaration h | assignment h | branch h | returns h => simp [h] at hkind
  | loop h => rcases h with h | h <;> simp [h] at hkind

namespace Assigns

theorem parent? (h : p.Assigns s y v) : p.arena.parent? v = some s := by
  cases h with
  | declaration _ _ hv => exact (Arena.parent?_of_child? hv).1
  | assignment _ _ _ _ hv => exact (Arena.parent?_of_child? hv).1

end Assigns

theorem isRead_of_passes (h : p.Passes n) (htarget : p.arena.isAssignmentTarget n = false) : p.isRead n = true := by
  unfold isRead
  cases h with
  | assigned h =>
    simp only [h.parent?]
    cases h with
    | declaration hkind => simp [hkind]
    | assignment hkind _ _ _ hv => simp [hkind, (Arena.parent?_of_child? hv).2]
  | parenthesis hq hkind =>
    rw [Arena.isAssignmentTarget_eq hq, hkind] at htarget
    simp [hq, hkind, htarget]
  | operand hq hkind | branch hq hkind | returned hq hkind => simp [hq, hkind]
  | tested hq hkind => rcases hkind with hkind | hkind | hkind <;> simp [hq, hkind]

theorem IsPlainExpression.of_children (h : p.IsPlainExpression n) (hpasses : p.Passes n)
    (htarget : p.arena.isAssignmentTarget n = false) (hm : m ∈ (p.arena.expressionControl n).visits)
    (hchildren : p.arena.kind n ≠ .identifier → p.arena.kind n ≠ .literal →
      ∀ c ∈ p.arena.children n, m ∈ (p.arena.expressionControl c).visits → p.IsPlainNode m) :
    p.IsPlainNode m := by
  have hkind : p.arena.kind n ≠ .functionCallOptions := by
    rcases h.kind with hk | hk | hk | hk | hk <;> simp [hk]
  rcases Arena.mem_visits_expressionControl hkind hm with rfl | ⟨hleaf, c, hc, hm⟩
  · exact .value h hpasses (isRead_of_passes hpasses htarget)
  · exact hchildren hleaf.1 hleaf.2 c hc hm

theorem IsPlainExpression.isPlainNode (h : p.IsPlainExpression n) (hpasses : p.Passes n)
    (htarget : p.arena.isAssignmentTarget n = false) (hm : m ∈ (p.arena.expressionControl n).visits) :
    p.IsPlainNode m := by
  induction h with
  | identifier h => exact of_children (.identifier h) hpasses htarget hm fun hleaf => absurd h.kind hleaf
  | literal h => exact of_children (.literal h) hpasses htarget hm fun _ hleaf => absurd h hleaf
  | operation hkind hplain ih =>
    refine of_children (.operation hkind hplain) hpasses htarget hm fun _ _ c hc => ?_
    have hparent := Arena.parent?_of_mem_children hc
    exact ih c hc (.operand hparent hkind) (by rw [Arena.isAssignmentTarget_eq hparent, hkind])
  | parenthesis hkind hone hplain ih =>
    refine of_children (.parenthesis hkind hone hplain) hpasses htarget hm fun _ _ c hc => ?_
    have hparent := Arena.parent?_of_mem_children hc
    refine ih c hc (.parenthesis hparent hkind hone) ?_
    rwa [Arena.isAssignmentTarget_eq hparent, hkind]
  | conditional hkind hplain ih =>
    refine of_children (.conditional hkind hplain) hpasses htarget hm fun _ _ c hc => ?_
    have hparent := Arena.parent?_of_mem_children hc
    exact ih c hc (.branch hparent hkind) (by rw [Arena.isAssignmentTarget_eq hparent, hkind])

theorem isPlainNode_part {role : String} (hplain : ∀ c, p.arena.child? n role = some c → p.IsPlainExpression c)
    (hpasses : ∀ c, p.arena.child? n role = some c → p.Passes c)
    (hkind : p.arena.kind n ≠ .tupleExpression ∧ p.arena.kind n ≠ .assignment)
    (hm : m ∈ (p.arena.partControl n role).visits) : p.IsPlainNode m := by
  unfold Arena.partControl at hm
  split at hm
  · simp [Control.visits] at hm
  · next c hc =>
    refine (hplain c hc).isPlainNode (hpasses c hc) ?_ hm
    rw [Arena.isAssignmentTarget_eq (Arena.parent?_of_child? hc).1]
    split
    · next hk => exact absurd hk hkind.1
    · next hk => exact absurd hk hkind.2
    · rfl

theorem isPlainNode_body {inLoop : Bool} {role : String}
    (h : ∀ b, p.arena.child? n role = some b → m ∈ (p.arena.statementControl inLoop b).visits → p.IsPlainNode m)
    (hm : m ∈ (p.arena.bodyPart inLoop n role).visits) : p.IsPlainNode m := by
  unfold Arena.bodyPart at hm
  split at hm
  · simp [Control.visits] at hm
  · next b hb => exact h b hb hm

theorem IsPlainAssignment.assigns (h : p.IsPlainAssignment s m v) : ∃ y, p.NamesLocal m y ∧ p.Assigns s y v := by
  obtain ⟨y, hy⟩ := h.name
  exact ⟨y, hy, .assignment h.kind h.operator h.left hy.localOf? h.right⟩

theorem IsPlainAssignment.isPlainNode {target : NodeId} (h : p.IsPlainAssignment s target v)
    (hparent : p.arena.parent? s = some n) (hkind : p.arena.kind n = .expressionStatement)
    (hm : m ∈ (p.arena.expressionControl s).visits) : p.IsPlainNode m := by
  rcases Arena.mem_visits_expressionControl (by simp [h.kind]) hm with rfl | ⟨-, c, hc, hm⟩
  · exact .assignment h hparent hkind
  · rcases h.children c hc with rfl | rfl
    · obtain ⟨y, hy⟩ := h.name
      rcases Arena.mem_visits_expressionControl (by simp [hy.kind]) hm with rfl | ⟨⟨hleaf, -⟩, -⟩
      · exact .target h
      · exact absurd hy.kind hleaf
    · obtain ⟨y, -, hassigns⟩ := h.assigns
      refine h.plain.isPlainNode (.assigned hassigns) ?_ hm
      rw [Arena.isAssignmentTarget_eq hassigns.parent?, h.kind]
      simp [(Arena.parent?_of_child? h.right).2]

theorem IsPlainStatement.isPlainNode {inLoop : Bool} (h : p.IsPlainStatement n)
    (hm : m ∈ (p.arena.statementControl inLoop n).visits) : p.IsPlainNode m := by
  induction h generalizing inLoop with
  | block hkind _ ih =>
    rw [Arena.statementControl_eq, hkind] at hm
    rw [Control.visits_all, List.flatMap_map, List.mem_flatMap] at hm
    obtain ⟨c, hc, hm⟩ := hm
    exact ih c hc hm
  | declaration hkind hone hvalue hplain =>
    rw [Arena.statementControl_eq, hkind] at hm
    rcases List.mem_append.1 hm with hm | hm
    · refine isPlainNode_part (fun c hc => ?_) (fun c hc => ?_) (by simp [hkind]) hm
      · exact Option.some.inj (hvalue.symm.trans hc) ▸ hplain
      · exact .assigned (.declaration hkind hone hc)
    · rw [List.mem_singleton.1 hm]
      exact .declaration hkind hone hvalue
  | @assignment n s target v hkind hs h =>
    have hself : p.IsPlainNode n := .statement (.inl hkind)
    rw [Arena.statementControl_eq, hkind] at hm
    rcases List.mem_append.1 hm with hm | hm
    · unfold Arena.partControl at hm
      rw [hs] at hm
      exact h.isPlainNode (Arena.parent?_of_child? hs).1 hkind hm
    · rcases List.mem_append.1 hm with hm | hm
      · exact List.mem_singleton.1 hm ▸ hself
      · split at hm <;> simp [Control.visits] at hm
  | @branch n hkind hcondition _ _ ih₁ ih₂ =>
    rw [Arena.statementControl_eq, hkind] at hm
    simp only [Control.visits, List.mem_append, List.mem_singleton] at hm
    rcases hm with rfl | (hm | hm) | hm
    · exact .statement (by simp [hkind])
    · refine isPlainNode_part hcondition (fun c hc => ?_) (by simp [hkind]) hm
      exact .tested (Arena.parent?_of_child? hc).1 (.inl hkind)
    · exact isPlainNode_body (fun b hb => ih₁ b hb) hm
    · exact isPlainNode_body (fun b hb => ih₂ b hb) hm
  | @loop n hkind _ hcondition _ _ ih₁ ih₂ ih₃ =>
    have hcontrol : p.arena.statementControl inLoop n
        = .seq (.visit n) (.seq (p.arena.bodyPart inLoop n "initializationExpression")
          (.loop (p.arena.partControl n "condition") (p.arena.bodyPart true n "body")
            (p.arena.bodyPart inLoop n "loopExpression"))) := by
      rw [Arena.statementControl_eq]
      rcases hkind with hkind | hkind <;> rw [hkind]
    rw [hcontrol] at hm
    simp only [Control.visits, List.mem_append, List.mem_singleton] at hm
    rcases hm with rfl | hm | (hm | hm) | hm
    · exact .statement (by tauto)
    · exact isPlainNode_body (fun b hb => ih₁ b hb) hm
    · refine isPlainNode_part hcondition (fun c hc => ?_) ?_ hm
      · exact .tested (Arena.parent?_of_child? hc).1 (.inr hkind)
      · rcases hkind with hkind | hkind <;> simp [hkind]
    · exact isPlainNode_body (fun b hb => ih₂ b hb) hm
    · exact isPlainNode_body (fun b hb => ih₃ b hb) hm
  | returns hkind hvalue =>
    rw [Arena.statementControl_eq, hkind] at hm
    simp only [Control.visits, List.mem_append, List.mem_singleton, List.not_mem_nil, or_false] at hm
    rcases hm with hm | rfl
    · refine isPlainNode_part hvalue (fun c hc => ?_) (by simp [hkind]) hm
      exact .returned (Arena.parent?_of_child? hc).1 hkind
    · exact .statement (by simp [hkind])

theorem Assigns.ne (h : p.Assigns s y v) : s ≠ y := by
  rintro rfl
  cases h with
  | declaration _ hone _ =>
    have hparent := (Arena.parent?_of_mem_entries (hone ▸ List.mem_singleton_self _)).1
    exact Nat.lt_irrefl _ (p.arena.lt_of_parent? hparent)
  | assignment hkind _ _ hlocal _ =>
    have hdeclaration := (of_localOf? hlocal).2.1
    simp [hkind] at hdeclaration

namespace IsPlainNode

theorem writesAt_declaration (hkind : p.arena.kind n = .variableDeclarationStatement)
    (hone : p.arena.entries n "declarations" = [some y]) : p.writesAt n = [⟨y, .declaration, n⟩] := by
  simp [writesAt, hkind, Arena.items, hone]

theorem writesAt_assignment {target : NodeId} (h : p.IsPlainAssignment n target v) (hy : p.NamesLocal target y) :
    p.writesAt n = [⟨y, .assignment, n⟩] := by
  simp [writesAt, h.kind, h.left, assignedLocals, hy.kind, hy.localOf?]

theorem writesAt_cases (h : p.IsPlainNode n) : p.writesAt n = [] ∧ (∀ y v, ¬p.Assigns n y v) ∨
    ∃ w : Write, p.writesAt n = [w] ∧ (∃ v, p.Assigns n w.variableNode v) ∧
      ∀ y v, p.Assigns n y v → y = w.variableNode := by
  have hother (hkind : p.arena.kind n ≠ .variableDeclarationStatement) (hkind' : p.arena.kind n ≠ .assignment)
      (y v : NodeId) : ¬p.Assigns n y v
    | .declaration h _ _ => hkind h
    | .assignment h _ _ _ _ => hkind' h
  cases h with
  | statement h =>
    rcases h with h | h | h | h | h <;>
      exact .inl ⟨by simp [writesAt, h], hother (by simp [h]) (by simp [h])⟩
  | declaration hkind hone hvalue =>
    refine .inr ⟨_, writesAt_declaration hkind hone, ⟨_, .declaration hkind hone hvalue⟩, fun y v hassigns => ?_⟩
    cases hassigns with
    | declaration _ hone' => simpa [hone] using hone'.symm
    | assignment hkind' => simp [hkind] at hkind'
  | assignment h =>
    obtain ⟨y, hy, hassigns⟩ := h.assigns
    refine .inr ⟨_, writesAt_assignment h hy, ⟨_, hassigns⟩, fun y' v' hassigns' => ?_⟩
    cases hassigns' with
    | declaration hkind => simp [h.kind] at hkind
    | assignment _ _ hleft hlocal =>
      obtain rfl := Option.some.inj (h.left.symm.trans hleft)
      exact Option.some.inj (hlocal.symm.trans hy.localOf?)
  | target h =>
    obtain ⟨y, hy⟩ := h.name
    exact .inl ⟨by simp [writesAt, hy.kind], hother (by simp [hy.kind]) (by simp [hy.kind])⟩
  | value h =>
    rcases h.kind with h | h | h | h | h <;>
      exact .inl ⟨by simp [writesAt, h], hother (by simp [h]) (by simp [h])⟩

theorem assigns_of_mem_writesAt (h : p.IsPlainNode n) {w : Write} (hw : w ∈ p.writesAt n) :
    ∃ v, p.Assigns n w.variableNode v := by
  rcases h.writesAt_cases with ⟨hnil, -⟩ | ⟨w', hone, hassigns, -⟩
  · simp [hnil] at hw
  · rw [hone, List.mem_singleton] at hw
    exact hw ▸ hassigns

theorem exists_writesAt_eq (h : p.IsPlainNode n) (hassigns : p.Assigns n y v) :
    ∃ w : Write, w.variableNode = y ∧ p.writesAt n = [w] := by
  rcases h.writesAt_cases with ⟨-, hnone⟩ | ⟨w, hone, -, hall⟩
  · exact absurd hassigns (hnone y v)
  · exact ⟨w, (hall y v hassigns).symm, hone⟩

theorem kind_ne_try (h : p.IsPlainNode n) : p.arena.kind n ≠ .tryStatement := by
  cases h with
  | statement h => rcases h with h | h | h | h | h <;> simp [h]
  | declaration h => simp [h]
  | assignment h => simp [h.kind]
  | target h =>
    obtain ⟨y, hy⟩ := h.name
    simp [hy.kind]
  | value h => rcases h.kind with h | h | h | h | h <;> simp [h]

theorem identifier_cases (h : p.IsPlainNode n) (hkind : p.arena.kind n = .identifier) :
    (∃ s v, p.IsPlainAssignment s n v) ∨ p.IsPlainExpression n ∧ p.Passes n ∧ p.isRead n = true := by
  cases h with
  | statement h => rcases h with h | h | h | h | h <;> simp [h] at hkind
  | declaration h => simp [h] at hkind
  | assignment h => simp [h.kind] at hkind
  | target h => exact .inl ⟨_, _, h⟩
  | value hn hpasses hread => exact .inr ⟨hn, hpasses, hread⟩

theorem exists_namesLocal (h : p.IsPlainNode n) (hkind : p.arena.kind n = .identifier) : ∃ y, p.NamesLocal n y := by
  rcases h.identifier_cases hkind with ⟨s, v, h⟩ | ⟨hn, -, -⟩
  · exact h.name
  · cases hn with
    | identifier h => exact ⟨_, h⟩
    | literal h | operation h | parenthesis h | conditional h => simp [h] at hkind

theorem exists_findVariable_eq (h : p.IsPlainNode n) : ∃ d, p.findVariable n = .ok d := by
  by_cases hkind : p.arena.kind n = .identifier
  · obtain ⟨y, hy⟩ := h.exists_namesLocal hkind
    exact ⟨_, hy.1⟩
  · refine ⟨none, ?_⟩
    unfold findVariable
    rw [if_neg (by simpa using hkind)]

end IsPlainNode

end Program

end ContractFlow
