import ContractFlow.Proofs.Control.Execution

/-! This module contains the behaviour of tasks, and shows how it comes from the tasks that they consist of. -/

open Computability

namespace ContractFlow

namespace Arena

variable (a : Arena)

theorem lifts_plain : Control.Lifts (·.traces.Plain) where
  skip := .only
  visit n := .visit n
  seq hfirst hsecond := hfirst.seq hsecond
  short _ _ hpart := .add hpart .only
  branch hcondition hyes hno := by
    refine .seq hcondition (.add hyes ?_)
    split
    · exact hno
    · exact fun e _ _ => rfl

theorem expressionControl_ne_skip (n : NodeId) : a.expressionControl n ≠ .skip := by
  rw [expressionControl_eq]
  split
  · split <;> simp
  · simp
  · simp

theorem partControl_ne_skip_iff (n : NodeId) : a.partControl n "condition" ≠ .skip ↔ a.MayFail n := by
  unfold partControl MayFail
  cases a.child? n "condition" with
  | none => simp
  | some c => simp [a.expressionControl_ne_skip c]

section Loop

variable (inLoop : Bool) (n : NodeId)

def conditionTraces : Behaviour :=
  (a.partControl n "condition").traces

def bodyTraces : Behaviour :=
  (a.bodyPart true n "body").traces

def testTraces : Behaviour :=
  let free := a.partControl n "condition" ≠ .skip
  if a.kind n = .doWhileStatement then
    (a.conditionTraces n).seq (.doLoop free (a.bodyTraces n) (a.conditionTraces n))
      + if free then a.conditionTraces n else 0
  else
    .loop free (a.bodyTraces n) (a.conditionTraces n) (a.bodyPart inLoop n "loopExpression").traces

def betweenTraces : Behaviour :=
  if a.kind n = .doWhileStatement then .only .falls else (a.bodyPart inLoop n "loopExpression").traces

def enterTraces : Behaviour :=
  if a.kind n = .doWhileStatement then
    .doLoop (a.partControl n "condition" ≠ .skip) (a.bodyTraces n) (a.conditionTraces n)
  else
    (a.bodyTraces n).caught
      + ((a.betweenTraces inLoop n).seq (a.testTraces inLoop n)).after (a.bodyTraces n).latch

theorem watched_conditionTraces : (a.conditionTraces n).Watched :=
  Control.watched_traces _

theorem watched_bodyTraces : (a.bodyTraces n).Watched :=
  Control.watched_traces _

theorem watched_testTraces : (a.testTraces inLoop n).Watched := by
  have hc := a.watched_conditionTraces n
  have hb := a.watched_bodyTraces n
  unfold testTraces
  dsimp only
  split
  · refine (hc.seq (hb.doLoop hc)).add fun e => ?_
    split
    · exact hc.before e
    · exact le_rfl
  · exact hb.loop hc (Control.watched_traces _)

theorem testTraces_eq : a.testTraces inLoop n
    = (a.conditionTraces n).seq (a.enterTraces inLoop n)
      + if a.partControl n "condition" ≠ .skip then a.conditionTraces n else 0 := by
  have hplain : (a.conditionTraces n).Plain := lifts_plain.part a n _
  by_cases hkind : a.kind n = .doWhileStatement
  · simp only [testTraces, enterTraces, if_pos hkind]
  · simp only [← hplain.tested_add, enterTraces, betweenTraces, testTraces, if_neg hkind]
    exact Behaviour.loop_eq ..

theorem enterTraces_eq : a.enterTraces inLoop n
    = (a.bodyTraces n).caught
      + ((a.betweenTraces inLoop n).seq (a.testTraces inLoop n)).after (a.bodyTraces n).latch := by
  have hplain : (a.conditionTraces n).Plain := lifts_plain.part a n _
  by_cases hkind : a.kind n = .doWhileStatement
  · have hbetween : (a.betweenTraces inLoop n).seq (a.testTraces inLoop n) = a.testTraces inLoop n := by
      unfold betweenTraces
      rw [if_pos hkind]
      exact Behaviour.only_falls_seq (a.watched_testTraces inLoop n).start
    rw [hbetween]
    simp only [testTraces, enterTraces, if_pos hkind, ← hplain.tested_add]
    exact Behaviour.doLoop_eq ..
  · conv_lhs => unfold enterTraces
    rw [if_neg hkind]

end Loop

def clausesControl (inLoop : Bool) (n : NodeId) : Control :=
  if (a.entries n "clauses").isEmpty then .skip else .anyOf (a.clauseControls inLoop n)

def taskTraces : Task → Behaviour
  | .visit n => .visit n
  | .evaluate n => (a.expressionControl n).traces
  | .execute inLoop n => (a.statementControl inLoop n).traces
  | .test inLoop n => a.testTraces inLoop n
  | .enter inLoop n => a.enterTraces inLoop n
  | .choose inLoop n => (a.clausesControl inLoop n).traces
  | .leave way => .only way

def tasksTraces : List Task → Behaviour
  | [] => .only .falls
  | t :: ts => (a.taskTraces t).seq (tasksTraces ts)

theorem watched_taskTraces (t : Task) : (a.taskTraces t).Watched := by
  cases t with
  | visit n => exact Behaviour.watched_visit n
  | evaluate n => exact Control.watched_traces _
  | execute inLoop n | choose inLoop n => exact Control.watched_traces _
  | test inLoop n => exact a.watched_testTraces inLoop n
  | enter inLoop n =>
    change (a.enterTraces inLoop n).Watched
    have hb := a.watched_bodyTraces n
    have hround : ((a.betweenTraces inLoop n).seq (a.testTraces inLoop n)).Watched := by
      refine .seq ?_ (a.watched_testTraces inLoop n)
      unfold betweenTraces
      split
      · exact Behaviour.watched_only _
      · exact Control.watched_traces _
    constructor
    · rw [enterTraces_eq]
      exact hb.start.trans (le_add_of_nonneg_right zero_le)
    · intro e
      rw [enterTraces_eq]
      exact add_le_add (Behaviour.caught_le e hb) (mul_le_mul_right (hround.before e) _)
  | leave way => exact Behaviour.watched_only _

theorem watched_tasksTraces (ts : List Task) : (a.tasksTraces ts).Watched := by
  induction ts with
  | nil => exact Behaviour.watched_only _
  | cons t ts ih => exact (a.watched_taskTraces t).seq ih

theorem tasksTraces_append (ts us : List Task) :
    a.tasksTraces (ts ++ us) = (a.tasksTraces ts).seq (a.tasksTraces us) := by
  induction ts with
  | nil => exact (Behaviour.only_falls_seq (a.watched_tasksTraces us).start).symm
  | cons t ts ih =>
    rw [List.cons_append, tasksTraces, ih, tasksTraces, Behaviour.seq_assoc]

@[simp]
theorem tasksTraces_singleton (t : Task) : a.tasksTraces [t] = a.taskTraces t :=
  (a.watched_taskTraces t).seq_only_falls

theorem tasksTraces_evaluate (ns : List NodeId) :
    a.tasksTraces (ns.map .evaluate) = (Control.all (ns.map a.expressionControl)).traces := by
  induction ns with
  | nil => rfl
  | cons n ns ih =>
    rw [List.map_cons, tasksTraces, ih]
    rfl

theorem tasksTraces_execute (inLoop : Bool) (ns : List NodeId) :
    a.tasksTraces (ns.map (.execute inLoop))
      = (Control.all (ns.map (a.statementControl inLoop))).traces := by
  induction ns with
  | nil => rfl
  | cons n ns ih =>
    rw [List.map_cons, tasksTraces, ih]
    rfl

theorem tasksTraces_evaluated (n : NodeId) (role : String) :
    a.tasksTraces (a.evaluated n role) = (a.partControl n role).traces := by
  unfold evaluated partControl
  cases a.child? n role with
  | none => rfl
  | some c => exact a.tasksTraces_singleton _

theorem tasksTraces_executed (inLoop : Bool) (n : NodeId) (role : String) :
    a.tasksTraces (a.executed inLoop n role) = (a.bodyPart inLoop n role).traces := by
  unfold executed bodyPart
  cases a.child? n role with
  | none => rfl
  | some c => exact a.tasksTraces_singleton _

theorem tasksTraces_between (inLoop : Bool) (n : NodeId) :
    a.tasksTraces (a.between inLoop n) = a.betweenTraces inLoop n := by
  unfold between betweenTraces
  split
  · rfl
  · exact a.tasksTraces_executed ..

section Unfolding

variable {a} {inLoop : Bool} {n : NodeId} {t : Task} {parts : List Task}
variable {w : List NodeId} {e : Ending}

theorem taskTraces_shortCircuit (h : a.IsShortCircuit n) : a.taskTraces (.evaluate n)
    = a.tasksTraces (a.evaluated n "leftExpression" ++ a.evaluated n "rightExpression" ++ [.visit n])
      + a.tasksTraces (a.evaluated n "leftExpression" ++ [.visit n]) := by
  have heq : a.taskTraces (.evaluate n) = (a.partControl n "leftExpression").traces.seq
      (((a.partControl n "rightExpression").traces + .only .falls).seq (.visit n)) := by
    change (a.expressionControl n).traces = _
    rw [expressionControl_eq, h.1]
    rcases h.2 with htext | htext
    · rw [htext]
      rfl
    · rw [htext]
      rfl
  rw [heq, Behaviour.add_seq, Behaviour.only_falls_seq (Behaviour.watched_visit n).start, Behaviour.seq_add]
  simp only [tasksTraces_append, tasksTraces_evaluated, tasksTraces_singleton, Behaviour.seq_assoc]
  rfl

theorem taskTraces_conditional (h : a.kind n = .conditional) : a.taskTraces (.evaluate n)
    = a.tasksTraces (a.evaluated n "condition" ++ a.evaluated n "trueExpression" ++ [.visit n])
      + if a.partControl n "condition" ≠ .skip then
          a.tasksTraces (a.evaluated n "condition" ++ a.evaluated n "falseExpression" ++ [.visit n])
        else 0 := by
  have heq : a.taskTraces (.evaluate n) = ((a.partControl n "condition").traces.seq
      ((a.partControl n "trueExpression").traces + if a.partControl n "condition" ≠ .skip then
        (a.partControl n "falseExpression").traces else 0)).seq (.visit n) := by
    change (a.expressionControl n).traces = _
    rw [expressionControl_eq, h]
    rfl
  rw [heq]
  simp only [tasksTraces_append, tasksTraces_evaluated, tasksTraces_singleton, Behaviour.seq_assoc]
  split
  · rw [Behaviour.add_seq, Behaviour.seq_add]
    rfl
  · rw [add_zero, add_zero]
    rfl

theorem taskTraces_operands (h : ¬a.IsShortCircuit n) (h' : a.kind n ≠ .conditional) :
    a.taskTraces (.evaluate n) = a.tasksTraces ((a.operands n).map .evaluate ++ [.visit n]) := by
  rw [tasksTraces_append, tasksTraces_evaluate, tasksTraces_singleton]
  change (a.expressionControl n).traces = _
  rw [expressionControl_eq]
  split
  · next hkind =>
    split
    · next htext => exact absurd ⟨hkind, .inl htext⟩ h
    · next htext => exact absurd ⟨hkind, .inr htext⟩ h
    · rfl
  · next hkind => exact absurd hkind h'
  · rfl

theorem taskTraces_if (h : a.kind n = .ifStatement) : a.taskTraces (.execute inLoop n)
    = a.tasksTraces (.visit n :: a.evaluated n "condition" ++ a.executed inLoop n "trueBody")
      + if a.partControl n "condition" ≠ .skip then
          a.tasksTraces (.visit n :: a.evaluated n "condition" ++ a.executed inLoop n "falseBody")
        else 0 := by
  have heq : a.taskTraces (.execute inLoop n) = (Behaviour.visit n).seq
      ((a.partControl n "condition").traces.seq ((a.bodyPart inLoop n "trueBody").traces
        + if a.partControl n "condition" ≠ .skip then (a.bodyPart inLoop n "falseBody").traces else 0)) := by
    change (a.statementControl inLoop n).traces = _
    rw [statementControl_eq, h]
    rfl
  rw [heq]
  simp only [List.cons_append, tasksTraces, tasksTraces_append, tasksTraces_evaluated, tasksTraces_executed]
  split
  · rw [Behaviour.seq_add, Behaviour.seq_add]
    rfl
  · rw [add_zero, add_zero]
    rfl

theorem taskTraces_execute (h : a.Unfolds (.execute inLoop n) parts) (hif : a.kind n ≠ .ifStatement) :
    a.taskTraces (.execute inLoop n) = a.tasksTraces parts := by
  change (a.statementControl inLoop n).traces = _
  rw [statementControl_eq]
  cases h with
  | block hkind =>
    rw [tasksTraces_execute]
    rcases hkind with hkind | hkind <;> rw [hkind]
  | ifTrue hkind | ifFalse hkind => exact absurd hkind hif
  | loop hkind =>
    have hdo : a.kind n ≠ .doWhileStatement := by
      rcases hkind with hkind | hkind <;> simp [hkind]
    rw [List.cons_append, tasksTraces, tasksTraces_append, tasksTraces_executed, tasksTraces_singleton]
    simp only [taskTraces, testTraces]
    rcases hkind with hkind | hkind <;> rw [hkind] <;> rfl
  | doLoop hkind =>
    rw [tasksTraces, tasksTraces_singleton]
    simp only [taskTraces, enterTraces]
    rw [hkind]
    rfl
  | attempt hkind =>
    rw [List.cons_append, tasksTraces, tasksTraces_append, tasksTraces_evaluated, tasksTraces_singleton, hkind]
    rfl
  | returns hkind =>
    rw [tasksTraces_append, tasksTraces_evaluated, tasksTraces, tasksTraces_singleton, hkind]
    rfl
  | reverts hkind =>
    rw [tasksTraces_append, tasksTraces_evaluated, tasksTraces, tasksTraces_singleton]
    rcases hkind with hkind | hkind <;> rw [hkind] <;> rfl
  | breaks hkind | continues hkind =>
    rw [tasksTraces, tasksTraces_singleton, hkind]
    rfl
  | ignored hkind => rcases hkind with hkind | hkind <;> rw [hkind] <;> rfl
  | expression hkind hrevert =>
    rw [tasksTraces_append, tasksTraces_evaluated, hkind]
    rw [hrevert]
    rfl
  | revertCall hkind hrevert =>
    rw [tasksTraces_append, tasksTraces_evaluated, tasksTraces, tasksTraces_singleton, hkind]
    rw [hrevert]
    rfl
  | declaration hkind | emit hkind =>
    rw [tasksTraces_append, tasksTraces_evaluated, tasksTraces_singleton, hkind]
    rfl
  | other hkind =>
    rw [tasksTraces_singleton]
    split
    case h_13 => exact (Behaviour.watched_visit n).seq_only_falls
    case h_17 => rfl
    all_goals next hk => simp [hk, Kind.isStructured] at hkind

theorem mem_traces_anyOf {cs : List Control} :
    w ∈ (Control.anyOf cs).traces e ↔ w = [] ∧ e = .underway ∨ ∃ c ∈ cs, w ∈ c.traces e := by
  induction cs with
  | nil =>
    change w ∈ Behaviour.only .underway e ↔ _
    rw [Behaviour.mem_only_iff]
    simp
  | cons c cs ih =>
    change w ∈ c.traces e + (Control.anyOf cs).traces e ↔ _
    rw [Language.mem_add, ih, or_left_comm]
    simp

theorem mem_traces_choose : w ∈ a.taskTraces (.choose inLoop n) e ↔
    w = [] ∧ e = .underway ∨ ∃ parts, a.Unfolds (.choose inLoop n) parts ∧ w ∈ a.tasksTraces parts e := by
  change w ∈ (a.clausesControl inLoop n).traces e ↔ _
  unfold clausesControl
  split
  · next hempty =>
    rw [List.isEmpty_iff] at hempty
    constructor
    · intro hw
      exact .inr ⟨[], .noClause hempty, hw⟩
    · rintro (⟨rfl, rfl⟩ | ⟨parts, hparts, hw⟩)
      · exact Behaviour.mem_only_iff.2 ⟨rfl, .inr rfl⟩
      · cases hparts with
        | clause hc => simp [hempty] at hc
        | noClause _ => exact hw
  · next hempty =>
    rw [List.isEmpty_iff] at hempty
    rw [mem_traces_anyOf]
    have hclause : ∀ i c, (a.clauseControl inLoop i c).traces
        = a.tasksTraces (.visit c :: a.executed inLoop c "block") := by
      intro i c
      rw [tasksTraces, tasksTraces_executed]
      rfl
    apply or_congr_right
    unfold clauseControls
    simp only [List.mem_filterMap, Option.map_eq_some_iff]
    constructor
    · rintro ⟨_, ⟨⟨_, i⟩, hmem, c, rfl, rfl⟩, hw⟩
      rw [hclause] at hw
      exact ⟨_, .clause (List.fst_mem_of_mem_zipIdx hmem), hw⟩
    · rintro ⟨parts, hparts, hw⟩
      cases hparts with
      | @clause _ _ c hc =>
        obtain ⟨i, hi⟩ := List.mem_iff_getElem?.1 hc
        refine ⟨_, ⟨(some c, i), List.mem_zipIdx_iff_getElem?.2 hi, c, rfl, rfl⟩, ?_⟩
        rw [hclause]
        exact hw
      | noClause h => exact absurd h hempty

theorem exists_unfolds_execute (inLoop : Bool) (n : NodeId) : ∃ parts, a.Unfolds (.execute inLoop n) parts := by
  cases hkind : a.kind n
  case block => exact ⟨_, .block (.inl hkind)⟩
  case uncheckedBlock => exact ⟨_, .block (.inr hkind)⟩
  case ifStatement => exact ⟨_, .ifTrue hkind⟩
  case forStatement => exact ⟨_, .loop (.inl hkind)⟩
  case whileStatement => exact ⟨_, .loop (.inr hkind)⟩
  case doWhileStatement => exact ⟨_, .doLoop hkind⟩
  case tryStatement => exact ⟨_, .attempt hkind⟩
  case returnStatement => exact ⟨_, .returns hkind⟩
  case revertStatement => exact ⟨_, .reverts (.inl hkind)⟩
  case throwStatement => exact ⟨_, .reverts (.inr hkind)⟩
  case breakStatement =>
    cases inLoop with
    | true => exact ⟨_, .breaks hkind⟩
    | false => exact ⟨_, .ignored (.inl hkind)⟩
  case continueStatement =>
    cases inLoop with
    | true => exact ⟨_, .continues hkind⟩
    | false => exact ⟨_, .ignored (.inr hkind)⟩
  case expressionStatement =>
    cases hrevert : (a.child? n "expression").any a.isRevertCall with
    | true => exact ⟨_, .revertCall hkind hrevert⟩
    | false => exact ⟨_, .expression hkind hrevert⟩
  case variableDeclarationStatement => exact ⟨_, .declaration hkind⟩
  case emitStatement => exact ⟨_, .emit hkind⟩
  all_goals exact ⟨_, .other (by rw [hkind]; rfl)⟩

theorem tasksTraces_le_evaluate (h : a.Unfolds (.evaluate n) parts) :
    a.tasksTraces parts ≤ a.taskTraces (.evaluate n) := by
  cases h with
  | both hn =>
    rw [taskTraces_shortCircuit hn]
    exact le_add_of_nonneg_right zero_le
  | skipped hn =>
    rw [taskTraces_shortCircuit hn]
    exact le_add_of_nonneg_left zero_le
  | chooseTrue hkind =>
    rw [taskTraces_conditional hkind]
    exact le_add_of_nonneg_right zero_le
  | chooseFalse hkind hfail =>
    rw [taskTraces_conditional hkind, if_pos ((a.partControl_ne_skip_iff n).2 hfail)]
    exact le_add_of_nonneg_left zero_le
  | operands hn hkind => exact (taskTraces_operands hn hkind).ge

theorem tasksTraces_le_execute (h : a.Unfolds (.execute inLoop n) parts) :
    a.tasksTraces parts ≤ a.taskTraces (.execute inLoop n) := by
  by_cases hif : a.kind n = .ifStatement
  · rw [taskTraces_if hif]
    cases h with
    | ifTrue hkind => exact le_add_of_nonneg_right zero_le
    | ifFalse hkind hfail =>
      rw [if_pos ((a.partControl_ne_skip_iff n).2 hfail)]
      exact le_add_of_nonneg_left zero_le
    | _ => simp_all [Kind.isStructured]
  · exact (taskTraces_execute h hif).ge

theorem tasksTraces_le_test (h : a.Unfolds (.test inLoop n) parts) :
    a.tasksTraces parts ≤ a.taskTraces (.test inLoop n) := by
  change _ ≤ a.testTraces inLoop n
  rw [testTraces_eq]
  cases h with
  | testTrue =>
    rw [tasksTraces_append, tasksTraces_evaluated, tasksTraces_singleton]
    exact le_add_of_nonneg_right zero_le
  | testFalse hfail =>
    rw [if_pos ((a.partControl_ne_skip_iff n).2 hfail), tasksTraces_evaluated]
    exact le_add_of_nonneg_left zero_le

theorem tasksTraces_le_of_unfolds (h : a.Unfolds t parts) : a.tasksTraces parts ≤ a.taskTraces t := by
  cases t with
  | evaluate n => exact tasksTraces_le_evaluate h
  | execute inLoop n => exact tasksTraces_le_execute h
  | test inLoop n => exact tasksTraces_le_test h
  | choose inLoop n => exact fun e w hw => mem_traces_choose.2 (.inr ⟨parts, h, hw⟩)
  | visit n => cases h
  | enter inLoop n => cases h
  | leave way => cases h

theorem exists_unfolds_of_mem_evaluate (hw : w ∈ a.taskTraces (.evaluate n) e) :
    ∃ parts, a.Unfolds (.evaluate n) parts ∧ w ∈ a.tasksTraces parts e := by
  by_cases hn : a.IsShortCircuit n
  · rw [taskTraces_shortCircuit hn] at hw
    rcases hw with hw | hw
    · exact ⟨_, .both hn, hw⟩
    · exact ⟨_, .skipped hn, hw⟩
  by_cases hkind : a.kind n = .conditional
  · rw [taskTraces_conditional hkind] at hw
    rcases hw with hw | hw
    · exact ⟨_, .chooseTrue hkind, hw⟩
    · split at hw
      · next hfail => exact ⟨_, .chooseFalse hkind ((a.partControl_ne_skip_iff n).1 hfail), hw⟩
      · exact hw.elim
  · exact ⟨_, .operands hn hkind, taskTraces_operands hn hkind ▸ hw⟩

theorem exists_unfolds_of_mem_execute (hw : w ∈ a.taskTraces (.execute inLoop n) e) :
    ∃ parts, a.Unfolds (.execute inLoop n) parts ∧ w ∈ a.tasksTraces parts e := by
  by_cases hif : a.kind n = .ifStatement
  · rw [taskTraces_if hif] at hw
    rcases hw with hw | hw
    · exact ⟨_, .ifTrue hif, hw⟩
    · split at hw
      · next hfail => exact ⟨_, .ifFalse hif ((a.partControl_ne_skip_iff n).1 hfail), hw⟩
      · exact hw.elim
  · obtain ⟨parts, hparts⟩ := exists_unfolds_execute (a := a) inLoop n
    exact ⟨parts, hparts, taskTraces_execute hparts hif ▸ hw⟩

end Unfolding

end Arena

end ContractFlow
