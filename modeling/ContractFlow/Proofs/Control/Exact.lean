import ContractFlow.Proofs.Control.Meaning
import ContractFlow.Proofs.Control.Program
import ContractFlow.Proofs.Control.Trace

/-!
This module shows that control flow graphs are exact: their runs are the executions of the bodies that they
are made from.
-/

open Computability

namespace ContractFlow

namespace Arena

variable {a : Arena} {inLoop : Bool} {n : NodeId} {t : Task} {ts us todo : List Task}

theorem enterTraces_seq (R : Behaviour) : (a.enterTraces inLoop n).seq R
    = (a.bodyTraces n).caught.seq R
      + (((a.betweenTraces inLoop n).seq (a.testTraces inLoop n)).seq R).after (a.bodyTraces n).latch := by
  rw [enterTraces_eq, Behaviour.add_seq, Behaviour.after_seq]

theorem Performs.mem_tasksTraces {w : List NodeId} {e : Ending} (h : a.Performs todo w e) :
    w ∈ a.tasksTraces todo e := by
  induction h with
  | @cut todo => exact (a.watched_tasksTraces todo).start rfl
  | done => exact Behaviour.mem_only_iff.2 ⟨rfl, .inl rfl⟩
  | @visit n todo w e _ ih =>
    exact Behaviour.mem_seq_iff.2 (.inr ⟨[n], rfl, w, ih, rfl⟩)
  | @leave way todo hway =>
    change [] ∈ (Behaviour.only way).seq _ way
    rw [Behaviour.only_seq hway]
    exact Behaviour.mem_only_iff.2 ⟨rfl, .inl rfl⟩
  | unfold hparts _ ih =>
    rw [tasksTraces_append] at ih
    exact Behaviour.seq_mono_left _ (tasksTraces_le_of_unfolds hparts) _ ih
  | @again l n todo w w' e e' _ he _ ih ih' =>
    change _ ∈ (a.enterTraces l n).seq _ e'
    rw [enterTraces_seq]
    refine .inr (Language.append_mem_mul ?_ ?_)
    · rw [tasksTraces_executed] at ih
      rcases he with rfl | rfl
      · exact .inl ih
      · exact .inr ih
    · rw [tasksTraces_append, tasksTraces_between] at ih'
      rw [Behaviour.seq_assoc]
      exact ih'
  | @broken l n todo w w' e _ _ ih ih' =>
    change _ ∈ (a.enterTraces l n).seq _ e
    rw [enterTraces_seq]
    rw [tasksTraces_executed] at ih
    exact .inl (Behaviour.after_le_seq _ _ e (Language.append_mem_mul ih ih'))
  | @inside l n todo w e _ he ih =>
    change _ ∈ (a.enterTraces l n).seq _ e
    rw [enterTraces_seq]
    rw [tasksTraces_executed] at ih
    refine .inl (Behaviour.early_le_seq _ _ e ?_)
    rcases he with rfl | rfl | rfl <;> exact ih

def performing (a : Arena) (todo : List Task) : Behaviour := fun e =>
  {w | a.Performs todo w e}

theorem one_le_performing (a : Arena) (todo : List Task) : 1 ≤ a.performing todo .underway := by
  rintro _ rfl
  exact .cut

def Performable (a : Arena) (ts : List Task) : Prop :=
  ∀ todo, (a.tasksTraces ts).seq (a.performing todo) ≤ a.performing (ts ++ todo)

namespace Performable

theorem nil : a.Performable [] :=
  fun todo => (Behaviour.only_falls_seq (a.one_le_performing todo)).le

theorem append (hts : a.Performable ts) (hus : a.Performable us) : a.Performable (ts ++ us) := by
  intro todo
  rw [tasksTraces_append, Behaviour.seq_assoc, List.append_assoc]
  exact (Behaviour.seq_mono _ (hus todo) _).trans (hts (us ++ todo))

theorem cons (ht : a.Performable [t]) (hts : a.Performable ts) : a.Performable (t :: ts) :=
  ht.append hts

theorem map {f : NodeId → Task} {ns : List NodeId} (h : ∀ n ∈ ns, a.Performable [f n]) : a.Performable (ns.map f) := by
  induction ns with
  | nil => exact nil
  | cons n ns ih =>
    exact (h n List.mem_cons_self).cons (ih fun m hm => h m (List.mem_cons_of_mem n hm))

theorem tasksTraces_le (h : a.Performable ts) : a.tasksTraces ts ≤ a.performing ts := by
  have hdone : Behaviour.only .falls ≤ a.performing [] := by
    intro e w hw
    obtain ⟨rfl, rfl | rfl⟩ := Behaviour.mem_only_iff.1 hw
    · exact .done
    · exact .cut
  calc a.tasksTraces ts = (a.tasksTraces ts).seq (.only .falls) :=
        (a.watched_tasksTraces ts).seq_only_falls.symm
    _ ≤ (a.tasksTraces ts).seq (a.performing []) := Behaviour.seq_mono _ hdone _
    _ ≤ a.performing (ts ++ []) := h []
    _ = a.performing ts := by rw [List.append_nil]

theorem visit (n : NodeId) : a.Performable [.visit n] := by
  intro todo e w hw
  rw [tasksTraces_singleton] at hw
  obtain ⟨he, hw⟩ | ⟨_, rfl, v, hv, rfl⟩ := Behaviour.mem_seq_iff.1 hw
  · cases e with
    | falls => exact absurd rfl he
    | underway =>
      rcases hw with rfl | rfl
      · exact .cut
      · exact .visit .cut
    | _ => exact hw.elim
  · exact .visit hv

theorem leave {way : Ending} (h : way ≠ .falls) : a.Performable [.leave way] := by
  intro todo e w hw
  rw [tasksTraces_singleton] at hw
  change w ∈ (Behaviour.only way).seq _ e at hw
  rw [Behaviour.only_seq h] at hw
  obtain ⟨rfl, rfl | rfl⟩ := Behaviour.mem_only_iff.1 hw
  · exact .leave h
  · exact .cut

theorem of_unfolds (hparts : ∀ parts, a.Unfolds t parts → a.Performable parts)
    (h : ∀ w e, w ∈ a.taskTraces t e → w = [] ∧ e = .underway ∨
      ∃ parts, a.Unfolds t parts ∧ w ∈ a.tasksTraces parts e) : a.Performable [t] := by
  intro todo
  have hunfold : ∀ parts, a.Unfolds t parts →
      (a.tasksTraces parts).seq (a.performing todo) ≤ a.performing (t :: todo) :=
    fun parts ht e w hw => .unfold ht (hparts parts ht todo e hw)
  intro e w hw
  rw [tasksTraces_singleton] at hw
  obtain ⟨he, hw⟩ | ⟨u, hu, v, hv, rfl⟩ := Behaviour.mem_seq_iff.1 hw
  · obtain ⟨rfl, rfl⟩ | ⟨parts, ht, hw⟩ := h w e hw
    · exact .cut
    · exact hunfold parts ht e (Behaviour.mem_seq_iff.2 (.inl ⟨he, hw⟩))
  · obtain ⟨-, hfalls⟩ | ⟨parts, ht, hu⟩ := h u .falls hu
    · cases hfalls
    · exact hunfold parts ht e (Behaviour.mem_seq_iff.2 (.inr ⟨u, hu, v, hv, rfl⟩))

theorem evaluate (n : NodeId) : a.Performable [.evaluate n] := by
  induction n using a.induction_behind with
  | step n ih =>
    have hpart : ∀ role, a.Performable (a.evaluated n role) := by
      intro role
      refine map fun m hm => ?_
      have hlt := a.lt_of_child? (Option.mem_toList.1 hm)
      exact ih m hlt.1 hlt.2
    apply of_unfolds
    · intro parts hparts
      cases hparts with
      | both _ | chooseTrue _ | chooseFalse _ _ => exact ((hpart _).append (hpart _)).append (visit n)
      | skipped _ => exact (hpart _).append (visit n)
      | operands _ _ =>
        refine append (map fun m hm => ?_) (visit n)
        have hlt := a.lt_of_mem_operands hm
        exact ih m hlt.1 hlt.2
    · exact fun w e hw => .inr (exists_unfolds_of_mem_evaluate hw)

theorem evaluated (n : NodeId) (role : String) : a.Performable (a.evaluated n role) :=
  map fun m _ => evaluate m

section Loop

variable (hbody : a.Performable (a.executed true n "body"))

include hbody in
theorem caught_seq_le : (a.bodyTraces n).caught.seq (a.performing todo) ≤ a.performing (.enter inLoop n :: todo) := by
  have hle : a.bodyTraces n ≤ a.performing (a.executed true n "body") := by
    unfold bodyTraces
    rw [← tasksTraces_executed]
    exact hbody.tasksTraces_le
  intro e w hw
  obtain ⟨he, hw⟩ | ⟨u, hu, v, hv, rfl⟩ := Behaviour.mem_seq_iff.1 hw
  · cases e with
    | falls => exact absurd rfl he
    | breaks | continues => exact hw.elim
    | returns => exact .inside (hle _ hw) (.inl rfl)
    | reverts => exact .inside (hle _ hw) (.inr (.inl rfl))
    | underway => exact .inside (hle _ hw) (.inr (.inr rfl))
  · exact .broken (hle _ hu) hv

theorem conditionTraces_seq_le : (a.conditionTraces n).seq (a.performing (.enter inLoop n :: todo))
    ≤ a.performing (.test inLoop n :: todo) := by
  intro e w hw
  apply Performs.unfold .testTrue
  rw [List.append_assoc]
  unfold conditionTraces at hw
  rw [← tasksTraces_evaluated] at hw
  exact evaluated n _ _ e hw

theorem conditionTraces_seq_le_of_mayFail (h : a.MayFail n) :
    (a.conditionTraces n).seq (a.performing todo) ≤ a.performing (.test inLoop n :: todo) := by
  intro e w hw
  apply Performs.unfold (.testFalse h)
  unfold conditionTraces at hw
  rw [← tasksTraces_evaluated] at hw
  exact evaluated n _ _ e hw

include hbody in
theorem betweenTraces_seq_le (hbetween : a.Performable (a.between inLoop n)) :
    ((a.betweenTraces inLoop n).seq (a.performing (.test inLoop n :: todo))).after (a.bodyTraces n).latch
      ≤ a.performing (.enter inLoop n :: todo) := by
  intro e w hw
  obtain ⟨u, hu, v, hv, rfl⟩ := Language.mem_mul.1 hw
  rw [← tasksTraces_between] at hv
  have hnext : a.Performs (a.between inLoop n ++ .test inLoop n :: todo) v e := hbetween _ e hv
  unfold bodyTraces at hu
  rw [← tasksTraces_executed] at hu
  rcases hu with hu | hu
  · exact .again (hbody.tasksTraces_le _ hu) (.inl rfl) hnext
  · exact .again (hbody.tasksTraces_le _ hu) (.inr rfl) hnext

include hbody

theorem test (hnext : a.Performable (a.executed inLoop n "loopExpression"))
    (hkind : a.kind n ≠ .doWhileStatement) : a.Performable [.test inLoop n] := by
  intro todo
  have hbetween : a.Performable (a.between inLoop n) := by
    unfold between
    rw [if_neg hkind]
    exact hnext
  have hagain : _ ≤ a.performing (.enter inLoop n :: todo) := betweenTraces_seq_le hbody hbetween
  rw [tasksTraces_singleton]
  simp only [taskTraces, testTraces, betweenTraces, if_neg hkind] at hagain ⊢
  exact Behaviour.loop_seq_le (caught_seq_le hbody) conditionTraces_seq_le
    (fun h => conditionTraces_seq_le_of_mayFail ((a.partControl_ne_skip_iff n).1 h)) hagain

theorem enter (hkind : a.kind n = .doWhileStatement) : a.Performable [.enter inLoop n] := by
  intro todo
  have hbetween : a.Performable (a.between inLoop n) := by
    unfold between
    rw [if_pos hkind]
    exact nil
  have hagain : _ ≤ a.performing (.enter inLoop n :: todo) := betweenTraces_seq_le hbody hbetween
  rw [tasksTraces_singleton]
  simp only [taskTraces, enterTraces, betweenTraces, if_pos hkind] at hagain ⊢
  rw [Behaviour.only_falls_seq (a.one_le_performing _)] at hagain
  exact Behaviour.doLoop_seq_le (caught_seq_le hbody) conditionTraces_seq_le
    (fun h => conditionTraces_seq_le_of_mayFail ((a.partControl_ne_skip_iff n).1 h)) hagain

end Loop

section Statement

variable (ih : ∀ m, n < m → m < a.size → ∀ inLoop, a.Performable [.execute inLoop m])

include ih

theorem executed (inLoop : Bool) (role : String) : a.Performable (a.executed inLoop n role) := by
  refine map fun m hm => ?_
  have hlt := a.lt_of_child? (Option.mem_toList.1 hm)
  exact ih m hlt.1 hlt.2 inLoop

theorem choose (inLoop : Bool) : a.Performable [.choose inLoop n] := by
  apply of_unfolds
  · intro parts hparts
    cases hparts with
    | @clause _ _ c hc =>
      have hlt := a.lt_of_mem_entries hc
      exact cons (visit c) (executed (fun m hm => ih m (hlt.1.trans hm)) inLoop "block")
    | noClause _ => exact nil
  · exact fun w e hw => mem_traces_choose.1 hw

theorem of_unfolds_execute {parts : List Task} (h : a.Unfolds (.execute inLoop n) parts) : a.Performable parts := by
  cases h with
  | block _ =>
    refine map fun m hm => ?_
    have hlt := a.lt_of_mem_items hm
    exact ih m hlt.1 hlt.2 inLoop
  | ifTrue _ | ifFalse _ _ => exact cons (visit n) ((evaluated n _).append (executed ih inLoop _))
  | loop hkind =>
    have hdo : a.kind n ≠ .doWhileStatement := by
      rcases hkind with hkind | hkind <;> simp [hkind]
    exact cons (visit n) ((executed ih inLoop _).append
      (test (executed ih true _) (executed ih inLoop _) hdo))
  | doLoop hkind => exact cons (visit n) (enter (executed ih true _) hkind)
  | attempt _ => exact cons (visit n) ((evaluated n _).append (choose ih inLoop))
  | returns _ | reverts _ | revertCall _ _ => exact (evaluated n _).append (cons (visit n) (leave (by simp)))
  | breaks _ | continues _ => exact cons (visit n) (leave (by simp))
  | ignored _ | other _ => exact visit n
  | expression _ _ | declaration _ | emit _ => exact (evaluated n _).append (visit n)

end Statement

theorem execute (inLoop : Bool) (n : NodeId) : a.Performable [.execute inLoop n] := by
  induction n using a.induction_behind generalizing inLoop with
  | step n ih =>
    apply of_unfolds
    · exact fun parts hparts => of_unfolds_execute ih hparts
    · exact fun w e hw => .inr (exists_unfolds_of_mem_execute hw)

end Performable

theorem performs_execute_iff {ns : List NodeId} {w : List NodeId} {e : Ending} :
    a.Performs (ns.map (.execute inLoop)) w e ↔ w ∈ a.tasksTraces (ns.map (.execute inLoop)) e := by
  have hle := (Performable.map fun n (_ : n ∈ ns) => Performable.execute (a := a) inLoop n).tasksTraces_le
  exact ⟨Performs.mem_tasksTraces, fun hw => hle e hw⟩

theorem tasksTraces_body (body : Option NodeId) :
    a.tasksTraces (body.toList.map (.execute false)) = (a.bodyControl body).traces := by
  cases body with
  | none => rfl
  | some n => exact a.tasksTraces_singleton _

end Arena

def Task.IsOutside : Task → Prop
  | .visit _ | .evaluate _ => True
  | .execute inLoop _ | .test inLoop _ | .enter inLoop _ | .choose inLoop _ => inLoop = false
  | .leave way => way ≠ .breaks ∧ way ≠ .continues

namespace Arena

variable {a : Arena} {t : Task} {parts todo : List Task}

theorem isOutside_between (n : NodeId) : ∀ t ∈ a.between false n, t.IsOutside := by
  unfold between executed
  split
  · simp
  · exact List.forall_mem_map.2 fun m _ => rfl

theorem Unfolds.isOutside (h : a.Unfolds t parts) (ht : t.IsOutside) : ∀ p ∈ parts, p.IsOutside := by
  cases h with
  | breaks _ => cases ht
  | continues _ => cases ht
  | _ =>
    cases ht
    simp [evaluated, executed, Task.IsOutside, or_imp, forall_and]

theorem Performs.ne_of_isOutside {w : List NodeId} {e : Ending} (h : a.Performs todo w e)
    (htodo : ∀ t ∈ todo, t.IsOutside) : e ≠ .breaks ∧ e ≠ .continues := by
  induction h with
  | cut => simp
  | done => simp
  | visit _ ih => exact ih (List.forall_mem_cons.1 htodo).2
  | leave _ => exact (List.forall_mem_cons.1 htodo).1
  | unfold hparts _ ih =>
    obtain ⟨ht, hrest⟩ := List.forall_mem_cons.1 htodo
    exact ih (List.forall_mem_append.2 ⟨hparts.isOutside ht, hrest⟩)
  | again _ _ _ _ ih =>
    obtain ⟨rfl, hrest⟩ := List.forall_mem_cons.1 htodo
    exact ih (List.forall_mem_append.2 ⟨isOutside_between _, List.forall_mem_cons.2 ⟨rfl, hrest⟩⟩)
  | broken _ _ _ ih => exact ih (List.forall_mem_cons.1 htodo).2
  | inside _ he _ => rcases he with rfl | rfl | rfl <;> simp

end Arena

namespace ControlFlow

/--
Runs to the exit of the graph of a callable visit what an execution of its body visits up to its end, and all runs what
an execution has visited so far.
-/
theorem runs_are_executions (c : ControlFlow) (f : CallableId)
    (h : c.plan.control.contains (c.qualifiedName f) = false) :
    ∃ g, (c.controlGraph? false f).outcome = .ok (some g) ∧ ∀ w,
      ((∃ path, g.Run path Draft.exit ∧ g.trace path = w) ↔
        ∃ e, e ≠ .underway ∧
          c.arena.Performs ((c.callableD f).body.toList.map (.execute false)) w e) ∧
      ((∃ path i, g.Run path i ∧ g.trace path = w) ↔
        c.arena.Performs ((c.callableD f).body.toList.map (.execute false)) w .underway) := by
  have hperforms : ∀ w e, c.arena.Performs ((c.callableD f).body.toList.map (.execute false)) w e ↔
      w ∈ (c.control f).traces e := by
    intro w e
    rw [Arena.performs_execute_iff, Arena.tasksTraces_body]
    rfl
  have houtside : ∀ t ∈ (c.callableD f).body.toList.map (Task.execute false), t.IsOutside := by
    intro t ht
    obtain ⟨n, -, rfl⟩ := List.mem_map.1 ht
    rfl
  refine ⟨_, outcome_controlGraph? h rfl, fun w => ⟨?_, ?_⟩⟩
  · rw [ControlGraph.runs_to_exit_iff, ← hperforms, ← hperforms, ← hperforms]
    constructor
    · rintro (hw | hw | hw)
      · exact ⟨_, by simp, hw⟩
      · exact ⟨_, by simp, hw⟩
      · exact ⟨_, by simp, hw⟩
    · rintro ⟨e, he, hw⟩
      obtain ⟨hbreaks, hcontinues⟩ := hw.ne_of_isOutside houtside
      cases e with
      | falls => exact .inl hw
      | returns => exact .inr (.inl hw)
      | reverts => exact .inr (.inr hw)
      | breaks => exact absurd rfl hbreaks
      | continues => exact absurd rfl hcontinues
      | underway => exact absurd rfl he
  · rw [ControlGraph.runs_iff, hperforms]

end ControlFlow

theorem Sample.body_returns :
    Sample.program.plan.control.contains (Sample.program.qualifiedName 0) = false ∧
      ∃ e, e ≠ .underway ∧
        Sample.program.arena.Performs [.execute false 3] [4, 5, 11, 10] e := by
  refine ⟨rfl, ?_⟩
  obtain ⟨g, hg, h⟩ := ControlFlow.runs_are_executions Sample.program 0 rfl
  rw [Sample.controlGraph?_eq] at hg
  cases hg
  refine (h [4, 5, 11, 10]).1.1 ⟨_, Sample.run_exit, ?_⟩
  decide +kernel

end ContractFlow
