import ContractFlow.Proofs.Control.Execution
import ContractFlow.Proofs.Control.Part

/-!
This module shows that from each part of an expression a run can go on to the expression without coming to the part
again.
-/

namespace ContractFlow

namespace Control

variable {c first second condition yes no : Control} {n : NodeId}

def Passable (c : Control) : Prop :=
  ∃ w ∈ c.traces .falls, ∀ m ∈ w, m ∈ c.visits

theorem passable_skip : skip.Passable :=
  ⟨[], Behaviour.mem_only_iff.2 ⟨rfl, .inl rfl⟩, by simp⟩

theorem mem_traces_visit (n : NodeId) : [n] ∈ (visit n).traces .falls :=
  rfl

theorem passable_visit (n : NodeId) : (visit n).Passable :=
  ⟨[n], mem_traces_visit n, fun _ hm => hm⟩

namespace Passable

theorem seq (h₁ : first.Passable) (h₂ : second.Passable) : (seq first second).Passable := by
  obtain ⟨u, hu, hfirst⟩ := h₁
  obtain ⟨v, hv, hsecond⟩ := h₂
  refine ⟨u ++ v, Behaviour.mem_seq_iff.2 (.inr ⟨u, hu, v, hv, rfl⟩), fun m hm => ?_⟩
  exact List.mem_append.2 ((List.mem_append.1 hm).imp (hfirst m) (hsecond m))

theorem right (h : second.Passable) : (either first second).Passable := by
  obtain ⟨w, hw, hmem⟩ := h
  exact ⟨w, .inr hw, fun m hm => List.mem_append_right _ (hmem m hm)⟩

theorem branch (h₁ : condition.Passable) (h₂ : yes.Passable) : (branch condition yes no).Passable := by
  obtain ⟨u, hu, hcondition⟩ := h₁
  obtain ⟨v, hv, hyes⟩ := h₂
  refine ⟨u ++ v, Behaviour.mem_seq_iff.2 (.inr ⟨u, hu, v, .inl hv, rfl⟩), fun m hm => List.mem_append_left _ ?_⟩
  exact List.mem_append.2 ((List.mem_append.1 hm).imp (hcondition m) (hyes m))

end Passable

theorem lifts_passable : Lifts Passable where
  skip := passable_skip
  visit := passable_visit
  seq := .seq
  short _ _ _ := .right passable_skip
  branch hcondition hyes _ := hcondition.branch hyes

end Control

namespace Arena

variable {a : Arena} {n m p c : NodeId} {role : String}

theorem finishes_expressionControl (a : Arena) (n : NodeId) : (a.expressionControl n).Finishes n [] := by
  rw [expressionControl_eq]
  split
  · split
    · exact .second (.second .visit)
    · exact .second (.second .visit)
    · exact .second .visit
  · exact .second .visit
  · exact .second .visit

theorem exists_finishes_all {cs : List NodeId} (hnodup : cs.Nodup) (hc : c ∈ cs) :
    ∃ w, (Control.all (cs.map a.expressionControl)).Finishes c w ∧
      ∀ m ∈ w, ∃ c' ∈ cs, c' ≠ c ∧ m ∈ (a.expressionControl c').visits := by
  induction cs with
  | nil => simp at hc
  | cons b cs ih =>
    obtain ⟨hb, hcs⟩ := List.nodup_cons.1 hnodup
    rcases List.mem_cons.1 hc with rfl | hc
    · have hrest : (Control.all (cs.map a.expressionControl)).Passable := by
        refine Control.lifts_passable.all fun e he => ?_
        obtain ⟨d, -, rfl⟩ := List.mem_map.1 he
        exact Control.lifts_passable.expression a d
      obtain ⟨w, hw, hvisits⟩ := hrest
      refine ⟨[] ++ w, .first (a.finishes_expressionControl c) hw, fun m hm => ?_⟩
      have hm := hvisits m hm
      rw [Control.visits_all, List.flatMap_map, List.mem_flatMap] at hm
      obtain ⟨c', hc', hm⟩ := hm
      exact ⟨c', List.mem_cons_of_mem _ hc', fun heq => hb (heq ▸ hc'), hm⟩
    · obtain ⟨w, hw, hvisits⟩ := ih hcs hc
      refine ⟨w, .second hw, fun m hm => ?_⟩
      obtain ⟨c', hc', hne, hm⟩ := hvisits m hm
      exact ⟨c', List.mem_cons_of_mem _ hc', hne, hm⟩

theorem exists_finishes_operands (hc : c ∈ a.operands n) : ∃ w, c ∉ w ∧
    (Control.seq (.all ((a.operands n).map a.expressionControl)) (.visit n)).Finishes c (w ++ [n]) := by
  obtain ⟨w, hw, hvisits⟩ := exists_finishes_all (a := a) (a.nodup_operands n) hc
  refine ⟨w, fun hmem => ?_, .first hw (Control.mem_traces_visit n)⟩
  obtain ⟨c', hc', hne, hmem⟩ := hvisits c hmem
  have hbelow := (a.stays_expressionControl c').below c hmem
  exact hne (hbelow.unique .refl (parent?_of_mem_operands hc') (parent?_of_mem_operands hc))

inductive IsControl (a : Arena) (n : NodeId) : Control → Prop
  | expression : IsControl a n (a.expressionControl n)
  | statement (inLoop : Bool) : IsControl a n (a.statementControl inLoop n)

def Covered (a : Arena) (p : NodeId) (k : Control) : Prop :=
  ∀ n ∈ k.visits, n ≠ p → ∃ c k', a.parent? c = some p ∧ a.IsControl c k' ∧ n ∈ k'.visits ∧ k'.IsPart k

namespace Covered

variable {k first second condition yes no body next : Control}

theorem of_parts (h : ∀ n ∈ k.visits, ∃ k', k'.IsPart k ∧ n ∈ k'.visits ∧ a.Covered p k') : a.Covered p k := by
  intro n hn hne
  obtain ⟨k', hpart, hn', hk'⟩ := h n hn
  obtain ⟨c, k'', hc, hcontrol, hmem, hpart'⟩ := hk' n hn' hne
  exact ⟨c, k'', hc, hcontrol, hmem, hpart'.trans hpart⟩

theorem idle (h : k.visits = []) : a.Covered p k := by
  intro n hn
  simp [h] at hn

theorem visit (a : Arena) (p : NodeId) : a.Covered p (.visit p) :=
  fun _ hn hne => absurd (List.mem_singleton.1 hn) hne

theorem child (hc : a.parent? c = some p) (hk : a.IsControl c k) : a.Covered p k :=
  fun _ hn _ => ⟨c, k, hc, hk, hn, .refl⟩

theorem seq (h₁ : a.Covered p first) (h₂ : a.Covered p second) : a.Covered p (.seq first second) :=
  of_parts fun _ hn => (List.mem_append.1 hn).elim (fun hn => ⟨_, .first .refl, hn, h₁⟩)
    fun hn => ⟨_, .second .refl, hn, h₂⟩

theorem either (h₁ : a.Covered p first) (h₂ : a.Covered p second) : a.Covered p (.either first second) :=
  of_parts fun _ hn => (List.mem_append.1 hn).elim (fun hn => ⟨_, .left .refl, hn, h₁⟩)
    fun hn => ⟨_, .right .refl, hn, h₂⟩

theorem label (h : a.Covered p k) (kind : EdgeKind) : a.Covered p (.label kind k) :=
  of_parts fun _ hn => ⟨k, .label .refl, hn, h⟩

theorem join (h : a.Covered p k) : a.Covered p (.join k) :=
  of_parts fun _ hn => ⟨k, .join .refl, hn, h⟩

theorem branch (h₁ : a.Covered p condition) (h₂ : a.Covered p yes) (h₃ : a.Covered p no) :
    a.Covered p (.branch condition yes no) := by
  refine of_parts fun n hn => ?_
  rcases List.mem_append.1 hn with hn | hn
  · rcases List.mem_append.1 hn with hn | hn
    · exact ⟨_, .condition .refl, hn, h₁⟩
    · exact ⟨_, .yes .refl, hn, h₂⟩
  · exact ⟨_, .no .refl, hn, h₃⟩

theorem loop (h₁ : a.Covered p condition) (h₂ : a.Covered p body) (h₃ : a.Covered p next) :
    a.Covered p (.loop condition body next) := by
  refine of_parts fun n hn => ?_
  rcases List.mem_append.1 hn with hn | hn
  · rcases List.mem_append.1 hn with hn | hn
    · exact ⟨_, .test .refl, hn, h₁⟩
    · exact ⟨_, .body .refl, hn, h₂⟩
  · exact ⟨_, .next .refl, hn, h₃⟩

theorem doLoop (h₁ : a.Covered p body) (h₂ : a.Covered p condition) : a.Covered p (.doLoop body condition) :=
  of_parts fun _ hn => (List.mem_append.1 hn).elim (fun hn => ⟨_, .doBody .refl, hn, h₁⟩)
    fun hn => ⟨_, .doTest .refl, hn, h₂⟩

theorem all {cs : List NodeId} {f : NodeId → Control} (h : ∀ c ∈ cs, a.parent? c = some p ∧ a.IsControl c (f c)) :
    a.Covered p (.all (cs.map f)) := by
  refine of_parts fun n hn => ?_
  rw [Control.visits_all, List.flatMap_map, List.mem_flatMap] at hn
  obtain ⟨c, hc, hn⟩ := hn
  obtain ⟨hparent, hcontrol⟩ := h c hc
  exact ⟨f c, .all (List.mem_map_of_mem hc), hn, child hparent hcontrol⟩

theorem part (a : Arena) (p : NodeId) (role : String) : a.Covered p (a.partControl p role) := by
  unfold partControl
  split
  · exact idle rfl
  · next c hc => exact child (parent?_of_child? hc).1 .expression

theorem bodyPart (a : Arena) (inLoop : Bool) (p : NodeId) (role : String) : a.Covered p (a.bodyPart inLoop p role) := by
  unfold Arena.bodyPart
  split
  · exact idle rfl
  · next c hc => exact child (parent?_of_child? hc).1 (.statement inLoop)

theorem expression (a : Arena) (p : NodeId) : a.Covered p (a.expressionControl p) := by
  have hwhole : a.Covered p (.seq (.all ((a.operands p).map a.expressionControl)) (.visit p)) :=
    .seq (all fun c hc => ⟨parent?_of_mem_operands hc, .expression⟩) (visit a p)
  have hshort (kind skipped : EdgeKind) : a.Covered p (.seq (a.partControl p "leftExpression")
      (.seq (.either (.label kind (a.partControl p "rightExpression")) (.label skipped .skip)) (.visit p))) :=
    .seq (part a p _) (.seq (.either ((part a p _).label _) (idle rfl)) (visit a p))
  rw [expressionControl_eq]
  split
  · split
    · exact hshort _ _
    · exact hshort _ _
    · exact hwhole
  · exact .seq (.branch (part a p _) (part a p _) (part a p _)) (visit a p)
  · exact hwhole

theorem statement (inLoop : Bool) (htry : a.kind p ≠ .tryStatement) : a.Covered p (a.statementControl inLoop p) := by
  have hpart := part a p
  have hbody := fun inLoop => bodyPart a inLoop p
  have hself := visit a p
  have hstatements : a.Covered p (.all ((a.items p "statements").map (a.statementControl inLoop))) :=
    all fun c hc => ⟨(parent?_of_mem_items hc).1, .statement inLoop⟩
  have hloop : a.Covered p (.seq (.visit p) (.seq (a.bodyPart inLoop p "initializationExpression")
      (.loop (a.partControl p "condition") (a.bodyPart true p "body") (a.bodyPart inLoop p "loopExpression")))) :=
    hself.seq ((hbody _ _).seq (.loop (hpart _) (hbody _ _) (hbody _ _)))
  rw [statementControl_eq]
  split
  · exact hstatements
  · exact hstatements
  · exact hself.seq (.join (.branch (hpart _) (hbody _ _) (hbody _ _)))
  · exact hloop
  · exact hloop
  · exact hself.seq (.doLoop (hbody _ _) (hpart _))
  · next hkind => exact absurd hkind htry
  · exact (hpart _).seq (hself.seq (idle rfl))
  · exact (hpart _).seq (hself.seq (idle rfl))
  · exact (hpart _).seq (hself.seq (idle rfl))
  · exact hself.seq (idle (by cases inLoop <;> rfl))
  · exact hself.seq (idle (by cases inLoop <;> rfl))
  · exact hself.seq (idle rfl)
  · exact (hpart _).seq (hself.seq (idle (by split <;> rfl)))
  · exact (hpart _).seq hself
  · exact (hpart _).seq hself
  · exact hself

end Covered

theorem mem_visits_of_try {k : Control} (h : a.IsControl p k) (hkind : a.kind p = .tryStatement) : p ∈ k.visits := by
  cases h with
  | expression => exact (a.finishes_expressionControl p).mem_visits
  | statement inLoop =>
    rw [statementControl_eq, hkind]
    exact List.mem_append_left _ (List.mem_singleton_self p)

def VisitedBelow (a : Arena) (p n : NodeId) (k : Control) : Prop :=
  ∃ c k', p < c ∧ c < a.size ∧ (n = c → a.parent? c = some p) ∧ a.IsControl c k' ∧ n ∈ k'.visits ∧ k'.IsPart k

theorem Covered.visitedBelow {k : Control} (h : a.Covered p k) (hn : n ∈ k.visits) (hne : n ≠ p) :
    a.VisitedBelow p n k := by
  obtain ⟨c, k', hc, hrest⟩ := h n hn hne
  exact ⟨c, k', a.lt_of_parent? hc, lt_size_of_parent? hc, fun _ => hc, hrest⟩

theorem VisitedBelow.of_isPart {k k' : Control} (h : a.VisitedBelow p n k) (hpart : k.IsPart k') :
    a.VisitedBelow p n k' := by
  obtain ⟨c, k'', hlt, hsize, hc, hcontrol, hmem, hpart'⟩ := h
  exact ⟨c, k'', hlt, hsize, hc, hcontrol, hmem, hpart'.trans hpart⟩

theorem visitedBelow_of_try {inLoop : Bool} (hkind : a.kind p = .tryStatement) (hclauses : a.role n ≠ "clauses")
    (hblock : a.role n ≠ "block") (hn : n ∈ (a.statementControl inLoop p).visits) (hne : n ≠ p) :
    a.VisitedBelow p n (a.statementControl inLoop p) := by
  rw [statementControl_eq, hkind] at hn ⊢
  rcases List.mem_append.1 hn with hn | hn
  · exact absurd (List.mem_singleton.1 hn) hne
  rcases List.mem_append.1 hn with hn | hn
  · exact ((Covered.part a p _).visitedBelow hn hne).of_isPart (.second (.first .refl))
  dsimp only [Control.visits] at hn ⊢
  split at hn
  · simp [Control.visits] at hn
  · next hentries =>
    rw [if_neg hentries]
    rw [Control.visits_anyOf, List.mem_flatMap] at hn
    obtain ⟨clause, hclause, hn⟩ := hn
    obtain ⟨⟨entry, i⟩, hentry, hsome⟩ := List.mem_filterMap.1 hclause
    obtain ⟨c, rfl, rfl⟩ := Option.map_eq_some_iff.1 hsome
    obtain ⟨hc, hrole⟩ := parent?_of_mem_entries (List.fst_mem_of_mem_zipIdx hentry)
    rcases List.mem_append.1 hn with hn | hn
    · exact absurd (List.mem_singleton.1 hn ▸ hrole) hclauses
    · have hpart : (a.bodyPart inLoop c "block").IsPart (a.clauseControl inLoop i c) := .label (.second .refl)
      replace hpart := hpart.trans (.anyOf hclause)
      unfold bodyPart at hn hpart
      split at hn
      · simp [Control.visits] at hn
      · next b hb =>
        obtain ⟨hbc, hrole⟩ := parent?_of_child? hb
        simp only [hb] at hpart
        exact ⟨b, _, (a.lt_of_parent? hc).trans (a.lt_of_parent? hbc), lt_size_of_parent? hbc,
          fun heq => absurd (heq ▸ hrole) hblock, .statement inLoop, hn, .second (.second (.join hpart))⟩

/--
What is visited below a node is visited in the control structure of its parent, but for the clauses of a `try` and their
blocks.
-/
theorem IsControl.exists_parent {k : Control} {q : NodeId} (h : a.IsControl q k)
    (htry : ∀ m ∈ k.visits, a.kind m = .tryStatement → a.role n ≠ "clauses" ∧ a.role n ≠ "block")
    (hn : n ∈ k.visits) (hne : n ≠ q) (hparent : a.parent? n = some p) :
    ∃ k', a.IsControl p k' ∧ n ∈ k'.visits ∧ k'.IsPart k := by
  induction q using a.induction_behind generalizing k with
  | step q ih =>
    have hbelow : a.VisitedBelow q n k := by
      cases h with
      | expression => exact (Covered.expression a q).visitedBelow hn hne
      | statement inLoop =>
        by_cases hkind : a.kind q = .tryStatement
        · obtain ⟨hclauses, hblock⟩ := htry q (mem_visits_of_try (.statement inLoop) hkind) hkind
          exact visitedBelow_of_try hkind hclauses hblock hn hne
        · exact (Covered.statement inLoop hkind).visitedBelow hn hne
    obtain ⟨c, k', hlt, hsize, hc, hcontrol, hmem, hpart⟩ := hbelow
    by_cases hnc : n = c
    · obtain rfl := Option.some.inj ((hc hnc).symm.trans (hnc ▸ hparent))
      exact ⟨k, h, hn, .refl⟩
    · obtain ⟨k'', hcontrol', hmem', hpart'⟩ := ih c hlt hsize hcontrol
        (fun m hm => htry m (hpart.visits hm)) hmem hnc
      exact ⟨k'', hcontrol', hmem', hpart'.trans hpart⟩

section Parent

variable {k : Control} (hk : a.IsControl p k) (hn : n ∈ k.visits) (hparent : a.parent? n = some p)

theorem mem_of_mem_visits_all {cs : List NodeId} (hcs : ∀ c ∈ cs, a.parent? c = some p)
    (hn : n ∈ (Control.all (cs.map a.expressionControl)).visits) (hparent : a.parent? n = some p) : n ∈ cs := by
  rw [Control.visits_all, List.flatMap_map, List.mem_flatMap] at hn
  obtain ⟨c, hc, hn⟩ := hn
  have hbelow := (a.stays_expressionControl c).below n hn
  exact hbelow.unique .refl (hcs c hc) hparent ▸ hc

theorem child?_of_mem_partControl (hn : n ∈ (a.partControl p role).visits) (hparent : a.parent? n = some p) :
    a.child? p role = some n := by
  unfold partControl at hn
  split at hn
  · simp [Control.visits] at hn
  · next c hc =>
    have hbelow := (a.stays_expressionControl c).below n hn
    rw [hc, hbelow.unique .refl (parent?_of_child? hc).1 hparent]

theorem finishes_partControl (hc : a.child? p role = some c) : (a.partControl p role).Finishes c [] := by
  unfold partControl
  rw [hc]
  exact a.finishes_expressionControl c

theorem exists_finishes_of_all (hn : n ∈ (a.expressionControl p).visits) (hparent : a.parent? n = some p)
    (hwhole : a.expressionControl p = .seq (.all ((a.operands p).map a.expressionControl)) (.visit p)) :
    n ∈ a.operands p ∧ ∃ w, n ∉ w ∧ (a.expressionControl p).Finishes n (w ++ [p]) := by
  have hne : n ≠ p := Nat.ne_of_gt (a.lt_of_parent? hparent)
  rw [hwhole] at hn ⊢
  have hmem := (List.mem_append.1 hn).resolve_right fun h => hne (List.mem_singleton.1 h)
  have hoperand := mem_of_mem_visits_all (fun c hc => parent?_of_mem_operands hc) hmem hparent
  exact ⟨hoperand, exists_finishes_operands hoperand⟩

include hk hn hparent

theorem exists_finishes_whole (hkind : a.kind p = .tupleExpression ∨ a.kind p = .assignment ∨
      a.kind p = .binaryOperation ∧ ¬a.IsShortCircuit p) :
    n ∈ a.operands p ∧ ∃ w, n ∉ w ∧ k.Finishes n (w ++ [p]) := by
  have hne : n ≠ p := Nat.ne_of_gt (a.lt_of_parent? hparent)
  cases hk with
  | expression =>
    apply exists_finishes_of_all hn hparent
    rw [expressionControl_eq]
    rcases hkind with hkind | hkind | ⟨hkind, hshort⟩
    · rw [hkind]
    · rw [hkind]
    · unfold IsShortCircuit at hshort
      grind
  | statement inLoop =>
    have halone : a.statementControl inLoop p = .visit p := by
      rw [statementControl_eq]
      rcases hkind with hkind | hkind | ⟨hkind, -⟩ <;> rw [hkind]
    rw [halone] at hn
    exact absurd (List.mem_singleton.1 hn) hne

theorem exists_finishes_declaration (hkind : a.kind p = .variableDeclarationStatement) :
    ∃ w, n ∉ w ∧ k.Finishes n (w ++ [p]) := by
  have hne : n ≠ p := Nat.ne_of_gt (a.lt_of_parent? hparent)
  cases hk with
  | expression =>
    exact (exists_finishes_of_all hn hparent (by rw [expressionControl_eq, hkind])).2
  | statement inLoop =>
    have hseq : a.statementControl inLoop p = .seq (a.partControl p "initialValue") (.visit p) := by
      rw [statementControl_eq, hkind]
    rw [hseq] at hn ⊢
    have hmem := (List.mem_append.1 hn).resolve_right fun h => hne (List.mem_singleton.1 h)
    exact ⟨[], List.not_mem_nil, .first (finishes_partControl (child?_of_mem_partControl hmem hparent))
      (Control.mem_traces_visit p)⟩

theorem finishes_conditional (hkind : a.kind p = .conditional)
    (hrole : a.role n = "trueExpression" ∨ a.role n = "falseExpression") : k.Finishes n [p] := by
  have hne : n ≠ p := Nat.ne_of_gt (a.lt_of_parent? hparent)
  cases hk with
  | expression =>
    have hbranch : a.expressionControl p = .seq (.branch (a.partControl p "condition")
        (a.partControl p "trueExpression") (a.partControl p "falseExpression")) (.visit p) := by
      rw [expressionControl_eq, hkind]
    rw [hbranch] at hn ⊢
    have hmem := (List.mem_append.1 hn).resolve_right fun h => hne (List.mem_singleton.1 h)
    refine .first (w := []) ?_ (Control.mem_traces_visit p)
    rcases List.mem_append.1 hmem with hmem | hmem
    · rcases List.mem_append.1 hmem with hmem | hmem
      · have hcondition := (parent?_of_child? (child?_of_mem_partControl hmem hparent)).2
        simp [hcondition] at hrole
      · exact .yes (finishes_partControl (child?_of_mem_partControl hmem hparent))
    · exact .no (finishes_partControl (child?_of_mem_partControl hmem hparent))
  | statement inLoop =>
    have halone : a.statementControl inLoop p = .visit p := by
      rw [statementControl_eq, hkind]
    rw [halone] at hn
    exact absurd (List.mem_singleton.1 hn) hne

end Parent

end Arena

end ContractFlow
