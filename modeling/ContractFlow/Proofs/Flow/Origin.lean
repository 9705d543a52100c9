import ContractFlow.Proofs.Control.Precedence
import ContractFlow.Proofs.Flow.Plain
import ContractFlow.Proofs.Program.Owner
import ContractFlow.Proofs.Ssa.Site

/-!
This module contains what values carry along the runs of plain bodies, and shows that single assignment follows it.
-/

namespace ContractFlow

def ControlGraph.Visits (g : ControlGraph) (t : List NodeId) (n : NodeId) : Prop :=
  ∃ path k, g.Run path k ∧ g.node? k = some n ∧ g.trace path = t ++ [n]

/--
The value of `n`, evaluated after the nodes `t` have been visited, carries the parameter that `x` declares. A
variable has what was assigned to it last; a conditional has the value of the branch that was evaluated.
-/
inductive Program.Carries (p : Program) (x : NodeId) : List NodeId → NodeId → Prop
  | parameter {t : List NodeId} {n : NodeId} : p.variableOf? n = some x →
      (∀ s ∈ t, ∀ v, ¬p.Assigns s x v) → Carries p x t n
  | assigned {before between after : List NodeId} {n s y v : NodeId} : p.variableOf? n = some y →
      p.Assigns s y v → (∀ s' ∈ after, ∀ v', ¬p.Assigns s' y v') → v ∉ between →
      Carries p x before v → Carries p x (before ++ v :: between ++ s :: after) n
  | part {before between : List NodeId} {n c : NodeId} : p.Feeds c n → c ∉ between →
      (p.arena.kind n = .conditional → ∀ b ∈ between, ¬p.Feeds b n) →
      Carries p x before c → Carries p x (before ++ c :: between) n

namespace ControlFlow

variable {c : ControlFlow} {f : CallableId} {g : ControlGraph} {path : List Nat} {k : Nat} {n q s y : NodeId}
  (hplain : c.IsPlain) (hg : (c.controlGraph? false f).outcome = .ok (some g))

include hg

include hplain

theorem isPlainNode_of_node? (hk : g.node? k = some n) : c.IsPlainNode n := by
  obtain ⟨body, hbody, hmem, -⟩ := exists_body hg hk
  exact (hplain.bodies f body hbody).isPlainNode hmem

theorem exists_run_parent {P : List NodeId → Prop} (hrun : g.Run path k) (hk : g.node? k = some n)
    (hn : c.IsPlainExpression n) (hparent : c.arena.parent? n = some q)
    (hfinish : ∀ part, c.arena.IsControl q part → n ∈ part.visits → ∃ w, P w ∧ part.Finishes n (w ++ [q])) :
    ∃ path' j w, g.Run path' j ∧ g.node? j = some q ∧ P w ∧ g.trace path' = g.trace path ++ w ++ [q] := by
  obtain ⟨body, hbody, hmem, hcontrol⟩ := exists_body hg hk
  have hplainBody := hplain.bodies f body hbody
  have hne : n ≠ body := by
    rintro rfl
    exact hplainBody.not_isPlainExpression hn
  obtain ⟨part, hpart, hvisits, hin⟩ := (Arena.IsControl.statement false).exists_parent
    (fun m hm hkind => absurd hkind (hplainBody.isPlainNode hm).kind_ne_try) hmem hne hparent
  obtain ⟨w, hw, hfinishes⟩ := hfinish part hpart hvisits
  have hnodup := (c.arena.stays_statementControl false body).nodup
  have heq := eq_of_controlGraph? hg
  rw [hcontrol] at heq
  subst heq
  obtain ⟨path', j, hrun', hj, htrace⟩ := hrun.exists_behind hk hin hnodup hfinishes
  exact ⟨path', j, w, hrun', hj, hw, htrace⟩

theorem exists_run_feeds (hrun : g.Run path k) (hk : g.node? k = some n) (hn : c.IsPlainExpression n)
    (hfeeds : c.Feeds n q) : ∃ path' j w, g.Run path' j ∧ g.node? j = some q ∧
      (n ∉ w ∧ (c.arena.kind q = .conditional → w = [])) ∧ g.trace path' = g.trace path ++ w ++ [q] := by
  cases hfeeds with
  | parenthesis hparent hkind _ =>
    refine exists_run_parent hplain hg hrun hk hn hparent fun part hpart hvisits => ?_
    obtain ⟨-, w, hw, hfinish⟩ := Arena.exists_finishes_whole hpart hvisits hparent (.inl hkind)
    exact ⟨w, ⟨hw, by simp [hkind]⟩, hfinish⟩
  | operand hparent hkind hpropagating =>
    refine exists_run_parent hplain hg hrun hk hn hparent fun part hpart hvisits => ?_
    obtain ⟨-, w, hw, hfinish⟩ := Arena.exists_finishes_whole hpart hvisits hparent
      (.inr (.inr ⟨hkind, Arena.not_isShortCircuit hkind hpropagating⟩))
    exact ⟨w, ⟨hw, by simp [hkind]⟩, hfinish⟩
  | branch hparent hkind hrole =>
    refine exists_run_parent hplain hg hrun hk hn hparent fun part hpart hvisits => ?_
    exact ⟨[], ⟨List.not_mem_nil, fun _ => rfl⟩, Arena.finishes_conditional hpart hvisits hparent hkind hrole⟩

theorem exists_run_assigns (hrun : g.Run path k) (hk : g.node? k = some n) (hn : c.IsPlainExpression n)
    (hassigns : c.Assigns s y n) : ∃ path' j w, g.Run path' j ∧ g.node? j = some s ∧ n ∉ w ∧
      g.trace path' = g.trace path ++ w ++ [s] := by
  refine exists_run_parent hplain hg hrun hk hn hassigns.parent? fun part hpart hvisits => ?_
  cases hassigns with
  | declaration hkind _ hv =>
    exact Arena.exists_finishes_declaration hpart hvisits (Arena.parent?_of_child? hv).1 hkind
  | assignment hkind _ _ _ hv =>
    exact (Arena.exists_finishes_whole hpart hvisits (Arena.parent?_of_child? hv).1 (.inr (.inl hkind))).2

theorem outcome_lookUpNames : c.lookUpNames g = .ok () := by
  have hnames : ∀ n ∈ g.live.filterMap g.node?, ∃ d, c.findVariable n = .ok d := by
    intro n hn
    obtain ⟨i, -, hi⟩ := List.mem_filterMap.1 hn
    exact (isPlainNode_of_node? hplain hg hi).exists_findVariable_eq
  unfold lookUpNames
  generalize g.live.filterMap g.node? = nodes at hnames ⊢
  induction nodes with
  | nil => rfl
  | cons n rest ih =>
    obtain ⟨⟨d, hd⟩, hrest⟩ := List.forall_mem_cons.1 hnames
    simp only [List.forM, hd]
    exact ih hrest

end ControlFlow

theorem ControlGraph.node?_entry {g : ControlGraph} (hg : g.Sound) : g.node? Draft.entry = none := by
  have hentry : Draft.entry < g.size := Nat.lt_trans (by decide) hg.exit_lt
  unfold node?
  rw [(kind_eq_entry_iff hg hentry).2 rfl]
  rfl

namespace ControlFlow

def formOver (c : ControlFlow) (g : ControlGraph) : SsaForm :=
  .ofGraph c.toProgram g

inductive Origin (c : ControlFlow) (g : ControlGraph) (x : NodeId) (e : Nat) : Prop
  | entry : e ∈ (c.formOver g).writersAt Draft.entry x → Origin c g x e
  | assigned {path : List Nat} {j : Nat} {t w : List NodeId} {s y v : NodeId} :
      e ∈ (c.formOver g).writersAt j y → g.node? j = some s → c.Assigns s y v → g.Run path j →
      g.trace path = t ++ v :: w ++ [s] → v ∉ w → c.Carries x t v → Origin c g x e

variable {c : ControlFlow} {f : CallableId} {g : ControlGraph} {path front back : List Nat} {i j e : Nat}
  {n u v x y : NodeId} (hplain : c.IsPlain) (hg : (c.controlGraph? false f).outcome = .ok (some g))

include hplain hg

theorem lastWrite?_eq_none (hi : g.isLive i = true) (hne : i ≠ Draft.entry)
    (h : ∀ n, g.node? i = some n → ∀ v, ¬c.Assigns n y v) : (c.formOver g).lastWrite? i y = none := by
  have hsound := sound_of_controlGraph? hg
  refine (SsaForm.lastWrite?_eq_none_iff hsound hi).2 fun w hw heq => ?_
  rcases SsaSource.mem_writes_cases hw with ⟨hkind, -⟩ | ⟨n, hn, hw⟩
  · have hlt := (SsaSource.fits_ofGraph c.toProgram hsound).lt_size hi
    exact hne ((ControlGraph.kind_eq_entry_iff hsound hlt).1 hkind)
  · obtain ⟨v, hv⟩ := (isPlainNode_of_node? hplain hg hn).assigns_of_mem_writesAt hw
    exact h n hn v (heq ▸ hv)

theorem not_assigns_of_lastWrite? (hi : g.isLive i = true) (hn : g.node? i = some n)
    (h : (c.formOver g).lastWrite? i y = none) : ¬c.Assigns n y v := by
  intro hassigns
  obtain ⟨w, rfl, hw⟩ := (isPlainNode_of_node? hplain hg hn).exists_writesAt_eq hassigns
  have hwrites : (SsaSource.ofGraph c.toProgram g).writes i = [w] := (SsaSource.writes_of_node? hn).trans hw
  exact (SsaForm.lastWrite?_eq_none_iff (sound_of_controlGraph? hg) hi).1 h w (by simp [hwrites]) rfl

omit hplain in
theorem lastWrite?_eq_none_of_variableOf? (hi : g.isLive i = true) (hn : g.node? i = some u)
    (hu : c.variableOf? u = some y) : (c.formOver g).lastWrite? i x = none := by
  have hkind := Program.kind_of_variableOf? hu
  have hwrites : (SsaSource.ofGraph c.toProgram g).writes i = [] :=
    (SsaSource.writes_of_node? hn).trans (by simp [SsaSource.ofGraph, Program.writesAt, hkind])
  exact (SsaForm.lastWrite?_eq_none_iff (sound_of_controlGraph? hg) hi).2 (by simp [hwrites])

theorem exists_visits_of_lastOn (hrun : g.Run path i) (hi : g.node? i = some u) (hu : c.variableOf? u = some y)
    (hlast : LastOn ((c.formOver g).lastWrite? · y) path e) (h : c.Origin g x e) :
    ∃ t, g.Visits t u ∧ c.Carries x t u := by
  have hsound := sound_of_controlGraph? hg
  obtain ⟨front, j, back, rfl, hj, hback⟩ := hlast
  obtain ⟨-, -, hpoint, hvariable⟩ := SsaForm.mem_writersAt_iff.1 (List.mem_of_getLast? hj)
  obtain ⟨between, rfl⟩ : ∃ between, back = between ++ [i] := by
    rcases List.eq_nil_or_concat back with rfl | ⟨between, k, rfl⟩
    · obtain ⟨rfl, -⟩ := hrun.of_append_singleton
      simp [lastWrite?_eq_none_of_variableOf? hg (hrun.isLive hsound (by simp)) hi hu] at hj
    · rw [List.concat_eq_append, ← List.cons_append, ← List.append_assoc] at hrun
      obtain ⟨rfl, -⟩ := hrun.of_append_singleton
      exact ⟨between, List.concat_eq_append⟩
  have hquiet : ∀ m ∈ g.trace between, ∀ v, ¬c.Assigns m y v := by
    intro m hm v
    obtain ⟨k, hk, hnode⟩ := ControlGraph.mem_trace_iff.1 hm
    refine not_assigns_of_lastWrite? hplain hg (hrun.isLive hsound ?_) hnode (hback k ?_)
    · simp [hk]
    · simp [hk]
  cases h with
  | entry he =>
    obtain ⟨-, -, hpoint', hvariable'⟩ := SsaForm.mem_writersAt_iff.1 he
    obtain rfl := hpoint.symm.trans hpoint'
    obtain rfl := hvariable.symm.trans hvariable'
    refine ⟨g.trace between, ⟨_, i, hrun.splice .entry, hi, ?_⟩, .parameter hu hquiet⟩
    simp [ControlGraph.trace, ControlGraph.node?_entry hsound, hi]
  | assigned he hs hassigns hrun' htrace hv hcarries =>
    obtain ⟨-, -, hpoint', hvariable'⟩ := SsaForm.mem_writersAt_iff.1 he
    obtain rfl := hpoint.symm.trans hpoint'
    obtain rfl := hvariable.symm.trans hvariable'
    refine ⟨_, ⟨_, i, hrun.splice hrun', hi, ?_⟩, .assigned hu hassigns hquiet hv hcarries⟩
    rw [ControlGraph.trace_append, htrace]
    simp [ControlGraph.trace, hi]

theorem lastOn_of_not_assigns (hrun : g.Run (front ++ j :: back) i) (hj : (c.formOver g).lastWrite? j y = some e)
    (hquiet : ∀ m ∈ g.trace back, ∀ v, ¬c.Assigns m y v) :
    LastOn ((c.formOver g).lastWrite? · y) (front ++ j :: back) e := by
  have hsound := sound_of_controlGraph? hg
  refine ⟨front, j, back, rfl, hj, fun k hk => ?_⟩
  refine lastWrite?_eq_none hplain hg (hrun.isLive hsound (by simp [hk])) (hrun.ne_entry hsound hk) fun n hn => ?_
  exact hquiet n (ControlGraph.mem_trace_iff.2 ⟨k, hk, hn⟩)

omit hplain in
theorem exists_definitionOf?_of_lastOn (hrun : g.Run path i) (hi : g.node? i = some u)
    (hu : c.localOf? u = some y) (hread : c.isRead u = true)
    (hlast : LastOn ((c.formOver g).lastWrite? · y) path e) :
    ∃ d, (c.formOver g).definitionOf? u = some d ∧ (c.formOver g).Sources d e := by
  have hsound := sound_of_controlGraph? hg
  obtain ⟨front, j, back, hpath, hj, -⟩ := id hlast
  have htracked := SsaForm.mem_tracked_of_mem_writersAt hsound (List.mem_of_getLast? hj)
  have hreaching := SsaForm.reaching_definitionOf? hsound (fun i j => point_unique hg (i := i) (j := j))
    (hrun.isLive hsound (by obtain ⟨front, rfl⟩ := hrun.eq_append; simp)) hi hu htracked hread
  unfold formOver at hlast hj ⊢
  cases hd : (SsaForm.ofGraph c.toProgram g).definitionOf? u with
  | none =>
    rw [hd] at hreaching
    have hnone := hreaching path hrun j (by simp [hpath])
    simp [hj] at hnone
  | some d =>
    rw [hd] at hreaching
    exact ⟨d, rfl, (hreaching.2.2 e).2 ⟨path, hrun, hlast⟩⟩

end ControlFlow

end ContractFlow
