import ContractFlow.Proofs.Ssa.Site

/-! This module shows that definitions dominate the reads that are bound to them. -/

namespace ContractFlow

namespace VariableBinding

variable {b : VariableBinding} {g : ControlGraph} {merges : Nat → Nat → Prop} {isPhi : Nat → Prop}
  {rs : Removals} {i j d k : Nat}

def standing (b : VariableBinding) (rs : Removals) (i : Nat) : Option Nat :=
  (b.outward i).bind rs.resolve

namespace Balanced

variable (h : b.Balanced g merges isPhi) (hrs : rs.Faithful merges isPhi)

include h hrs

theorem standing_of_last (hd : b.last i = some d) : b.standing rs i = some d := by
  have hkept : ¬rs.isRemoved d := fun hremoved => h.not_isPhi i d hd (hrs.removed d hremoved)
  rw [standing, outward, hd, Option.some_or, Option.bind_some, hrs.unremoved d hkept]

theorem standing_step (hi : g.isLive i = true) (hj : g.isLive j = true) (hnext : j ∈ g.next i)
    (hlast : b.last j = none) (hk : b.standing rs i = some k) : b.standing rs j = some k ∨
      ∃ phi, b.phi j = some phi ∧ ¬rs.isRemoved phi ∧ b.standing rs j = some phi := by
  have hinward : b.standing rs j = (b.inward j).bind rs.resolve := by
    rw [standing, outward, hlast, Option.none_or]
  rw [hinward]
  cases hphi : b.phi j with
  | none =>
    rw [h.flow i j hi hnext hphi]
    exact .inl hk
  | some phi =>
    rw [h.merge j phi hj hphi]
    by_cases hremoved : rs.isRemoved phi
    · -- what a removed phi merges is gone or stands for the same
      obtain ⟨e, he, hresolve⟩ := Option.bind_eq_some_iff.1 hk
      have hmerges := (h.input j phi hphi e).2 ⟨i, hi, hnext, he⟩
      rcases hrs.same phi hremoved e hmerges with hnone | hsame
      · simp [hnone] at hresolve
      · exact .inl (hsame.symm.trans hresolve)
    · exact .inr ⟨phi, rfl, hremoved, hrs.unremoved phi hremoved⟩

end Balanced

end VariableBinding

namespace SsaForm

variable {s : SsaForm} {x : NodeId} {bound : Nat → Option Nat} {d i j : Nat} {path : List Nat}

def phisAt (s : SsaForm) (i : Nat) (x : NodeId) : List Nat :=
  s.phis.filter fun d => (s.definition d).point == i && (s.definition d).variableNode == x

theorem mem_phisAt_iff : d ∈ s.phisAt i x ↔
    d ∈ s.phis ∧ (s.definition d).point = i ∧ (s.definition d).variableNode = x := by
  unfold phisAt
  rw [List.mem_filter, Bool.and_eq_true, beq_iff_eq, beq_iff_eq]

theorem point_of_lastWrite? (h : s.lastWrite? i x = some d) : (s.definition d).point = i := by
  exact (mem_writersAt_iff.1 (List.mem_of_getLast? h)).2.2.1

/--
`bound` tells what is bound to a variable behind each point: what is written last there, and else a phi at the point
or what is bound behind the point from which a run comes.
-/
structure Carries (s : SsaForm) (x : NodeId) (bound : Nat → Option Nat) : Prop where
  written : ∀ i d, s.lastWrite? i x = some d → bound i = some d
  carried : ∀ i j d, s.graph.isLive i = true → s.graph.isLive j = true → j ∈ s.graph.next i →
    s.lastWrite? j x = none → bound i = some d → bound j = some d ∨ ∃ e ∈ s.phisAt j x, bound j = some e

theorem Carries.exists_point_mem (h : s.Carries x bound) (hg : s.graph.Sound) (hrun : s.graph.Run path i)
    (hj : j ∈ path) (hwritten : s.lastWrite? j x ≠ none) :
    ∃ d, bound i = some d ∧ (s.definition d).point ∈ path := by
  -- by induction on the run; a phi is met where it is bound
  induction hrun with
  | entry =>
    obtain rfl := List.mem_singleton.1 hj
    obtain ⟨d, hd⟩ := Option.ne_none_iff_exists'.1 hwritten
    exact ⟨d, h.written _ d hd, by simp [point_of_lastWrite? hd]⟩
  | @step path i k hrun hnext ih =>
    cases hk : s.lastWrite? k x with
    | some d => exact ⟨d, h.written k d hk, by simp [point_of_lastWrite? hk]⟩
    | none =>
      have hfront : j ∈ path := by
        rcases List.mem_append.1 hj with hj | hj
        · exact hj
        · exact absurd (List.mem_singleton.1 hj ▸ hk) hwritten
      have hi := (ControlGraph.exists_run_iff hg).1 ⟨_, hrun⟩
      have hlive := (ControlGraph.exists_run_iff hg).1 ⟨_, hrun.step hnext⟩
      obtain ⟨d, hd, hpoint⟩ := ih hfront
      rcases h.carried i k d hi hlive hnext hk hd with hd | ⟨e, he, hbound⟩
      · exact ⟨d, hd, List.mem_append_left _ hpoint⟩
      · exact ⟨e, hbound, by simp [(mem_phisAt_iff.1 he).2.1]⟩

end SsaForm

namespace RenamingPlan

variable {p : RenamingPlan} {r : Renaming} {env : Nat → Bindings} {start : Nat → Nat} {x : NodeId} {d i : Nat}

def finalAt (p : RenamingPlan) (r : Renaming) (env : Nat → Bindings) (start : Nat → Nat) (x : NodeId) (i : Nat) :
    Option Nat :=
  ((p.binding env start x).outward i).bind (r.final p.phis.size)

theorem finalAt_eq : p.finalAt r env start x i
    = ((p.binding env start x).standing (r.removals p.phis.size) i).map (r.renumber p.phis.size) := by
  unfold finalAt VariableBinding.standing
  cases (p.binding env start x).outward i <;> rfl

variable (hp : p.Fits) (h : p.Found r env start)

include hp h

theorem renumber_mem_phisAt (hphi : (p.binding env start x).phi i = some d)
    (hkept : ¬(r.removals p.phis.size).isRemoved d) :
    r.renumber p.phis.size d ∈ (r.finish p.source.graph p.phis.size).phisAt i x := by
  have hget := (lookup_phisAt_eq_some_iff hp).1 hphi
  have hmem : d ∈ r.kept p.phis.size := Renaming.mem_kept_iff.2 ⟨(definition_of_phi hp h hphi).1, hkept⟩
  have hlt : d < p.phis.size := (Array.getElem?_eq_some_iff.1 hget).1
  have hdefinition : (r.finish p.source.graph p.phis.size).definition (r.renumber p.phis.size d)
      = ⟨.phi, x, i, none⟩ := by
    rw [Renaming.definition_finish hmem, Array.getD_eq_getD_getElem?, getElem?_phi h hget]
    rfl
  rw [SsaForm.mem_phisAt_iff, hdefinition]
  refine ⟨List.mem_filter.2 ⟨List.mem_range.2 (Renaming.renumber_lt hmem), ?_⟩, rfl, rfl⟩
  exact ((closed_of_found hp h).isPhi_finish hmem).2 hlt

theorem carries_finish (x : NodeId) : (r.finish p.source.graph p.phis.size).Carries x (p.finalAt r env start x) where
  written i d hd := by
    rw [lastWrite?_finish_eq hp h] at hd
    obtain ⟨k, hk, rfl⟩ := Option.map_eq_some_iff.1 hd
    rw [finalAt_eq, (balanced_binding hp h x).standing_of_last (r.faithful_removals _) hk]
    rfl
  carried i j d hi hj hnext hlast hd := by
    rw [lastWrite?_finish_eq hp h, Option.map_eq_none_iff] at hlast
    rw [finalAt_eq] at hd ⊢
    obtain ⟨k, hk, rfl⟩ := Option.map_eq_some_iff.1 hd
    rcases (balanced_binding hp h x).standing_step (r.faithful_removals _) hi hj hnext hlast hk with
      hk | ⟨phi, hphi, hkept, hk⟩
    · exact .inl (by simp [hk])
    · exact .inr ⟨_, renumber_mem_phisAt hp h hphi hkept, by simp [hk]⟩

end RenamingPlan

namespace SsaForm

variable {p : Program} {g : ControlGraph}

theorem exists_carries (p : Program) (hg : g.Sound) (x : NodeId) :
    ∃ bound, (ofGraph p g).Carries x bound ∧ ∀ u i, g.isLive i = true → g.node? i = some u →
      (∀ j, g.node? j = some u → j = i) → p.localOf? u = some x → x ∈ (SsaSource.ofGraph p g).tracked →
      p.isRead u = true → (ofGraph p g).definitionOf? u = bound i := by
  obtain ⟨hp, env, start, h⟩ := exists_found_ofGraph p hg
  refine ⟨_, RenamingPlan.carries_finish hp h x, fun u i hi hu hone hlocal htracked hread => ?_⟩
  exact RenamingPlan.definitionOf?_finish hp h hi hone
    (RenamingPlan.mem_readsAt_iff.2 ⟨hu, hlocal, htracked, hread⟩)

end SsaForm

namespace ValueFlow

/--
Definitions dominate the reads that are bound to them: if every run to a read writes its variable, then every run
to it comes to the point of the definition that it is bound to.
-/
theorem definition_dominates_read (v : ValueFlow) (f : CallableId) (s : SsaForm)
    (hs : (v.form? f).outcome = .ok (some s)) (u : NodeId) (i d : Nat) (hu : s.graph.node? i = some u)
    (hd : s.definitionOf? u = some d)
    (hwritten : ∀ path, s.graph.Run path i → ∃ j ∈ path,
      ∃ w ∈ (SsaSource.ofGraph v.toProgram s.graph).writes j, v.localOf? u = some w.variableNode) :
    s.graph.Dominates (s.definition d).point i := by
  obtain ⟨hgraph, -, -, heq⟩ := outcome_form?_eq_some.1 hs
  have hg := ControlFlow.sound_of_controlGraph? hgraph
  have hone := fun i j n => ControlFlow.point_unique hgraph (i := i) (j := j) (n := n)
  rw [heq] at hd ⊢
  obtain ⟨k, x, hk, hnode, hlocal, htracked, hread, -⟩ :=
    SsaForm.exists_of_mem_usesOf hg hone (SsaForm.mem_usesOf_of_definitionOf? hd)
  obtain rfl := hone k i u hnode hu
  obtain ⟨bound, hcarries, hbound⟩ := SsaForm.exists_carries v.toProgram hg x
  have hk' := hbound u k hk hnode (fun j hj => hone j k u hj hnode) hlocal htracked hread
  intro path hrun
  obtain ⟨j, hj, w, hw, hw'⟩ := hwritten path hrun
  obtain rfl := Option.some.inj (hlocal.symm.trans hw')
  have hlast : (SsaForm.ofGraph v.toProgram s.graph).lastWrite? j w.variableNode ≠ none :=
    fun hnone => (SsaForm.lastWrite?_eq_none_iff hg (hrun.isLive hg hj)).1 hnone w hw rfl
  obtain ⟨e, he, hpoint⟩ := hcarries.exists_point_mem hg hrun hj hlast
  obtain rfl : d = e := Option.some.inj (hd.symm.trans (hk'.trans he))
  exact hpoint

end ValueFlow

namespace Sample

theorem written_at_entry :
    ∃ w ∈ (SsaSource.ofGraph program.toProgram graph).writes Draft.entry, w.variableNode = 2 := by
  decide +kernel

theorem loop_phi_dominates_result :
    (valueFlow.form? 0).outcome = .ok (some form) ∧ form.graph.node? 9 = some 11 ∧
      form.definitionOf? 11 = some 0 ∧ form.definition 0 = ⟨.phi, 2, 3, none⟩ ∧
      (∀ path, form.graph.Run path 9 → ∃ j ∈ path, ∃ w ∈ (SsaSource.ofGraph valueFlow.toProgram form.graph).writes j,
        valueFlow.localOf? 11 = some w.variableNode) ∧
      form.graph.Dominates (form.definition 0).point 9 := by
  have hnode : form.graph.node? 9 = some 11 := by decide +kernel
  have hbound : form.definitionOf? 11 = some 0 := by decide +kernel
  have hwritten : ∀ path, form.graph.Run path 9 → ∃ j ∈ path,
      ∃ w ∈ (SsaSource.ofGraph valueFlow.toProgram form.graph).writes j,
        valueFlow.localOf? 11 = some w.variableNode := by
    intro path hrun
    obtain ⟨back, rfl⟩ := hrun.eq_cons
    obtain ⟨w, hw, hx⟩ := written_at_entry
    exact ⟨_, List.mem_cons_self, w, hw, hx ▸ localOf?_mention (by simp)⟩
  exact ⟨form?_eq, hnode, hbound, by decide +kernel, hwritten,
    valueFlow.definition_dominates_read 0 form form?_eq 11 9 0 hnode hbound hwritten⟩

end Sample

end ContractFlow
