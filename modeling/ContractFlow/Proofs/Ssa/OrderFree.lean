import ContractFlow.Proofs.Ssa.Agreement
import ContractFlow.Proofs.Ssa.Placing
import ContractFlow.Proofs.Ssa.WellFormed

/-! This module shows that the form of a callable depends on no order, up to the numbers of its definitions. -/

namespace ContractFlow

theorem RenamingPlan.phisAt_eq {p : RenamingPlan} (h : p.phis.toList.Nodup) (i : Nat) :
    p.phisAt i = (p.phis.toList.filter (·.point == i)).map fun phi => (phi.variableNode, p.phis.toList.idxOf phi) := by
  have hrange : List.range p.phis.size = p.phis.toList.map p.phis.toList.idxOf := by
    rw [map_idxOf h, Array.length_toList]
  unfold phisAt
  rw [hrange, List.filterMap_map, ← List.filterMap_eq_map, List.filterMap_filter]
  refine List.filterMap_congr fun phi hphi => ?_
  have hget : p.phis.getD (p.phis.toList.idxOf phi) default = phi := by
    rw [Array.getD_eq_getD_getElem?, ← Array.getElem?_toList, List.getElem?_idxOf hphi, Option.getD_some]
  rw [Function.comp_apply, hget]
  rfl

namespace SsaSource

def phisWith (s : SsaSource) (points : NodeId → List Nat) : List Definition :=
  s.tracked.flatMap fun x => (points x).map fun i => ⟨.phi, x, i, none⟩

def planWith (s : SsaSource) (points : NodeId → List Nat) : RenamingPlan :=
  ⟨s, s.tracked, (s.phisWith points).toArray⟩

variable {s : SsaSource} {points : NodeId → List Nat} (h : ∀ x ∈ s.tracked, (points x).Perm (s.phiPoints x))

include h

theorem perm_phisWith : s.phis.Perm (s.phisWith points) :=
  .flatMap_left _ fun x hx => ((h x hx).map _).symm

theorem filter_phisWith (i : Nat) : (s.phisWith points).filter (·.point == i) = s.phis.filter (·.point == i) := by
  unfold phisWith phis
  rw [List.filter_flatMap, List.filter_flatMap]
  refine List.flatMap_congr fun x hx => ?_
  have hfilter (l : List Nat) : ((l.map fun i => (⟨.phi, x, i, none⟩ : Definition)).filter (·.point == i)) =
      (List.replicate (l.count i) i).map fun i => ⟨.phi, x, i, none⟩ := by
    rw [List.filter_map, ← List.filter_beq]
    rfl
  rw [hfilter, hfilter, (h x hx).count_eq]

theorem exists_relabels : ∃ π, (RenamingPlan.ofSource s).Relabels π (s.planWith points) := by
  have hperm := perm_phisWith h
  obtain ⟨π, hπ, hfixed⟩ := exists_perm_idxOf hperm s.nodup_phis
  have hget (d : Nat) : (s.phisWith points)[π d]? = s.phis[d]? := by
    cases hd : s.phis[d]? with
    | none =>
      have hle := List.getElem?_eq_none_iff.1 hd
      rw [hfixed d hle, List.getElem?_eq_none_iff, ← hperm.length_eq]
      exact hle
    | some phi =>
      rw [hπ d phi hd]
      exact List.getElem?_idxOf (hperm.mem_iff.1 (List.mem_of_getElem? hd))
  refine ⟨π, rfl, rfl, ?_, fun d => ?_, fun d hd => ?_, fun i => ?_⟩
  · exact hperm.length_eq.symm
  · exact List.getElem?_toArray.trans ((hget d).trans List.getElem?_toArray.symm)
  · exact hfixed d hd
  · have hfirst := RenamingPlan.phisAt_eq (p := .ofSource s) s.nodup_phis i
    have hother := RenamingPlan.phisAt_eq (p := s.planWith points) (hperm.nodup_iff.1 s.nodup_phis) i
    rw [hfirst, hother, List.map_map]
    change ((s.phisWith points).filter (·.point == i)).map _ = _
    rw [filter_phisWith h]
    refine List.map_congr_left fun phi hphi => ?_
    exact congrArg _ (hπ _ phi (List.getElem?_idxOf (List.mem_filter.1 hphi).1)).symm

end SsaSource

namespace RenamingPlan

variable {p p' : RenamingPlan} {g : ControlGraph} {t : SsaForm}

/-- Whether a form is left by renaming if phis are considered for removal in some order. -/
def Gives (p : RenamingPlan) (g : ControlGraph) (t : SsaForm) : Prop :=
  ∃ removals, Removals.Settles (p.renamed.phiInputs p.phis.size) removals ∧
    t = p.renamed.finishWith g p.phis.size removals

theorem gives_finish (p : RenamingPlan) (g : ControlGraph) : p.Gives g (p.renamed.finish g p.phis.size) :=
  ⟨_, Removals.settles_settle _, rfl⟩

theorem Gives.eq_finish (h : p.Gives g t) : t = p.renamed.finish g p.phis.size := by
  obtain ⟨removals, hsettles, rfl⟩ := h
  exact Renaming.finishWith_eq_finish hsettles g

theorem Relabels.renamed {π : Equiv.Perm Nat} (h : Relabels π p p') : p.renamed.Relabels π p.phis.size p'.renamed := by
  have hstart : Renaming.Relabels π p.phis.size { definitions := p.phis } { definitions := p'.phis } :=
    ⟨Nat.le_refl _, h.size, h.definition, rfl, rfl, rfl, rfl⟩
  exact h.rename hstart 0 []

end RenamingPlan

namespace SsaForm

variable {p : Program} {g : ControlGraph} {t t' : SsaForm}

/--
A form that was made in some order: the points are handled in any order because of which a variable gets phis, and the
phis are considered in any order for removal.
-/
def BuiltFrom (p : Program) (g : ControlGraph) (t : SsaForm) : Prop :=
  ∃ points, (∀ x ∈ (SsaSource.ofGraph p g).tracked, (SsaSource.ofGraph p g).Places x (points x)) ∧
    ((SsaSource.ofGraph p g).planWith points).Gives g t

section Sound

variable (hg : g.Sound)

include hg

theorem exists_builtFrom (p : Program) : ∃ t, BuiltFrom p g t := by
  choose points hpoints using (SsaSource.fits_ofGraph p hg).exists_places
  exact ⟨_, points, fun x _ => hpoints x, RenamingPlan.gives_finish _ _⟩

theorem eq_of_getD_definitions {d e : Nat} (hd : d < (planOf p g).phis.size) (he : e < (planOf p g).phis.size)
    (heq : (planOf p g).renamed.definitions.getD d default = (planOf p g).renamed.definitions.getD e default) :
    d = e := by
  obtain ⟨-, env, start, h⟩ := exists_found_ofGraph p hg
  have hget {d : Nat} (hd : d < (planOf p g).phis.size) :
      (planOf p g).renamed.definitions.getD d default = (planOf p g).phis.toList[d] := by
    have hphi : (planOf p g).renamed.definitions[d]? = (planOf p g).phis[d]? := h.phi d hd
    rw [Array.getD_eq_getD_getElem?, hphi, Array.getElem?_eq_getElem hd]
    rfl
  rw [hget hd, hget he] at heq
  exact (SsaSource.nodup_phis _).getElem_inj_iff.1 heq

theorem BuiltFrom.exists_renumbers (h : BuiltFrom p g t) : ∃ ρ, (ofGraph p g).Renumbers ρ t := by
  obtain ⟨points, hpoints, hgives⟩ := h
  obtain ⟨π, hπ⟩ := SsaSource.exists_relabels
    fun x hx => (SsaSource.fits_ofGraph p hg).perm_of_places (hpoints x hx)
  rw [hgives.eq_finish, hπ.size]
  exact hπ.renamed.exists_renumbers hπ.fixed (closed_renamed hg) fun _ _ => eq_of_getD_definitions hg

end Sound

end SsaForm

namespace ValueFlow

/--
The form of a callable depends neither on the order in which points are handled to place phis nor on that in which phis
are considered for removal. A definition is told apart from all others by what it is and by its position among those
that are just like it, and every form that is made in some order has the same definitions, phi inputs, bindings and
undefined reads.
-/
theorem form_is_independent_of_order (v : ValueFlow) (f : CallableId) (s : SsaForm)
    (hs : (v.form? f).outcome = .ok (some s)) :
    (∀ d ∈ s.indices, ∀ e ∈ s.indices, s.definition d = s.definition e → s.position d = s.position e → d = e) ∧
    (∃ t, SsaForm.BuiltFrom v.toProgram s.graph t) ∧
    (∀ t, SsaForm.BuiltFrom v.toProgram s.graph t → ∃ ρ, s.Renumbers ρ t) ∧
    ∀ t t', SsaForm.BuiltFrom v.toProgram s.graph t → SsaForm.BuiltFrom v.toProgram s.graph t' →
      ∃ ρ, t.Renumbers ρ t' := by
  obtain ⟨hgraph, -, -, heq⟩ := outcome_form?_eq_some.1 hs
  have hg := ControlFlow.sound_of_controlGraph? hgraph
  have hsame (t : SsaForm) (ht : SsaForm.BuiltFrom v.toProgram s.graph t) : ∃ ρ, s.Renumbers ρ t := by
    have hrenumbers := ht.exists_renumbers hg
    rwa [← heq] at hrenumbers
  refine ⟨fun d hd e he => SsaForm.eq_of_position_eq hd he, SsaForm.exists_builtFrom hg v.toProgram, hsame,
    fun t t' ht ht' => ?_⟩
  obtain ⟨ρ, hρ⟩ := hsame t ht
  obtain ⟨ρ', hρ'⟩ := hsame t' ht'
  exact ⟨_, hρ.symm.trans hρ'⟩

end ValueFlow

theorem Sample.result_is_phi_in_any_order :
    (valueFlow.form? 0).outcome = .ok (some form) ∧ (∃ t, SsaForm.BuiltFrom valueFlow.toProgram form.graph t) ∧
      ∀ t, SsaForm.BuiltFrom valueFlow.toProgram form.graph t →
        (t.definitionOf? 11).map t.definition = some ⟨.phi, 2, 3, none⟩ := by
  obtain ⟨-, hexists, hsame, -⟩ := ValueFlow.form_is_independent_of_order valueFlow 0 form form?_eq
  refine ⟨form?_eq, hexists, fun t ht => ?_⟩
  obtain ⟨ρ, hρ⟩ := hsame t ht
  have hread : form.definitionOf? 11 = some 0 ∧ 0 ∈ form.indices ∧ form.definition 0 = ⟨.phi, 2, 3, none⟩ := by
    decide +kernel
  rw [hρ.definitionOf, hread.1, Option.map_some, Option.map_some, hρ.definition 0 hread.2.1, hread.2.2]

end ContractFlow
