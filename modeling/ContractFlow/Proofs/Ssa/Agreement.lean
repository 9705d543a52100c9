import ContractFlow.Proofs.Ssa.Bound
import ContractFlow.Proofs.Ssa.Renumbering
import Mathlib.Data.List.Sort

/-! This module says when two forms are the same up to the numbers of their definitions. -/

namespace ContractFlow

namespace SsaForm

/-- The number of definitions in front of `d` that are just like it. -/
def position (s : SsaForm) (d : Nat) : Nat :=
  s.indices.countP fun e => decide (e < d) && s.definition e == s.definition d

theorem position_lt_position {s : SsaForm} {d e : Nat} (hd : d ∈ s.indices) (hlt : d < e)
    (heq : s.definition d = s.definition e) : s.position d < s.position e := by
  unfold position
  rw [List.countP_eq_countP_filter_add s.indices (fun k => decide (k < e) && s.definition k == s.definition e)
    fun k => decide (k < d)]
  have hfront : s.indices.countP (fun k => decide (k < d) && s.definition k == s.definition d) =
      (s.indices.filter fun k => decide (k < d)).countP fun k =>
        decide (k < e) && s.definition k == s.definition e := by
    rw [List.countP_filter, heq]
    refine List.countP_congr fun k _ => ?_
    simp only [Bool.and_eq_true, decide_eq_true_eq]
    exact ⟨fun ⟨hk, hlike⟩ => ⟨⟨by omega, hlike⟩, hk⟩, fun ⟨⟨_, hlike⟩, hk⟩ => ⟨hk, hlike⟩⟩
  have hself : 0 < (s.indices.filter fun k => !decide (k < d)).countP fun k =>
      decide (k < e) && s.definition k == s.definition e :=
    List.countP_pos_iff.2 ⟨d, List.mem_filter.2 ⟨hd, by simp⟩, by simp [hlt, heq]⟩
  omega

theorem eq_of_position_eq {s : SsaForm} {d e : Nat} (hd : d ∈ s.indices) (he : e ∈ s.indices)
    (heq : s.definition d = s.definition e) (hposition : s.position d = s.position e) : d = e := by
  rcases Nat.lt_trichotomy d e with hlt | hsame | hlt
  · exact absurd (position_lt_position hd hlt heq) (by omega)
  · exact hsame
  · exact absurd (position_lt_position he hlt heq.symm) (by omega)

/--
A form is the other one with new numbers. A definition is known again by its kind, variable, point and site, and by its
position among those that agree in all of them.
-/
structure Renumbers (s : SsaForm) (ρ : Equiv.Perm Nat) (t : SsaForm) : Prop where
  indices : ∀ d, ρ d ∈ t.indices ↔ d ∈ s.indices
  definition : ∀ d ∈ s.indices, t.definition (ρ d) = s.definition d
  position : ∀ d ∈ s.indices, t.position (ρ d) = s.position d
  phiInputs : ∀ d ∈ s.indices, t.phiInputs (ρ d) = (s.phiInputs d).map ρ
  definitionOf : ∀ u, t.definitionOf? u = (s.definitionOf? u).map ρ
  exitDefinition : ∀ x, t.exitDefinition? x = (s.exitDefinition? x).map ρ
  undefined : t.undefined = s.undefined

namespace Renumbers

variable {s t u : SsaForm} {ρ ρ' : Equiv.Perm Nat}

theorem symm (h : s.Renumbers ρ t) : t.Renumbers ρ.symm s := by
  have hindices (d : Nat) : ρ.symm d ∈ s.indices ↔ d ∈ t.indices := by
    rw [← h.indices, ρ.apply_symm_apply]
  refine ⟨hindices, fun d hd => ?_, fun d hd => ?_, fun d hd => ?_, fun u => ?_, fun x => ?_, h.undefined.symm⟩
  · rw [← h.definition _ ((hindices d).2 hd), ρ.apply_symm_apply]
  · rw [← h.position _ ((hindices d).2 hd), ρ.apply_symm_apply]
  · have hinputs := h.phiInputs _ ((hindices d).2 hd)
    rw [ρ.apply_symm_apply] at hinputs
    rw [hinputs, List.map_map, ρ.symm_comp_self, List.map_id]
  · rw [h.definitionOf, Option.map_map, ρ.symm_comp_self, Option.map_id_apply]
  · rw [h.exitDefinition, Option.map_map, ρ.symm_comp_self, Option.map_id_apply]

theorem trans (h : s.Renumbers ρ t) (h' : t.Renumbers ρ' u) : s.Renumbers (ρ.trans ρ') u := by
  refine ⟨fun d => ?_, fun d hd => ?_, fun d hd => ?_, fun d hd => ?_, fun n => ?_, fun x => ?_,
    h'.undefined.trans h.undefined⟩
  · exact (h'.indices _).trans (h.indices d)
  · exact (h'.definition _ ((h.indices d).2 hd)).trans (h.definition d hd)
  · exact (h'.position _ ((h.indices d).2 hd)).trans (h.position d hd)
  · rw [Equiv.trans_apply, h'.phiInputs _ ((h.indices d).2 hd), h.phiInputs d hd, List.map_map, Equiv.coe_trans]
  · rw [h'.definitionOf, h.definitionOf, Option.map_map, Equiv.coe_trans]
  · rw [h'.exitDefinition, h.exitDefinition, Option.map_map, Equiv.coe_trans]

end Renumbers

end SsaForm

namespace Renaming

variable {r r' : Renaming} {g : ControlGraph} {count : Nat} {π : Equiv.Perm Nat}

theorem renumber_lt_renumber_iff {d e : Nat} (hd : d ∈ r.kept count) (he : e ∈ r.kept count) :
    r.renumber count d < r.renumber count e ↔ d < e := by
  have hsorted : (r.kept count).SortedLT := ((List.sortedLT_range _).pairwise.filter _).sortedLT
  have hlt := @List.SortedLT.getElem_lt_getElem_iff _ _ _ hsorted _ _ (List.idxOf_lt_length_of_mem hd)
    (List.idxOf_lt_length_of_mem he)
  rw [List.getElem_idxOf, List.getElem_idxOf] at hlt
  exact hlt.symm

section Settles

variable {rs : Removals} (h : Removals.Settles (r.phiInputs count) rs)

include h

theorem faithful_of_settles : rs.Faithful (fun d e => (d, e) ∈ r.inputs) (· < count) :=
  (h.collapses (fun d e => (d, e) ∈ r.inputs) (· < count) fun _ hi => mem_phiInputs hi).1

theorem resolve_eq_of_settles : rs.resolve = (r.removals count).resolve :=
  Removals.Settles.resolve_eq (fun d e => (d, e) ∈ r.inputs) (· < count) (fun _ hi => mem_phiInputs hi) h
    (Removals.settles_settle _) fun phi hphi => ⟨_, List.mem_map.2 ⟨phi, List.mem_range.2 hphi, rfl⟩⟩

theorem finishWith_eq_finish (g : ControlGraph) : r.finishWith g count rs = r.finish g count := by
  have hresolve := resolve_eq_of_settles h
  have hremoved : rs.isRemoved = (r.removals count).isRemoved := by
    funext d
    rw [Bool.eq_iff_iff, (faithful_of_settles h).isRemoved_iff, (r.faithful_removals count).isRemoved_iff, hresolve]
  have hmerged : rs.merged = (r.removals count).merged := by
    unfold Removals.merged
    rw [hresolve]
  unfold finish finishWith
  rw [hresolve, hremoved, hmerged]
  rfl

end Settles

theorem position_finish {k : Nat} (hk : k ∈ r.kept count) :
    (r.finish g count).position (r.renumber count k) = (List.range r.definitions.size).countP fun e =>
      (decide (e < k) && r.definitions.getD e default == r.definitions.getD k default) &&
        !(r.removals count).isRemoved e := by
  unfold SsaForm.position
  rw [indices_finish, List.countP_map, definition_finish hk]
  have hcongr : (r.kept count).countP ((fun e => decide (e < r.renumber count k) &&
        (r.finish g count).definition e == r.definitions.getD k default) ∘ r.renumber count) =
      (r.kept count).countP fun e =>
        decide (e < k) && r.definitions.getD e default == r.definitions.getD k default := by
    refine List.countP_congr fun e he => ?_
    rw [Function.comp_apply, definition_finish he]
    simp only [renumber_lt_renumber_iff he hk]
  rw [hcongr]
  exact List.countP_filter

theorem position_finish_of_lt {k : Nat} (hk : k ∈ r.kept count) (hphi : k < count)
    (hphis : ∀ d e, d < count → e < count → r.definitions.getD d default = r.definitions.getD e default → d = e) :
    (r.finish g count).position (r.renumber count k) = 0 := by
  rw [position_finish hk, List.countP_eq_zero]
  intro e he
  simp only [Bool.and_eq_true, decide_eq_true_eq, beq_iff_eq]
  rintro ⟨⟨hlt, heq⟩, -⟩
  have := hphis e k (by omega) hphi heq
  omega

theorem Closed.position_finish_of_not_lt (h : r.Closed count) {k : Nat} (hk : k ∈ r.kept count) (hphi : ¬k < count) :
    (r.finish g count).position (r.renumber count k) = (List.range r.definitions.size).countP fun e =>
      (decide (e < k) && r.definitions.getD e default == r.definitions.getD k default) && !decide (e < count) := by
  rw [position_finish hk]
  refine List.countP_congr fun e he => ?_
  simp only [Bool.and_eq_true, beq_iff_eq]
  refine and_congr_right fun hlike => ?_
  have hnot : ¬e < count := by
    rw [← h.isPhi e (List.mem_range.1 he), hlike.2, h.isPhi k (mem_kept_iff.1 hk).1]
    exact hphi
  simp [hnot, r.not_isRemoved hnot]

namespace Relabels

variable (h : r.Relabels π count r') (hfixed : ∀ d, count ≤ d → π d = d)

section

include h

theorem getD_definitions (d : Nat) : r'.definitions.getD (π d) default = r.definitions.getD d default := by
  rw [Array.getD_eq_getD_getElem?, Array.getD_eq_getD_getElem?, h.definition]

theorem inputsOf (phi : Nat) : (r'.inputs.filter (·.1 == π phi)).map (·.2) =
    ((r.inputs.filter (·.1 == phi)).map (·.2)).map π := by
  rw [h.inputs, List.filter_map, List.map_map, List.map_map]
  congr 1
  apply List.filter_congr
  simp

end

include h hfixed

theorem closed (hr : r.Closed count) : r'.Closed count where
  count_le := h.size ▸ h.count_le
  input d e hmem := by
    rw [h.inputs] at hmem
    obtain ⟨⟨d', e'⟩, hinput, heq⟩ := List.mem_map.1 hmem
    obtain ⟨rfl, rfl⟩ := Prod.mk.inj heq
    obtain ⟨hd, he⟩ := hr.input d' e' hinput
    exact ⟨(lt_iff_of_fixed hfixed).2 hd, h.size ▸ h.lt_size_iff.2 he⟩
  isPhi d hd := by
    obtain ⟨d, rfl⟩ := π.surjective d
    rw [h.size, h.lt_size_iff] at hd
    rw [h.getD_definitions, lt_iff_of_fixed hfixed]
    exact hr.isPhi d hd

theorem mem_phiInputs_iff (i : Nat × List Nat) :
    i ∈ r'.phiInputs count ↔ i ∈ (r.phiInputs count).map (Prod.map π (List.map π)) := by
  unfold phiInputs
  rw [List.map_map, List.mem_map, List.mem_map]
  constructor
  · rintro ⟨phi, hphi, rfl⟩
    obtain ⟨phi, rfl⟩ := π.surjective phi
    rw [List.mem_range, lt_iff_of_fixed hfixed] at hphi
    exact ⟨phi, List.mem_range.2 hphi, by simp only [Function.comp_apply, Prod.map_apply, h.inputsOf]⟩
  · rintro ⟨phi, hphi, rfl⟩
    refine ⟨π phi, List.mem_range.2 ((lt_iff_of_fixed hfixed).2 (List.mem_range.1 hphi)), ?_⟩
    simp only [Function.comp_apply, Prod.map_apply, h.inputsOf]

theorem resolve_removals (d : Nat) : (r'.removals count).resolve (π d) = ((r.removals count).resolve d).map π := by
  have hrelabel := (Removals.settles_settle (r.phiInputs count)).relabel π.injective (h.mem_phiInputs_iff hfixed)
  rw [← resolve_eq_of_settles hrelabel]
  exact Removals.resolve_relabel π.injective _ d

theorem isRemoved_removals (d : Nat) : (r'.removals count).isRemoved (π d) = (r.removals count).isRemoved d := by
  rw [Bool.eq_iff_iff, (faithful_removals _ _).isRemoved_iff, (faithful_removals _ _).isRemoved_iff,
    h.resolve_removals hfixed]
  exact not_congr ((Option.map_injective π.injective).eq_iff (b := some d))

theorem mem_kept_iff {k : Nat} : π k ∈ r'.kept count ↔ k ∈ r.kept count := by
  rw [Renaming.mem_kept_iff, Renaming.mem_kept_iff, h.isRemoved_removals hfixed, h.size, h.lt_size_iff]

theorem exists_renumber : ∃ ρ : Equiv.Perm Nat, (∀ k, ρ (r.renumber count k) = r'.renumber count (π k)) ∧
    (r'.kept count).length = (r.kept count).length ∧ ∀ d, (r.kept count).length ≤ d → ρ d = d := by
  have hperm : ((r.kept count).map π).Perm (r'.kept count) := by
    refine (List.perm_ext_iff_of_nodup ((r.nodup_kept count).map π.injective) (r'.nodup_kept count)).2 fun k => ?_
    obtain ⟨k, rfl⟩ := π.surjective k
    rw [List.mem_map_of_injective π.injective, h.mem_kept_iff hfixed]
  have hlength := hperm.length_eq
  obtain ⟨ρ, hρ, hrest⟩ := exists_perm_idxOf hperm ((r.nodup_kept count).map π.injective)
  rw [List.length_map] at hlength hrest
  refine ⟨ρ, fun k => ?_, hlength.symm, hrest⟩
  by_cases hk : k ∈ r.kept count
  · refine hρ _ _ ?_
    rw [List.getElem?_map]
    exact congrArg (Option.map π) (List.getElem?_idxOf hk)
  · have hlast : r.renumber count k = (r.kept count).length := List.idxOf_eq_length hk
    have hlast' : r'.renumber count (π k) = (r'.kept count).length :=
      List.idxOf_eq_length fun hmem => hk ((h.mem_kept_iff hfixed).1 hmem)
    rw [hlast, hlast', hrest _ (Nat.le_refl _), hlength]

theorem final_eq {ρ : Equiv.Perm Nat} (hρ : ∀ k, ρ (r.renumber count k) = r'.renumber count (π k)) (d : Nat) :
    r'.final count (π d) = (r.final count d).map ρ := by
  unfold final
  rw [h.resolve_removals hfixed, Option.map_map, Option.map_map]
  congr 1
  exact funext fun k => (hρ k).symm

theorem filterMap_final {ρ : Equiv.Perm Nat} (hρ : ∀ k, ρ (r.renumber count k) = r'.renumber count (π k))
    (l : List (NodeId × Nat)) :
    ((l.map (Prod.map id π)).filterMap fun e => (r'.final count e.2).map (e.1, ·)) =
      (l.filterMap fun e => (r.final count e.2).map (e.1, ·)).map (Prod.map id ρ) := by
  rw [List.filterMap_map, List.map_filterMap]
  congr 1
  funext e
  rw [Function.comp_apply, Prod.map_snd, h.final_eq hfixed hρ, Option.map_map, Option.map_map]
  rfl

theorem undefined_finish : (r'.finish g count).undefined = (r.finish g count).undefined := by
  have hundefined (r : Renaming) : (r.finish g count).undefined =
      r.undefined ++ (r.uses.filter fun u => ((r.removals count).resolve u.2).isNone).map (·.1) := rfl
  rw [hundefined, hundefined, h.undefined, h.uses, List.filter_map, List.map_map]
  congr 2
  apply List.filter_congr
  intro u _
  rw [Function.comp_apply, Prod.map_snd, h.resolve_removals hfixed, Option.isNone_map]

section Finish

variable (hr : r.Closed count)
  (hphis : ∀ d e, d < count → e < count → r.definitions.getD d default = r.definitions.getD e default → d = e)

include hr hphis

theorem position_eq {k : Nat} (hk : k ∈ r.kept count) :
    (r'.finish g count).position (r'.renumber count (π k)) = (r.finish g count).position (r.renumber count k) := by
  have hk' := (h.mem_kept_iff hfixed).2 hk
  have hr' := h.closed hfixed hr
  by_cases hphi : k < count
  · rw [position_finish_of_lt hk hphi hphis, position_finish_of_lt hk' ((lt_iff_of_fixed hfixed).2 hphi)]
    intro d e hd he heq
    obtain ⟨d, rfl⟩ := π.surjective d
    obtain ⟨e, rfl⟩ := π.surjective e
    rw [h.getD_definitions, h.getD_definitions] at heq
    exact congrArg π (hphis d e ((lt_iff_of_fixed hfixed).1 hd) ((lt_iff_of_fixed hfixed).1 he) heq)
  · rw [hr.position_finish_of_not_lt hk hphi,
      hr'.position_finish_of_not_lt hk' fun hlt => hphi ((lt_iff_of_fixed hfixed).1 hlt), h.size, h.getD_definitions,
      hfixed k (by omega)]
    refine List.countP_congr fun e _ => ?_
    by_cases hphi' : e < count
    · simp [hphi']
    · have hdefinition := h.getD_definitions e
      rw [hfixed e (by omega)] at hdefinition
      rw [hdefinition]

theorem exists_renumbers : ∃ ρ, (r.finish g count).Renumbers ρ (r'.finish g count) := by
  obtain ⟨ρ, hρ, hlength, hrest⟩ := h.exists_renumber hfixed
  refine ⟨ρ, fun d => ?_, fun d hd => ?_, fun d hd => ?_, fun d hd => ?_, fun u => ?_, fun x => ?_, ?_⟩
  · unfold SsaForm.indices
    rw [List.mem_range, List.mem_range, size_finish, size_finish, hlength]
    exact lt_iff_of_fixed hrest
  · obtain ⟨k, hk, rfl⟩ := exists_kept hd
    rw [hρ, definition_finish ((h.mem_kept_iff hfixed).2 hk), definition_finish hk, h.getD_definitions]
  · obtain ⟨k, hk, rfl⟩ := exists_kept hd
    rw [hρ]
    exact h.position_eq hfixed hr hphis hk
  · obtain ⟨k, hk, rfl⟩ := exists_kept hd
    rw [hρ, (h.closed hfixed hr).phiInputs_finish ((h.mem_kept_iff hfixed).2 hk), hr.phiInputs_finish hk]
    simp only [lt_iff_of_fixed hfixed]
    split
    · rw [h.inputsOf, Removals.merged_map π.injective (h.resolve_removals hfixed), List.map_map, List.map_map]
      exact List.map_congr_left fun k _ => (hρ k).symm
    · rfl
  · have huses : (r'.finish g count).uses = (r.finish g count).uses.map (Prod.map id ρ) :=
      (congrArg _ h.uses).trans (h.filterMap_final hfixed hρ r.uses)
    unfold SsaForm.definitionOf?
    rw [huses, lookup_map_snd]
  · have hatExit : (r'.finish g count).atExit = (r.finish g count).atExit.map (Prod.map id ρ) :=
      (congrArg _ h.atExit).trans (h.filterMap_final hfixed hρ r.atExit)
    unfold SsaForm.exitDefinition?
    rw [hatExit, lookup_map_snd]
  · exact h.undefined_finish hfixed

end Finish

end Relabels

end Renaming

end ContractFlow
