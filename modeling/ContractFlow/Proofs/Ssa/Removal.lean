import ContractFlow.Proofs.Data.Group
import ContractFlow.Ssa.Build
import Mathlib.Data.List.Perm.Subperm
import Mathlib.Logic.Function.Iterate
import Mathlib.Logic.Relation

/-!
This module shows that the removal of needless phis is faithful and ends: the phis that are left merge two definitions
or more.
-/

namespace ContractFlow.Removals

variable {merges : Nat → Nat → Prop} {isPhi : Nat → Prop} {rs : Removals} {phi d e k : Nat}

theorem resolve_append (rs : Removals) (phi : Nat) (other : Option Nat) (d : Nat) :
    resolve (rs ++ [(phi, other)]) d = if rs.resolve d = some phi then other else rs.resolve d := by
  unfold resolve
  rw [List.foldl_append, List.foldl_cons, List.foldl_nil]
  simp only [beq_iff_eq]

theorem isRemoved_append (rs : Removals) (phi : Nat) (other : Option Nat) (d : Nat) :
    isRemoved (rs ++ [(phi, other)]) d = true ↔ rs.isRemoved d = true ∨ phi = d := by
  unfold isRemoved
  simp

structure Faithful (merges : Nat → Nat → Prop) (isPhi : Nat → Prop) (rs : Removals) : Prop where
  removed : ∀ d, rs.isRemoved d → isPhi d
  unremoved : ∀ d, ¬rs.isRemoved d → rs.resolve d = some d
  kept : ∀ d k, rs.resolve d = some k → ¬rs.isRemoved k
  merged : ∀ d k, rs.resolve d = some k → Relation.ReflTransGen merges d k
  same : ∀ phi, rs.isRemoved phi → ∀ e, merges phi e →
    rs.resolve e = none ∨ rs.resolve e = rs.resolve phi

theorem Faithful.isRemoved_iff (h : Faithful merges isPhi rs) : rs.isRemoved d = true ↔ rs.resolve d ≠ some d := by
  constructor
  · exact fun hremoved heq => h.kept d d heq hremoved
  · intro hne
    by_contra hremoved
    exact hne (h.unremoved d hremoved)

theorem faithful_nil : Faithful merges isPhi [] where
  removed d h := by simp [isRemoved] at h
  unremoved d _ := rfl
  kept d k _ := by simp [isRemoved]
  merged d k h := by
    obtain rfl := Option.some.inj h
    exact .refl
  same phi h := by simp [isRemoved] at h

/--
What takes the place of a phi, where `stands` tells what stands for each definition: everything that the phi merges is
gone, is itself or is what takes its place.
-/
structure Replaces (merges : Nat → Nat → Prop) (stands : Nat → Option Nat) (phi : Nat) (other : Option Nat) :
    Prop where
  all : ∀ e, merges phi e → stands e = none ∨ stands e = some phi ∨ stands e = other
  merged : ∀ k, other = some k → k ≠ phi ∧ ∃ e, merges phi e ∧ stands e = some k

theorem Faithful.remove (h : Faithful merges isPhi rs) (hisPhi : isPhi phi) (hphi : ¬rs.isRemoved phi)
    {other : Option Nat} (hother : Replaces merges rs.resolve phi other) :
    Faithful merges isPhi (rs ++ [(phi, other)]) where
  removed d hd := by
    rcases (isRemoved_append rs phi other d).1 hd with hd | rfl
    · exact h.removed d hd
    · exact hisPhi
  unremoved d hd := by
    rw [isRemoved_append, not_or] at hd
    rw [resolve_append, h.unremoved d hd.1, if_neg]
    simpa using Ne.symm hd.2
  kept d k hk := by
    rw [isRemoved_append, not_or]
    rw [resolve_append] at hk
    split at hk
    · obtain ⟨hne, e, -, he⟩ := hother.merged k hk
      exact ⟨h.kept e k he, Ne.symm hne⟩
    · next hne =>
      refine ⟨h.kept d k hk, ?_⟩
      rintro rfl
      exact hne hk
  merged d k hk := by
    rw [resolve_append] at hk
    split at hk
    · next hd =>
      obtain ⟨-, e, hmerges, he⟩ := hother.merged k hk
      exact ((h.merged d phi hd).tail hmerges).trans (h.merged e k he)
    · exact h.merged d k hk
  same psi hpsi e he := by
    rw [resolve_append, resolve_append]
    rcases (isRemoved_append rs phi other psi).1 hpsi with hpsi | rfl
    · rcases h.same psi hpsi e he with hnone | hsame
      · simp [hnone]
      · rw [hsame]
        exact .inr rfl
    · rw [h.unremoved phi hphi, if_pos rfl]
      rcases hother.all e he with hnone | hself | hsame
      · simp [hnone]
      · simp [hself]
      · rw [hsame]
        split <;> exact .inr rfl

theorem mem_merged_iff {inputs : List Nat} :
    k ∈ rs.merged phi inputs ↔ k ≠ phi ∧ ∃ e ∈ inputs, rs.resolve e = some k := by
  unfold merged
  simp [and_comm]

theorem consider_cases (rs : Removals) {inputs : List Nat} (hinputs : ∀ e, e ∈ inputs ↔ merges phi e) :
    rs.consider phi inputs = rs ∨ ∃ other, rs.consider phi inputs = rs ++ [(phi, other)] ∧ ¬rs.isRemoved phi ∧
      Replaces merges rs.resolve phi other := by
  have hall : ∀ e, merges phi e →
      rs.resolve e = none ∨ rs.resolve e = some phi ∨ ∃ k ∈ rs.merged phi inputs, rs.resolve e = some k := by
    intro e he
    cases hk : rs.resolve e with
    | none => exact .inl rfl
    | some k =>
      by_cases hne : k = phi
      · exact .inr (.inl (hne ▸ rfl))
      · exact .inr (.inr ⟨k, mem_merged_iff.2 ⟨hne, e, (hinputs e).2 he, hk⟩, rfl⟩)
  unfold Removals.consider
  split
  · exact .inl rfl
  · next hphi =>
    split
    · next hnil =>
      refine .inr ⟨none, rfl, hphi, fun e he => ?_, fun k hk => by simp at hk⟩
      rcases hall e he with hnone | hself | ⟨k, hk, -⟩
      · exact .inl hnone
      · exact .inr (.inl hself)
      · simp [hnil] at hk
    · next d hone =>
      refine .inr ⟨some d, rfl, hphi, fun e he => ?_, fun k hk => ?_⟩
      · rcases hall e he with hnone | hself | ⟨k, hk, heq⟩
        · exact .inl hnone
        · exact .inr (.inl hself)
        · rw [hone, List.mem_singleton] at hk
          exact .inr (.inr (hk ▸ heq))
      · have hmem : k ∈ rs.merged phi inputs := by
          rw [hone, List.mem_singleton]
          exact (Option.some.inj hk).symm
        obtain ⟨hne, e, he, heq⟩ := mem_merged_iff.1 hmem
        exact ⟨hne, e, (hinputs e).1 he, heq⟩
    · exact .inl rfl

theorem Faithful.consider (h : Faithful merges isPhi rs) {inputs : List Nat} (hisPhi : isPhi phi)
    (hinputs : ∀ e, e ∈ inputs ↔ merges phi e) : Faithful merges isPhi (rs.consider phi inputs) := by
  rcases consider_cases rs hinputs with heq | ⟨other, heq, hphi, hother⟩
  · rwa [heq]
  · rw [heq]
    exact h.remove hisPhi hphi hother

section Settle

variable {inputs : List (Nat × List Nat)}
  (hinputs : ∀ i ∈ inputs, isPhi i.1 ∧ ∀ e, e ∈ i.2 ↔ merges i.1 e)

include hinputs

theorem Faithful.round (h : Faithful merges isPhi rs) : Faithful merges isPhi (round inputs rs) := by
  induction inputs generalizing rs with
  | nil => exact h
  | cons i inputs ih =>
    apply ih (fun j hj => hinputs j (List.mem_cons_of_mem _ hj))
    obtain ⟨hisPhi, hmerges⟩ := hinputs i List.mem_cons_self
    exact h.consider hisPhi hmerges

theorem Faithful.settle (h : Faithful merges isPhi rs) : Faithful merges isPhi (settle inputs rs) := by
  fun_induction Removals.settle inputs rs with
  | case1 rs _ ih => exact ih (h.round hinputs)
  | case2 rs _ => exact h.round hinputs

end Settle

def Merged (merges : Nat → Nat → Prop) (rs : Removals) (k k' : Nat) : Prop :=
  ¬rs.isRemoved k ∧ k' ≠ k ∧ ∃ e, merges k e ∧ rs.resolve e = some k'

theorem Faithful.merged_iff (h : Faithful merges isPhi rs) (he : ¬rs.isRemoved e) :
    Relation.ReflTransGen merges d e ↔
      ∃ k, rs.resolve d = some k ∧ Relation.ReflTransGen (Merged merges rs) k e := by
  constructor
  · intro hd
    induction hd using Relation.ReflTransGen.head_induction_on with
    | refl => exact ⟨e, h.unremoved e he, .refl⟩
    | @head d c hstep _ ih =>
      obtain ⟨k, hk, hmerged⟩ := ih
      by_cases hd : rs.isRemoved d = true
      · rcases h.same d hd c hstep with hnone | hsame
        · rw [hk] at hnone
          simp at hnone
        · exact ⟨k, hsame ▸ hk, hmerged⟩
      · refine ⟨d, h.unremoved d hd, ?_⟩
        by_cases hkd : k = d
        · exact hkd ▸ hmerged
        · exact .head ⟨hd, hkd, c, hstep, hk⟩ hmerged
  · rintro ⟨k, hk, hmerged⟩
    apply (h.merged d k hk).trans
    clear hk
    induction hmerged using Relation.ReflTransGen.head_induction_on with
    | refl => exact .refl
    | head hstep _ ih =>
      obtain ⟨-, -, c, hc, hck⟩ := hstep
      exact .head hc ((h.merged c _ hck).trans ih)

section Round

variable {inputs rest : List (Nat × List Nat)} {ds : List Nat}

theorem prefix_consider (rs : Removals) (phi : Nat) (ds : List Nat) : rs <+: rs.consider phi ds := by
  unfold consider
  split
  · exact List.prefix_rfl
  · split
    · exact List.prefix_append _ _
    · exact List.prefix_append _ _
    · exact List.prefix_rfl

theorem prefix_round (inputs : List (Nat × List Nat)) (rs : Removals) : rs <+: round inputs rs := by
  induction inputs generalizing rs with
  | nil => exact List.prefix_rfl
  | cons i inputs ih => exact (prefix_consider rs i.1 i.2).trans (ih _)

structure Listed (inputs : List (Nat × List Nat)) (rs : Removals) : Prop where
  nodup : (rs.map (·.1)).Nodup
  subset : ∀ d ∈ rs.map (·.1), d ∈ inputs.map (·.1)

theorem listed_nil (inputs : List (Nat × List Nat)) : Listed inputs [] where
  nodup := List.nodup_nil
  subset d hd := by simp at hd

namespace Listed

theorem remove (h : Listed inputs rs) (hphi : phi ∈ inputs.map (·.1)) (hremoved : ¬rs.isRemoved phi)
    (other : Option Nat) : Listed inputs (rs ++ [(phi, other)]) where
  nodup := by
    rw [List.map_append, List.map_singleton, ← List.concat_eq_append]
    refine List.Nodup.concat (fun hmem => hremoved ?_) h.nodup
    obtain ⟨r, hr, heq⟩ := List.mem_map.1 hmem
    exact List.any_eq_true.2 ⟨r, hr, beq_iff_eq.2 heq⟩
  subset d hd := by
    rw [List.map_append, List.mem_append] at hd
    rcases hd with hd | hd
    · exact h.subset d hd
    · exact List.mem_singleton.1 hd ▸ hphi

theorem consider (h : Listed inputs rs) (hphi : phi ∈ inputs.map (·.1)) (ds : List Nat) :
    Listed inputs (rs.consider phi ds) := by
  unfold Removals.consider
  split
  · exact h
  · next hremoved =>
    split
    · exact h.remove hphi hremoved none
    · exact h.remove hphi hremoved _
    · exact h

theorem round_of_subset (h : Listed inputs rs) (hrest : ∀ i ∈ rest, i ∈ inputs) : Listed inputs (round rest rs) := by
  induction rest generalizing rs with
  | nil => exact h
  | cons i rest ih =>
    obtain ⟨hi, hrest⟩ := List.forall_mem_cons.1 hrest
    exact ih (h.consider (List.mem_map_of_mem hi) i.2) hrest

theorem round (h : Listed inputs rs) : Listed inputs (round inputs rs) :=
  h.round_of_subset fun _ hi => hi

theorem length_le (h : Listed inputs rs) : rs.length ≤ inputs.length := by
  have hle := (List.subperm_of_subset h.nodup h.subset).length_le
  rwa [List.length_map, List.length_map] at hle

end Listed

theorem round_settle (h : Listed inputs rs) : round inputs (settle inputs rs) = settle inputs rs := by
  fun_induction settle inputs rs with
  | case1 rs _ ih => exact ih h.round
  | case2 rs hstop =>
    have hle := h.round.length_le
    have hsame : round inputs rs = rs := ((prefix_round inputs rs).eq_of_length_le (by omega)).symm
    rw [hsame, hsame]

theorem exists_settle_eq_iterate (inputs : List (Nat × List Nat)) (rs : Removals) :
    ∃ k, settle inputs rs = (round inputs)^[k] rs := by
  fun_induction settle inputs rs with
  | case1 rs _ ih =>
    obtain ⟨k, hk⟩ := ih
    exact ⟨k + 1, hk⟩
  | case2 rs _ => exact ⟨1, rfl⟩

theorem consider_eq_of_round (h : round inputs rs = rs) (hi : (phi, ds) ∈ inputs) : rs.consider phi ds = rs := by
  induction inputs with
  | nil => simp at hi
  | cons i inputs ih =>
    have hround : round inputs (rs.consider i.1 i.2) = rs := h
    have hsame : rs.consider i.1 i.2 = rs := by
      have hle := (prefix_round inputs (rs.consider i.1 i.2)).length_le
      rw [hround] at hle
      exact ((prefix_consider rs i.1 i.2).eq_of_length_le hle).symm
    rcases List.mem_cons.1 hi with rfl | hi
    · exact hsame
    · rw [hsame] at hround
      exact ih hround hi

theorem two_le_length_merged (h : rs.consider phi ds = rs) (hphi : ¬rs.isRemoved phi) :
    2 ≤ (rs.merged phi ds).length := by
  unfold consider at h
  rw [if_neg hphi] at h
  match hmerged : rs.merged phi ds with
  | [] => simp [hmerged] at h
  | [d] => simp [hmerged] at h
  | d :: e :: rest => simp

end Round

end ContractFlow.Removals
