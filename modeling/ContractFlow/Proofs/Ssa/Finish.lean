import ContractFlow.Proofs.Ssa.Removal

/-!
This module shows what the finished form keeps of a renaming: definitions that are no phis, in the same order, and what
every definition merges.
-/

namespace ContractFlow

theorem map_idxOf {α : Type} [BEq α] [LawfulBEq α] {l : List α} (h : l.Nodup) :
    l.map l.idxOf = List.range l.length := by
  apply List.ext_getElem
  · simp
  · intro i hi _
    rw [List.length_map] at hi
    rw [List.getElem_map, List.getElem_range]
    exact h.idxOf_getElem i hi

theorem filter_range_eq {N a n : Nat} {P : Nat → Bool} (hn : 0 < n → a + n ≤ N)
    (hP : ∀ d < N, P d = true ↔ a ≤ d ∧ d < a + n) : (List.range N).filter P = List.range' a n := by
  refine List.Perm.eq_of_pairwise (fun x y _ _ hxy hyx => absurd hyx (Nat.lt_asymm hxy))
    (List.pairwise_lt_range.filter P) List.pairwise_lt_range' ?_
  rw [List.perm_ext_iff_of_nodup (List.nodup_range.filter P) List.nodup_range']
  intro d
  rw [List.mem_filter, List.mem_range, List.mem_range'_1]
  constructor
  · rintro ⟨hd, hdP⟩
    exact (hP d hd).1 hdP
  · intro hd
    have hlt : d < N := by omega
    exact ⟨hlt, (hP d hlt).2 hd⟩

theorem getLast?_filter_range_eq_some_iff {n e : Nat} {P : Nat → Bool} :
    ((List.range n).filter P).getLast? = some e ↔
      e < n ∧ P e = true ∧ ∀ d < n, P d = true → d ≤ e := by
  induction n with
  | zero => simp
  | succ n ih =>
    rw [List.range_succ, List.filter_append]
    by_cases hP : P n = true
    · rw [List.filter_cons_of_pos hP, List.filter_nil, List.getLast?_concat]
      grind
    · rw [List.filter_cons_of_neg hP, List.filter_nil, List.append_nil, ih]
      grind

def SsaForm.lastWrite? (s : SsaForm) (i : Nat) (x : NodeId) : Option Nat :=
  (s.indices.filter fun d => !(s.definition d).isPhi &&
    ((s.definition d).point == i && (s.definition d).variableNode == x)).getLast?

/-- `e` is `d` or, through phis, merged in it, and is no phi itself. -/
def SsaForm.Sources (s : SsaForm) (d e : Nat) : Prop :=
  Relation.ReflTransGen (fun d e => e ∈ s.phiInputs d) d e ∧ (s.definition e).isPhi = false

namespace Renaming

variable {r : Renaming} {g : ControlGraph} {count : Nat}
variable {d e : Nat}

def removals (r : Renaming) (count : Nat) : Removals :=
  .settle (r.phiInputs count) []

def kept (r : Renaming) (count : Nat) : List Nat :=
  (List.range r.definitions.size).filter fun d => !(r.removals count).isRemoved d

def renumber (r : Renaming) (count d : Nat) : Nat :=
  (r.kept count).idxOf d

theorem nodup_kept (r : Renaming) (count : Nat) : (r.kept count).Nodup :=
  List.nodup_range.filter _

theorem mem_kept_iff : d ∈ r.kept count ↔ d < r.definitions.size ∧ ¬(r.removals count).isRemoved d := by
  unfold kept
  simp

theorem renumber_inj (hd : d ∈ r.kept count) : r.renumber count d = r.renumber count e ↔ d = e :=
  List.idxOf_inj hd

theorem size_finish : (r.finish g count).definitions.size = (r.kept count).length := by
  simp [finish, finishWith, kept, removals]

theorem renumber_lt (hd : d ∈ r.kept count) : r.renumber count d < (r.finish g count).definitions.size := by
  rw [size_finish]
  exact List.idxOf_lt_length_of_mem hd

theorem definition_finish (hd : d ∈ r.kept count) :
    (r.finish g count).definition (r.renumber count d) = r.definitions.getD d default := by
  have hget : (r.kept count)[r.renumber count d]? = some d := List.getElem?_idxOf hd
  have hdefinitions : (r.finish g count).definitions
      = ((r.kept count).map fun d => r.definitions.getD d default).toArray := rfl
  unfold SsaForm.definition
  rw [hdefinitions, Array.getD_eq_getD_getElem?, List.getElem?_toArray, List.getElem?_map,
    hget]
  rfl

theorem indices_finish : (r.finish g count).indices = (r.kept count).map (r.renumber count) := by
  unfold SsaForm.indices renumber
  rw [size_finish]
  exact (map_idxOf (r.nodup_kept count)).symm

theorem exists_kept (hd : d ∈ (r.finish g count).indices) : ∃ k ∈ r.kept count, d = r.renumber count k := by
  rw [indices_finish] at hd
  obtain ⟨k, hk, rfl⟩ := List.mem_map.1 hd
  exact ⟨k, hk, rfl⟩

theorem mem_phiInputs {i : Nat × List Nat} (hi : i ∈ r.phiInputs count) :
    i.1 < count ∧ ∀ e, e ∈ i.2 ↔ (i.1, e) ∈ r.inputs := by
  obtain ⟨phi, hphi, rfl⟩ := List.mem_map.1 hi
  refine ⟨List.mem_range.1 hphi, fun e => ?_⟩
  simp only [List.mem_map, List.mem_filter, beq_iff_eq]
  constructor
  · rintro ⟨⟨d, e'⟩, ⟨hmem, rfl⟩, rfl⟩
    exact hmem
  · intro hmem
    exact ⟨_, ⟨hmem, rfl⟩, rfl⟩

theorem faithful_removals (r : Renaming) (count : Nat) :
    (r.removals count).Faithful (fun d e => (d, e) ∈ r.inputs) (· < count) :=
  Removals.faithful_nil.settle fun _ hi => mem_phiInputs hi

theorem not_isRemoved (r : Renaming) (he : ¬e < count) : ¬(r.removals count).isRemoved e := by
  intro hremoved
  exact he ((r.faithful_removals count).removed e hremoved)

theorem lt_count_of_resolve_eq_none (hd : (r.removals count).resolve d = none)
    (hmerges : Relation.ReflTransGen (fun d e => (d, e) ∈ r.inputs) d e) : e < count := by
  by_contra hphi
  obtain ⟨k, hk, -⟩ := ((r.faithful_removals count).merged_iff
    (r.not_isRemoved hphi)).1 hmerges
  rw [hd] at hk
  simp at hk

structure Closed (r : Renaming) (count : Nat) : Prop where
  count_le : count ≤ r.definitions.size
  input : ∀ d e, (d, e) ∈ r.inputs → d < count ∧ e < r.definitions.size
  isPhi : ∀ d < r.definitions.size, (r.definitions.getD d default).isPhi = true ↔ d < count

namespace Closed

variable (h : r.Closed count)
variable {k e : Nat}

include h

theorem mem_kept_of_resolve {d : Nat} (hd : d < r.definitions.size)
    (hk : (r.removals count).resolve d = some k) : k ∈ r.kept count := by
  have hf := r.faithful_removals count
  refine mem_kept_iff.2 ⟨?_, hf.kept d k hk⟩
  have hmerged := hf.merged d k hk
  cases hmerged with
  | refl => exact hd
  | tail _ hstep => exact (h.input _ _ hstep).2

theorem phiInputs_finish (hk : k ∈ r.kept count) :
    (r.finish g count).phiInputs (r.renumber count k) =
      if k < count then
        ((r.removals count).merged k ((r.inputs.filter (·.1 == k)).map (·.2))).map (r.renumber count)
      else [] := by
  have hinputs : (r.finish g count).inputs
      = ((List.range count).filter fun phi => !(r.removals count).isRemoved phi).map fun phi =>
          (r.renumber count phi,
            ((r.removals count).merged phi ((r.inputs.filter (·.1 == phi)).map (·.2))).map
              (r.renumber count)) := by
    unfold finish finishWith phiInputs
    simp only [List.filter_map, List.map_map]
    rfl
  unfold SsaForm.phiInputs
  rw [hinputs, lookup_map_eq]
  · have hmem : k ∈ (List.range count).filter (fun phi => !(r.removals count).isRemoved phi) ↔
        k < count := by
      simp [(mem_kept_iff.1 hk).2]
    simp only [hmem]
    split
    · rfl
    · rfl
  · intro phi hphi heq
    rw [List.mem_filter, List.mem_range] at hphi
    have := h.count_le
    rw [renumber_inj] at heq
    · exact heq
    · exact mem_kept_iff.2 ⟨by omega, by simpa using hphi.2⟩

theorem mem_phiInputs_finish (hk : k ∈ r.kept count) :
    e ∈ (r.finish g count).phiInputs (r.renumber count k) ↔
      ∃ k', e = r.renumber count k' ∧
        (r.removals count).Merged (fun d e => (d, e) ∈ r.inputs) k k' := by
  rw [h.phiInputs_finish hk]
  have hremoved := (mem_kept_iff.1 hk).2
  constructor
  · intro he
    split at he
    · obtain ⟨k', hk', rfl⟩ := List.mem_map.1 he
      obtain ⟨hne, d, hd, hresolve⟩ := Removals.mem_merged_iff.1 hk'
      simp only [List.mem_map, List.mem_filter, beq_iff_eq] at hd
      obtain ⟨⟨phi, d⟩, ⟨hinput, rfl⟩, rfl⟩ := hd
      exact ⟨k', rfl, hremoved, hne, d, hinput, hresolve⟩
    · simp at he
  · rintro ⟨k', rfl, -, hne, d, hinput, hresolve⟩
    rw [if_pos (h.input k d hinput).1]
    refine List.mem_map_of_mem (Removals.mem_merged_iff.2 ⟨hne, d, ?_, hresolve⟩)
    simp only [List.mem_map, List.mem_filter, beq_iff_eq]
    exact ⟨(k, d), ⟨hinput, rfl⟩, rfl⟩

theorem mem_kept_of_merged {k' : Nat} (hk : (r.removals count).Merged (fun d e => (d, e) ∈ r.inputs) k k') :
    k' ∈ r.kept count := by
  obtain ⟨-, -, d, hinput, hresolve⟩ := hk
  exact h.mem_kept_of_resolve (h.input k d hinput).2 hresolve

theorem merges_finish_iff (hk : k ∈ r.kept count) :
    Relation.ReflTransGen (fun d e => e ∈ (r.finish g count).phiInputs d) (r.renumber count k) e ↔
      ∃ e' ∈ r.kept count, e = r.renumber count e' ∧
        Relation.ReflTransGen ((r.removals count).Merged fun d e => (d, e) ∈ r.inputs) k e' := by
  constructor
  · intro hmerges
    induction hmerges with
    | refl => exact ⟨k, hk, rfl, .refl⟩
    | tail _ hstep ih =>
      obtain ⟨b, hb, rfl, hmerged⟩ := ih
      obtain ⟨c, rfl, hc⟩ := (h.mem_phiInputs_finish hb).1 hstep
      exact ⟨c, h.mem_kept_of_merged hc, rfl, hmerged.tail hc⟩
  · rintro ⟨e', -, rfl, hmerged⟩
    have hkept : ∀ c, Relation.ReflTransGen
        ((r.removals count).Merged fun d e => (d, e) ∈ r.inputs) k c → c ∈ r.kept count := by
      intro c hc
      cases hc with
      | refl => exact hk
      | tail _ hstep => exact h.mem_kept_of_merged hstep
    induction hmerged with
    | refl => exact .refl
    | tail hmerged hstep ih =>
      exact ih.tail ((h.mem_phiInputs_finish (hkept _ hmerged)).2 ⟨_, rfl, hstep⟩)

theorem isPhi_finish (he : e ∈ r.kept count) :
    ((r.finish g count).definition (r.renumber count e)).isPhi = true ↔ e < count := by
  rw [definition_finish he]
  exact h.isPhi e (mem_kept_iff.1 he).1

theorem mem_phis_of_mem_phiInputs (he : e ∈ (r.finish g count).phiInputs k) : k ∈ (r.finish g count).phis := by
  unfold SsaForm.phiInputs at he
  cases hlookup : (r.finish g count).inputs.lookup k with
  | none => simp [hlookup] at he
  | some ds =>
    obtain ⟨⟨phi, es⟩, hphi, hpair⟩ := List.mem_map.1 (mem_of_lookup_eq_some hlookup)
    obtain ⟨rfl, -⟩ := Prod.mk.inj hpair
    obtain ⟨hmem, hremoved⟩ := List.mem_filter.1 hphi
    have hlt := (mem_phiInputs hmem).1
    have hkept : phi ∈ r.kept count :=
      mem_kept_iff.2 ⟨Nat.lt_of_lt_of_le hlt h.count_le, by simpa [removals] using hremoved⟩
    exact List.mem_filter.2 ⟨List.mem_range.2 (renumber_lt hkept), (h.isPhi_finish hkept).2 hlt⟩

theorem sources_finish_iff {d : Nat} (hd : d < r.definitions.size)
    (hk : (r.removals count).resolve d = some k) :
    (r.finish g count).Sources (r.renumber count k) e ↔ ∃ e', e = r.renumber count e' ∧
      e' < r.definitions.size ∧ Relation.ReflTransGen (fun d e => (d, e) ∈ r.inputs) d e' ∧
      ¬e' < count := by
  have hkept := h.mem_kept_of_resolve hd hk
  unfold SsaForm.Sources
  rw [h.merges_finish_iff hkept]
  constructor
  · rintro ⟨⟨e', he', rfl, hmerged⟩, hphi⟩
    refine ⟨e', rfl, (mem_kept_iff.1 he').1, ?_, ?_⟩
    · exact ((r.faithful_removals count).merged_iff (mem_kept_iff.1 he').2).2 ⟨k, hk, hmerged⟩
    · rw [← h.isPhi_finish (g := g) he', hphi]
      simp
  · rintro ⟨e', rfl, hlt, hmerges, hphi⟩
    have hremoved := r.not_isRemoved hphi
    obtain ⟨k', hk', hmerged⟩ := ((r.faithful_removals count).merged_iff hremoved).1 hmerges
    obtain rfl := Option.some.inj (hk.symm.trans hk')
    have he' := mem_kept_iff.2 ⟨hlt, hremoved⟩
    refine ⟨⟨e', he', rfl, hmerged⟩, ?_⟩
    rw [Bool.eq_false_iff, Ne, h.isPhi_finish he']
    exact hphi

theorem filter_kept (P : Nat → Bool) :
    (r.kept count).filter (fun d =>
      !((r.finish g count).definition (r.renumber count d)).isPhi &&
        P d) = (List.range r.definitions.size).filter fun d => !decide (d < count) && P d := by
  unfold kept
  rw [List.filter_filter]
  apply List.filter_congr
  intro d hd
  have hlt := List.mem_range.1 hd
  by_cases hremoved : (r.removals count).isRemoved d = true
  · have := (r.faithful_removals count).removed d hremoved
    simp [hremoved, this]
  · have hkept := mem_kept_iff.2 ⟨hlt, hremoved⟩
    have hisPhi := h.isPhi_finish (g := g) hkept
    by_cases hphi : d < count
    · rw [hisPhi.2 hphi]
      simp [hphi]
    · rw [Bool.eq_false_iff.2 (fun h => hphi (hisPhi.1 h))]
      simp [hphi, hremoved]

theorem lastWrite?_finish (i : Nat) (x : NodeId) :
    (r.finish g count).lastWrite? i x =
      (((List.range r.definitions.size).filter fun d => !decide (d < count) &&
        ((r.definitions.getD d default).point == i &&
        (r.definitions.getD d default).variableNode == x)).getLast?).map (r.renumber count) := by
  rw [← h.filter_kept (g := g), ← List.getLast?_map]
  unfold SsaForm.lastWrite?
  rw [indices_finish, List.filter_map]
  congr 2
  apply List.filter_congr
  intro d hd
  rw [Function.comp_apply, definition_finish hd]

theorem filter_definitions_finish (i : Nat) :
    (r.finish g count).definitions.toList.filter (fun d => !d.isPhi && d.point == i) =
      ((List.range r.definitions.size).filter fun d => !decide (d < count) &&
        (r.definitions.getD d default).point == i).map fun d => r.definitions.getD d default := by
  have hdefinitions : (r.finish g count).definitions.toList
      = (r.kept count).map fun d => r.definitions.getD d default := rfl
  rw [← h.filter_kept (g := g), hdefinitions, List.filter_map]
  congr 1
  apply List.filter_congr
  intro d hd
  rw [Function.comp_apply, definition_finish hd]

end Closed

end Renaming

end ContractFlow
