import ContractFlow.Program.BaseClosure
import Mathlib.Data.List.Nodup
import Mathlib.Logic.Relation

/-! This module shows that the search through the bases of a contract finds the contracts above it. -/

namespace ContractFlow.Outline

variable (o : Outline)

/-- The contract `a` is `c` or can be reached from `c` through bases. -/
def IsAbove (a c : ContractId) : Prop :=
  Relation.ReflTransGen (fun c b => b ∈ o.bases c) c a

def HasDistinctNames : Prop :=
  ∀ c < o.contracts.size, ∀ d < o.contracts.size, o.contractName c == o.contractName d → c = d

variable {o}

theorem lt_size_of_mem_bases {b c : ContractId} (h : b ∈ o.bases c) : b < o.contracts.size := by
  obtain ⟨spec, -, hfind⟩ := List.mem_filterMap.1 h
  simpa [contractIds] using List.mem_of_find?_eq_some hfind

namespace IsAbove

theorem refl (c : ContractId) : o.IsAbove c c :=
  Relation.ReflTransGen.refl

theorem base {a b c : ContractId} (hb : b ∈ o.bases c) (h : o.IsAbove a b) : o.IsAbove a c :=
  Relation.ReflTransGen.head hb h

theorem trans {a b c : ContractId} (h : o.IsAbove a b) (h' : o.IsAbove b c) : o.IsAbove a c :=
  Relation.ReflTransGen.trans h' h

theorem lt_size {a c : ContractId} (h : o.IsAbove a c) (hc : c < o.contracts.size) : a < o.contracts.size := by
  rcases Relation.ReflTransGen.cases_tail h with rfl | ⟨_, -, hb⟩
  · exact hc
  · exact lt_size_of_mem_bases hb

theorem eq_or_exists_base {a c : ContractId} (h : o.IsAbove a c) : a = c ∨ ∃ b ∈ o.bases c, o.IsAbove a b := by
  rcases Relation.ReflTransGen.cases_head h with h | ⟨b, hb, h⟩
  · exact .inl h.symm
  · exact .inr ⟨b, hb, h⟩

end IsAbove

structure Visited (o : Outline) (stack done found : List ContractId) : Prop where
  nodup : found.Nodup
  fresh : ∀ x ∈ found, x ∉ done
  above : ∀ x ∈ found, ∃ c ∈ stack, o.IsAbove x c
  stack_found : ∀ x ∈ stack, x ∈ done ∨ x ∈ found
  closed : ∀ x ∈ found, ∀ b ∈ o.bases x, b ∈ done ∨ b ∈ found

namespace Visited

variable {c : ContractId} {rest done found : List ContractId}

theorem skip (h : o.Visited rest done found) (hc : c ∈ done) : o.Visited (c :: rest) done found where
  nodup := h.nodup
  fresh := h.fresh
  above x hx := by
    obtain ⟨d, hd, habove⟩ := h.above x hx
    exact ⟨d, List.mem_cons_of_mem _ hd, habove⟩
  stack_found x hx := by
    rcases List.mem_cons.1 hx with rfl | hx
    · exact .inl hc
    · exact h.stack_found x hx
  closed := h.closed

theorem visit {unseen : List ContractId} (hc : c ∉ done) (hunseen : unseen ⊆ o.bases c)
    (hbases : ∀ b ∈ o.bases c, b ∈ c :: done ∨ b ∈ unseen)
    (h : o.Visited (unseen ++ rest) (c :: done) found) : o.Visited (c :: rest) done (c :: found) := by
  have found_of {x : ContractId} (hx : x ∈ c :: done ∨ x ∈ found) : x ∈ done ∨ x ∈ c :: found := by
    rcases hx with hx | hx
    · rcases List.mem_cons.1 hx with rfl | hx
      · exact .inr List.mem_cons_self
      · exact .inl hx
    · exact .inr (List.mem_cons_of_mem _ hx)
  refine ⟨?_, ?_, ?_, ?_, ?_⟩
  · exact List.nodup_cons.2 ⟨fun hmem => h.fresh c hmem List.mem_cons_self, h.nodup⟩
  · intro x hx hdone
    rcases List.mem_cons.1 hx with rfl | hx
    · exact hc hdone
    · exact h.fresh x hx (List.mem_cons_of_mem _ hdone)
  · intro x hx
    rcases List.mem_cons.1 hx with rfl | hx
    · exact ⟨x, List.mem_cons_self, .refl x⟩
    · obtain ⟨d, hd, habove⟩ := h.above x hx
      rcases List.mem_append.1 hd with hd | hd
      · exact ⟨c, List.mem_cons_self, .base (hunseen hd) habove⟩
      · exact ⟨d, List.mem_cons_of_mem _ hd, habove⟩
  · intro x hx
    rcases List.mem_cons.1 hx with rfl | hx
    · exact .inr List.mem_cons_self
    · exact found_of (h.stack_found x (List.mem_append_right _ hx))
  · intro x hx b hb
    rcases List.mem_cons.1 hx with rfl | hx
    · rcases hbases b hb with hdone | hopen
      · exact found_of (.inl hdone)
      · exact found_of (h.stack_found b (List.mem_append_left _ hopen))
    · exact found_of (h.closed x hx b hb)

end Visited

theorem HasDistinctNames.contains_iff (h : o.HasDistinctNames) {done : List ContractId}
    (hdone : ∀ d ∈ done, d < o.contracts.size) {c : ContractId} (hc : c < o.contracts.size) :
    (done.map o.contractName).contains (o.contractName c) = true ↔ c ∈ done := by
  rw [List.contains_iff_exists_mem_beq]
  constructor
  · rintro ⟨name, hname, heq⟩
    obtain ⟨d, hd, rfl⟩ := List.mem_map.1 hname
    rw [h c hc d (hdone d hd) heq]
    exact hd
  · intro hmem
    exact ⟨_, List.mem_map_of_mem hmem, BEq.rfl⟩

theorem visitBases_visited (h : o.HasDistinctNames) (stack : List ContractId) (seen : List Value)
    (done : List ContractId) (hseen : seen = done.map o.contractName)
    (hdone : ∀ d ∈ done, d < o.contracts.size) (hstack : ∀ c ∈ stack, c < o.contracts.size) :
    o.Visited stack done (o.visitBases stack seen) := by
  fun_induction visitBases o stack seen generalizing done with
  | case1 seen => constructor <;> simp
  | case2 seen c rest hc ih =>
    have hmem : c ∈ done := (h.contains_iff hdone (hstack c List.mem_cons_self)).1 (hseen ▸ hc)
    exact (ih done hseen hdone fun x hx => hstack x (List.mem_cons_of_mem _ hx)).skip hmem
  | case3 seen c rest hc _ ih =>
    subst hseen
    have hsize : c < o.contracts.size := hstack c List.mem_cons_self
    have hns : c ∉ done := fun hmem => hc ((h.contains_iff hdone hsize).2 hmem)
    have hdone' : ∀ d ∈ c :: done, d < o.contracts.size := by
      intro d hd
      rcases List.mem_cons.1 hd with rfl | hd
      · exact hsize
      · exact hdone d hd
    refine Visited.visit hns (List.filter_subset_self _) ?_ (ih (c :: done) rfl hdone' ?_)
    · intro b hb
      by_cases hb' : b ∈ c :: done
      · exact .inl hb'
      · refine .inr (List.mem_filter.2 ⟨hb, ?_⟩)
        have := mt (h.contains_iff hdone' (lt_size_of_mem_bases hb)).1 hb'
        simpa using this
    · intro x hx
      rcases List.mem_append.1 hx with hx | hx
      · exact lt_size_of_mem_bases (List.mem_of_mem_filter hx)
      · exact hstack x (List.mem_cons_of_mem _ hx)

section BaseClosure

variable (h : o.HasDistinctNames) {c : ContractId} (hc : c < o.contracts.size)

include h hc

theorem baseClosure_visited : o.Visited [c] [] (o.baseClosure c) :=
  visitBases_visited h [c] [] [] rfl (by simp) (by simpa using hc)

theorem nodup_baseClosure : (o.baseClosure c).Nodup :=
  (baseClosure_visited h hc).nodup

theorem mem_baseClosure_iff {a : ContractId} : a ∈ o.baseClosure c ↔ o.IsAbove a c := by
  have hvisited := baseClosure_visited h hc
  constructor
  · intro ha
    obtain ⟨d, hd, habove⟩ := hvisited.above a ha
    obtain rfl : d = c := List.mem_singleton.1 hd
    exact habove
  · intro habove
    induction habove with
    | refl => simpa using hvisited.stack_found c (List.mem_singleton.2 rfl)
    | tail _ hb ih => simpa using hvisited.closed _ ih _ hb

end BaseClosure

@[simp]
theorem head?_baseClosure (o : Outline) (c : ContractId) : (o.baseClosure c).head? = some c := by
  unfold baseClosure visitBases
  simp

end ContractFlow.Outline
