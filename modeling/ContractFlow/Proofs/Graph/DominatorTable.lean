import ContractFlow.Graph.Dominator
import Mathlib.Data.List.Basic

/-!
This module contains the tables by which dominators are found. A round only takes vertices out of the ways up, so the
rounds come to an end.
-/

namespace ContractFlow.Graph

theorem eq_of_total_le {w : α → Nat} {l r : List α} (h : List.Forall₂ (fun x y => w x ≤ w y) l r)
    (ht : total w r ≤ total w l) : List.Forall₂ (fun x y => w x = w y) l r := by
  have total_le : ∀ {l r : List α}, List.Forall₂ (fun x y => w x ≤ w y) l r →
      total w l ≤ total w r := by
    intro l r h
    induction h with
    | nil => simp
    | cons hxy _ ih => simp only [total_cons]; omega
  induction h with
  | nil => exact .nil
  | cons hxy hrest ih =>
    have := total_le hrest
    simp only [total_cons] at ht
    exact .cons (by omega) (ih (by omega))

namespace DominatorTable

variable {t c : DominatorTable} {a b p q : Nat}

inductive Above (t : DominatorTable) (a : Nat) : Nat → Prop
  | refl : Above t a a
  | up {p : Nat} : p ≠ 0 → Above t a (t.up p) → Above t a p

theorem up_lt (h : p ≠ 0) : t.up p < p := by
  unfold up
  omega

theorem up_le : t.up p ≤ p := by
  unfold up
  omega

theorem up_eq_of_get {m : Nat} (h : t.get p = some m) (hm : m < p) : t.up p = m := by
  unfold up
  rw [h, Option.getD_some]
  omega

theorem up_congr (h : t.get p = c.get p) : t.up p = c.up p := by
  unfold up
  rw [h]

/-- The loop that goes up from the greater of two numbers until they are the same. It reads the entries as they are. -/
inductive Meets (t : DominatorTable) : Nat → Nat → Nat → Prop
  | same {p : Nat} : Meets t p p p
  | left {p q r m : Nat} : q < p → t.get p = some r → Meets t r q m → Meets t p q m
  | right {p q r m : Nat} : p < q → t.get q = some r → Meets t p r m → Meets t p q m

/-- The entries lead to smaller numbers, and these have entries again. -/
def IsDescending (t : DominatorTable) : Prop :=
  ∀ p q, t.get p = some q → (p ≠ 0 → q < p) ∧ (t.get q).isSome

theorem IsDescending.meets (h : t.IsDescending) (hp : (t.get p).isSome) (hq : (t.get q).isSome) :
    t.Meets p q (t.meet p q) ∧ (t.get (t.meet p q)).isSome := by
  fun_induction meet t p q with
  | case1 => exact ⟨.same, hp⟩
  | case2 p q hne hlt ih =>
    obtain ⟨r, hr⟩ := Option.isSome_iff_exists.1 hp
    obtain ⟨hrp, hsome⟩ := h p r hr
    rw [up_eq_of_get hr (hrp (by omega))] at ih ⊢
    exact (ih hsome hq).imp_left (.left hlt hr)
  | case3 p q hne hlt ih =>
    obtain ⟨r, hr⟩ := Option.isSome_iff_exists.1 hq
    obtain ⟨hrq, hsome⟩ := h q r hr
    rw [up_eq_of_get hr (hrq (by omega))] at ih ⊢
    exact (ih hp hsome).imp_left (.right (by omega) hr)

namespace Above

theorem le (h : t.Above a p) : a ≤ p := by
  induction h with
  | refl => exact Nat.le_refl _
  | up hp _ ih =>
    have : t.up _ < _ := up_lt hp
    omega

theorem trans (h₁ : t.Above a b) (h₂ : t.Above b p) : t.Above a p := by
  induction h₂ with
  | refl => exact h₁
  | up hp _ ih => exact .up hp ih

theorem up_of_ne (h : t.Above a p) (hne : a ≠ p) : p ≠ 0 ∧ t.Above a (t.up p) := by
  cases h with
  | refl => exact absurd rfl hne
  | up hp h => exact ⟨hp, h⟩

theorem zero (t : DominatorTable) (p : Nat) : t.Above 0 p := by
  induction p using Nat.strongRecOn with
  | ind p ih =>
    by_cases hp : p = 0
    · rw [hp]
      exact .refl
    · exact .up hp (ih _ (up_lt hp))

theorem of_le (ha : t.Above a p) (hb : t.Above b p) (hab : a ≤ b) : t.Above a b := by
  induction hb with
  | refl => exact ha
  | up hp hb ih =>
    have hlt : t.up _ < _ := up_lt hp
    have := hb.le
    exact ih (ha.up_of_ne (by omega)).2

theorem congr (ha : t.Above a p) (h : ∀ r ≤ p, t.get r = c.get r) : c.Above a p := by
  induction ha with
  | refl => exact .refl
  | up hp _ ih =>
    apply Above.up hp
    rw [← up_congr (h _ (Nat.le_refl _))]
    apply ih
    intro r hr
    apply h
    have : t.up _ < _ := up_lt hp
    omega

end Above

theorem above_meet_left (t : DominatorTable) (p q : Nat) : t.Above (t.meet p q) p := by
  fun_induction meet t p q with
  | case1 => exact .refl
  | case2 p q hne hlt ih => exact .up (by omega) ih
  | case3 p q hne hlt ih => exact ih

theorem above_meet_right (t : DominatorTable) (p q : Nat) : t.Above (t.meet p q) q := by
  fun_induction meet t p q with
  | case1 => exact .refl
  | case2 p q hne hlt ih => exact ih
  | case3 p q hne hlt ih => exact .up (by omega) ih

theorem Above.meet (hp : t.Above a p) (hq : t.Above a q) : t.Above a (t.meet p q) := by
  fun_induction DominatorTable.meet t p q with
  | case1 => exact hp
  | case2 p q hne hlt ih =>
    have := hq.le
    exact ih (hp.up_of_ne (by omega)).2 hq
  | case3 p q hne hlt ih =>
    have := hp.le
    exact ih hp (hq.up_of_ne (by omega)).2

theorem above_foldl_meet (t : DominatorTable) (q : Nat) (rest : List Nat) :
    (∀ r ∈ q :: rest, t.Above (rest.foldl (fun r q => t.meet q r) q) r) ∧
      ∀ a, (∀ r ∈ q :: rest, t.Above a r) → t.Above a (rest.foldl (fun r q => t.meet q r) q) := by
  induction rest generalizing q with
  | nil => simp [Above.refl]
  | cons p rest ih =>
    obtain ⟨hlower, hgreatest⟩ := ih (t.meet p q)
    rw [List.foldl_cons]
    have hmeet := hlower (t.meet p q) List.mem_cons_self
    refine ⟨fun r hr => ?_, fun a ha => ?_⟩
    · rcases List.mem_cons.1 hr with rfl | hr
      · exact hmeet.trans (above_meet_right t p r)
      · rcases List.mem_cons.1 hr with rfl | hr
        · exact hmeet.trans (above_meet_left t r q)
        · exact hlower r (List.mem_cons_of_mem _ hr)
    · apply hgreatest
      intro r hr
      rcases List.mem_cons.1 hr with rfl | hr
      · exact (ha p (by simp)).meet (ha q (by simp))
      · exact ha r (by simp [hr])

theorem get_eq_getElem? (t : DominatorTable) (p : Nat) : t.get p = t[p]?.join := by
  unfold get
  rw [Array.getD_eq_getD_getElem?]
  cases t[p]? <;> rfl

theorem lt_size_of_get (h : t.get p = some q) : p < t.size := by
  by_contra hp
  rw [get_eq_getElem?, Array.getElem?_eq_none (by omega)] at h
  cases h

theorem eq_of_get (hsize : c.size = t.size) (h : ∀ p < t.size, c.get p = t.get p) : c = t := by
  refine Array.ext hsize fun p hc ht => ?_
  have := h p ht
  rwa [get_eq_getElem?, get_eq_getElem?, Array.getElem?_eq_getElem hc, Array.getElem?_eq_getElem ht] at this

@[simp]
theorem size_improve (t : DominatorTable) (p : Nat) (qs : List Nat) : (t.improve p qs).size = t.size := by
  unfold improve
  split
  · rfl
  · simp

theorem get_setIfInBounds (t : DominatorTable) (p q : Nat) (d : Option Nat) :
    get (t.setIfInBounds p d) q = if p = q ∧ p < t.size then d else t.get q := by
  unfold get
  rw [Array.getD_eq_getD_getElem?, Array.getD_eq_getD_getElem?]
  grind

theorem get_improve_of_ne (t : DominatorTable) {p q : Nat} (qs : List Nat) (h : p ≠ q) :
    (t.improve p qs).get q = t.get q := by
  unfold improve
  split
  · rfl
  · rw [get_setIfInBounds, if_neg]
    exact fun hpq => h hpq.1

theorem improve_spec (t : DominatorTable) {p : Nat} {qs : List Nat} (hp : p < t.size)
    (hq : ∃ q ∈ qs, (t.get q).isSome) :
    ∃ m, (t.improve p qs).get p = some m ∧ (∀ q ∈ qs, (t.get q).isSome → t.Above m q) ∧
      ∀ a, (∀ q ∈ qs, (t.get q).isSome → t.Above a q) → t.Above a m := by
  unfold improve
  split
  · next hnil =>
    obtain ⟨q, hq, hs⟩ := hq
    have : q ∈ qs.filter fun q => (t.get q).isSome := List.mem_filter.2 ⟨hq, hs⟩
    rw [hnil] at this
    simp at this
  · next q rest hcons =>
    have hmem : ∀ r, r ∈ q :: rest ↔ r ∈ qs ∧ (t.get r).isSome := by
      intro r
      rw [← hcons]
      exact List.mem_filter
    obtain ⟨hlower, hgreatest⟩ := above_foldl_meet t q rest
    refine ⟨rest.foldl (fun r q => t.meet q r) q, ?_, fun r hr hs => ?_, fun a ha => ?_⟩
    · rw [get_setIfInBounds, if_pos ⟨rfl, hp⟩]
    · exact hlower r ((hmem r).2 ⟨hr, hs⟩)
    · exact hgreatest a fun r hr => ha r ((hmem r).1 hr).1 ((hmem r).1 hr).2

end DominatorTable

end ContractFlow.Graph
