import ContractFlow.Proofs.Graph.DominatorTable
import Mathlib.Data.List.Forall2
import Mathlib.Logic.Function.Iterate

/-!
This module shows that the rounds over a dominator table settle: in the end the way up from a vertex is
the common part of the ways up from its predecessors.
-/

namespace ContractFlow.Graph.DominatorTable

structure Numbered (preds : Nat → List Nat) (size : Nat) : Prop where
  lt : ∀ p < size, ∀ r ∈ preds p, r < size
  earlier : ∀ p, 0 < p → p < size → ∃ r ∈ preds p, r < p

variable {preds : Nat → List Nat} {t c : DominatorTable} {k : Nat}
variable {p size : Nat}

def sweep (preds : Nat → List Nat) (t : DominatorTable) (k : Nat) : DominatorTable :=
  (List.range' 1 k).foldl (fun t p => t.improve p (preds p)) t

theorem round_eq_sweep (preds : Nat → List Nat) (t : DominatorTable) :
    t.round preds = sweep preds t (t.size - 1) := rfl

theorem sweep_zero (preds : Nat → List Nat) (t : DominatorTable) : sweep preds t 0 = t := rfl

theorem sweep_succ (preds : Nat → List Nat) (t : DominatorTable) (k : Nat) :
    sweep preds t (k + 1) = (sweep preds t k).improve (k + 1) (preds (k + 1)) := by
  unfold sweep
  rw [List.range'_1_concat, List.foldl_append, Nat.add_comm]
  rfl

@[simp]
theorem size_sweep (preds : Nat → List Nat) (t : DominatorTable) (k : Nat) : (sweep preds t k).size = t.size := by
  induction k with
  | zero => rfl
  | succ k ih => rw [sweep_succ, size_improve, ih]

theorem get_sweep_of_le {k j : Nat} (hp : p ≤ k) (hk : k ≤ j) : (sweep preds t j).get p = (sweep preds t k).get p := by
  induction hk with
  | refl => rfl
  | step hk ih =>
    have := Nat.le_trans hp hk
    rw [sweep_succ, get_improve_of_ne _ _ (by omega)]
    exact ih

theorem get_sweep_of_lt {k : Nat} (hp : k < p) : (sweep preds t k).get p = t.get p := by
  induction k with
  | zero => rfl
  | succ k ih =>
    rw [sweep_succ, get_improve_of_ne _ _ (by omega)]
    exact ih (by omega)

structure Filled (preds : Nat → List Nat) (t : DominatorTable) (k : Nat) : Prop where
  zero : t.get 0 = some 0
  known : ∀ p, 0 < p → p ≤ k → t.get p = some (t.up p)
  lower : ∀ q, 0 < q → q ≤ k → ∀ r ∈ preds q, r < q → t.Above (t.up q) r

namespace Filled

theorem isSome (h : Filled preds t k) {p : Nat} (hp : p ≤ k) : (t.get p).isSome := by
  by_cases hz : p = 0
  · rw [hz, h.zero]
    rfl
  · rw [h.known p (by omega) hp]
    rfl

theorem of_le (h : Filled preds t k) {j : Nat} (hj : j ≤ k) : Filled preds t j where
  zero := h.zero
  known p hp hpj := h.known p hp (by omega)
  lower q hq hqj := h.lower q hq (by omega)

theorem improve (h : Filled preds c k) (hk : k + 1 < c.size) (he : ∃ r ∈ preds (k + 1), r < k + 1) :
    Filled preds (c.improve (k + 1) (preds (k + 1))) (k + 1) ∧
      (∀ r ∈ preds (k + 1), (c.get r).isSome →
        c.Above ((c.improve (k + 1) (preds (k + 1))).up (k + 1)) r) ∧
      ∀ a, (∀ r ∈ preds (k + 1), (c.get r).isSome → c.Above a r) →
        c.Above a ((c.improve (k + 1) (preds (k + 1))).up (k + 1)) := by
  obtain ⟨r₀, hr₀, hlt₀⟩ := he
  have hsome₀ := h.isSome (p := r₀) (by omega)
  obtain ⟨m, hm, hlower, hgreatest⟩ := improve_spec c hk ⟨r₀, hr₀, hsome₀⟩
  generalize hc : c.improve (k + 1) (preds (k + 1)) = c' at hm ⊢
  have hmlt : m < k + 1 := by
    have := (hlower r₀ hr₀ hsome₀).le
    omega
  have hup : c'.up (k + 1) = m := up_eq_of_get hm hmlt
  have hget : ∀ p, p ≤ k → c.get p = c'.get p := by
    intro p hp
    rw [← hc, get_improve_of_ne _ _ (by omega)]
  refine ⟨⟨?_, fun p hp hpk => ?_, fun q hq hqk r hr hrq => ?_⟩, ?_, ?_⟩
  · rw [← hget 0 (by omega)]
    exact h.zero
  · by_cases hpk' : p = k + 1
    · rw [hpk', hup, hm]
    · rw [← hget p (by omega), ← up_congr (hget p (by omega))]
      exact h.known p hp (by omega)
  · by_cases hqk' : q = k + 1
    · subst hqk'
      rw [hup]
      apply (hlower r hr (h.isSome (by omega))).congr
      intro p hp
      exact hget p (by omega)
    · rw [← up_congr (hget q (by omega))]
      apply (h.lower q hq (by omega) r hr hrq).congr
      intro p hp
      exact hget p (by omega)
  · rw [hup]
    exact hlower
  · rw [hup]
    exact hgreatest

theorem descends (h : Filled preds t k) {p q : Nat} (hp : p ≤ k) (hq : t.get p = some q) :
    (p ≠ 0 → q < p) ∧ (t.get q).isSome := by
  by_cases hz : p = 0
  · rw [hz, h.zero] at hq
    obtain rfl := Option.some.inj hq
    exact ⟨fun hne => absurd hz hne, h.isSome (Nat.zero_le _)⟩
  · rw [h.known p (by omega) hp] at hq
    obtain rfl := Option.some.inj hq
    have hlt : t.up p < p := up_lt hz
    exact ⟨fun _ => hlt, h.isSome (by omega)⟩

end Filled

theorem get_start (size p : Nat) : (start size).get p = if p = 0 ∧ p < size then some 0 else none := by
  unfold get start
  rw [Array.getD_eq_getD_getElem?, Array.getElem?_ofFn]
  by_cases hp : p < size
  · simp [hp]
  · rw [dif_neg hp, if_neg fun h => hp h.2]
    rfl

theorem sweep_start (hn : Numbered preds size) (hk : k < size) :
    Filled preds (sweep preds (start size) k) k ∧
      ∀ q, 0 < q → q ≤ k → ∀ a,
        (∀ r ∈ preds q, r < q → (sweep preds (start size) k).Above a r) →
          (sweep preds (start size) k).Above a ((sweep preds (start size) k).up q) := by
  induction k with
  | zero =>
    refine ⟨⟨?_, fun p hp hpk => by omega, fun q hq hqk => by omega⟩, fun q hq hqk => by omega⟩
    rw [sweep_zero, get_start, if_pos ⟨rfl, hk⟩]
  | succ k ih =>
    obtain ⟨hfilled, hgreatest⟩ := ih (by omega)
    have hsize : (start size).size = size := by simp [start]
    obtain ⟨hfilled', -, hlast⟩ := hfilled.improve (by rw [size_sweep, hsize]; exact hk)
      (hn.earlier (k + 1) (by omega) hk)
    rw [← sweep_succ] at hfilled' hlast
    refine ⟨hfilled', fun q hq hqk a ha => ?_⟩
    have hget : ∀ p ≤ k, (sweep preds (start size) (k + 1)).get p
        = (sweep preds (start size) k).get p :=
      fun p hp => get_sweep_of_le hp (by omega)
    by_cases hqk' : q = k + 1
    · subst hqk'
      have hup : (sweep preds (start size) (k + 1)).up (k + 1) < k + 1 := up_lt (by omega)
      apply (hlast a fun r hr hs => ?_).congr
      · intro p hp
        rw [hget p (by omega)]
      · have hr' : r < k + 1 := by
          by_contra hge
          rw [get_sweep_of_lt (by omega), get_start, if_neg (by omega)] at hs
          simp at hs
        exact (ha r hr hr').congr fun p hp => hget p (by omega)
    · have hqlt : (sweep preds (start size) k).up q < q := up_lt (by omega)
      rw [up_congr (hget q (by omega))]
      apply (hgreatest q hq (by omega) a fun r hr hrq => ?_).congr
      · intro p hp
        rw [hget p (by omega)]
      · exact (ha r hr hrq).congr fun p hp => hget p (by omega)

theorem isDescending_sweep_start (hn : Numbered preds size) (hk : k < size) :
    (sweep preds (start size) k).IsDescending := by
  intro p q hq
  refine (sweep_start hn hk).1.descends ?_ hq
  by_contra hpk
  rw [get_sweep_of_lt (by omega), get_start, if_neg (by omega)] at hq
  cases hq

structure IsDominance (preds : Nat → List Nat) (size : Nat) (dom : Nat → Nat → Prop) : Prop where
  zero : ∀ a, dom a 0 → a = 0
  pred : ∀ a p, 0 < p → p < size → dom a p → a ≠ p → ∀ r ∈ preds p, dom a r

theorem Filled.dom_of_above {dom : Nat → Nat → Prop} {a q : Nat} (h : Filled preds t (t.size - 1))
    (hn : Numbered preds t.size) (hd : IsDominance preds t.size dom) (hq : q < t.size) (habove : t.Above p q)
    (hle : a ≤ p) (hdom : dom a q) : dom a p := by
  -- the way from `p` to `q` does not come below `p`, so that `a` cannot lie behind `p` on it
  induction q using Nat.strongRecOn with
  | ind q ih =>
    by_cases hne : p = q
    · exact hne ▸ hdom
    · obtain ⟨hz, hup⟩ := habove.up_of_ne hne
      obtain ⟨r, hr, hrq⟩ := hn.earlier q (by omega) hq
      have hpr : t.Above p r := hup.trans (h.lower q (by omega) (by omega) r hr hrq)
      have := habove.le
      exact ih r hrq (by omega) hpr (hd.pred a q (by omega) hq hdom (by omega) r hr)

def Keeps (preds : Nat → List Nat) (size : Nat) (t : DominatorTable) : Prop :=
  ∀ dom, IsDominance preds size dom → ∀ a, ∀ p < size, dom a p → t.Above a p

structure Swept (preds : Nat → List Nat) (t : DominatorTable) : Prop where
  filled : Filled preds t (t.size - 1)
  greatest : ∀ q, 0 < q → q < t.size → ∀ a, (∀ r ∈ preds q, t.Above a r) → t.Above a (t.up q)
  keeps : Keeps preds t.size t

theorem swept_round_start (hn : Numbered preds size) (hs : 0 < size) : Swept preds ((start size).round preds) := by
  have hsize : (start size).size = size := by simp [start]
  obtain ⟨hfilled, hgreatest⟩ := sweep_start (k := size - 1) hn (by omega)
  rw [round_eq_sweep, hsize]
  refine ⟨?_, fun q hq hqs a ha => ?_, fun dom hd a p hp hdom => ?_⟩
  · rw [size_sweep, hsize]
    exact hfilled
  · rw [size_sweep] at hqs
    exact hgreatest q hq (by omega) a fun r hr _ => ha r hr
  · rw [size_sweep] at hp hd
    induction p using Nat.strongRecOn with
    | ind p ih =>
      by_cases hap : a = p
      · exact hap ▸ .refl
      · have hz : p ≠ 0 := fun hz => hap ((hd.zero a (hz ▸ hdom)).trans hz.symm)
        refine .up hz (hgreatest p (by omega) (by omega) a fun r hr hrp => ih r hrp (by omega) ?_)
        exact hd.pred a p (by omega) hp hdom hap r hr

structure Sweeping (preds : Nat → List Nat) (t : DominatorTable) (k : Nat) (c : DominatorTable) :
    Prop where
  filled : Filled preds c k
  same : ∀ p, k < p → c.get p = t.get p
  sub : ∀ a p, c.Above a p → t.Above a p
  greatest : ∀ q, 0 < q → q ≤ k → ∀ a, (∀ r ∈ preds q, c.Above a r) → c.Above a (c.up q)
  cross : ∀ p ≤ k, ∀ z x, t.Above z p → c.Above x p → x < z → c.Above x z
  keeps : Keeps preds t.size c

namespace Sweeping

theorem start (h : Swept preds t) : Sweeping preds t 0 t where
  filled := h.filled.of_le (Nat.zero_le _)
  same _ _ := rfl
  sub _ _ ha := ha
  greatest q hq hqk := by omega
  cross p hp z x hz _ hxz := by
    have := hz.le
    omega
  keeps := h.keeps

theorem isSome (h : Sweeping preds t k c) (ht : Swept preds t) {p : Nat} (hp : p < t.size) : (c.get p).isSome := by
  by_cases hpk : p ≤ k
  · exact h.filled.isSome hpk
  · rw [h.same p (by omega)]
    exact ht.filled.isSome (by omega)

theorem isDescending (h : Sweeping preds t k c) (ht : Swept preds t) (hc : c.size = t.size) : c.IsDescending := by
  intro p q hq
  by_cases hpk : p ≤ k
  · exact h.filled.descends hpk hq
  · have hps : p < t.size := hc ▸ lt_size_of_get hq
    rw [h.same p (by omega)] at hq
    obtain ⟨hlt, -⟩ := ht.filled.descends (by omega) hq
    have := hlt (by omega)
    exact ⟨hlt, h.isSome ht (by omega)⟩

theorem improve (h : Sweeping preds t k c) (ht : Swept preds t) (hn : Numbered preds t.size)
    (hc : c.size = t.size) (hk : k + 1 < t.size) :
    Sweeping preds t (k + 1) (c.improve (k + 1) (preds (k + 1))) := by
  obtain ⟨r₀, hr₀, hlt₀⟩ := hn.earlier (k + 1) (by omega) hk
  obtain ⟨hfilled, hlower, hgreatest⟩ := h.filled.improve (by omega) ⟨r₀, hr₀, hlt₀⟩
  have hget : ∀ p, p ≠ k + 1 → (c.improve (k + 1) (preds (k + 1))).get p = c.get p :=
    fun p hp => get_improve_of_ne _ _ (Ne.symm hp)
  generalize c.improve (k + 1) (preds (k + 1)) = c' at hfilled hlower hgreatest hget ⊢
  have hup : c'.up (k + 1) < k + 1 := up_lt (by omega)
  have hsome : ∀ r ∈ preds (k + 1), (c.get r).isSome :=
    fun r hr => h.isSome ht (hn.lt (k + 1) hk r hr)
  have hbelow : ∀ {a p : Nat}, p ≤ k → c.Above a p → c'.Above a p := by
    intro a p hp ha
    apply ha.congr
    intro r hr
    rw [hget r (by omega)]
  have hold : c.up (k + 1) = t.up (k + 1) := up_congr (h.same (k + 1) (by omega))
  -- the new entry is above the old one, both being above the earlier predecessor
  have hnew : c.Above (c'.up (k + 1)) (c.up (k + 1)) := by
    have hle : c'.up (k + 1) ≤ t.up (k + 1) := by
      apply Above.le
      apply ht.greatest (k + 1) (by omega) hk
      exact fun r hr => h.sub _ _ (hlower r hr (hsome r hr))
    rw [hold]
    by_cases heq : c'.up (k + 1) = t.up (k + 1)
    · rw [heq]
      exact .refl
    · apply h.cross r₀ (by omega) _ _ _ (hlower r₀ hr₀ (hsome r₀ hr₀)) (by omega)
      exact ht.filled.lower (k + 1) (by omega) (by omega) r₀ hr₀ hlt₀
  have hsub : ∀ {a p : Nat}, c'.Above a p → c.Above a p := by
    intro a p ha
    induction ha with
    | refl => exact .refl
    | @up p hp _ ih =>
      by_cases hpk : p = k + 1
      · subst hpk
        exact .up hp (ih.trans hnew)
      · rw [up_congr (hget p hpk)] at ih
        exact .up hp ih
  refine ⟨hfilled, fun p hp => ?_, fun a p ha => h.sub a p (hsub ha), ?_, ?_, fun dom hd a p hp hdom => ?_⟩
  · rw [hget p (by omega)]
    exact h.same p (by omega)
  · intro q hq hqk a ha
    by_cases hqk' : q = k + 1
    · subst hqk'
      exact hbelow (by omega) (hgreatest a fun r hr _ => hsub (ha r hr))
    · have hqlt : c.up q < q := up_lt (by omega)
      rw [up_congr (hget q hqk')]
      exact hbelow (by omega) (h.greatest q hq (by omega) a fun r hr => hsub (ha r hr))
  · intro p hp z x hz hx hxz
    by_cases hpk : p = k + 1
    · subst hpk
      by_cases hzk : z = k + 1
      · rw [hzk]
        exact hx
      · have hz' : t.Above z (t.up (k + 1)) := (hz.up_of_ne hzk).2
        have hzr : t.Above z r₀ :=
          hz'.trans (ht.filled.lower (k + 1) (by omega) (by omega) r₀ hr₀ hlt₀)
        have hzle := hzr.le
        have hx' : c.Above x (c'.up (k + 1)) := hsub (hx.up_of_ne (by omega)).2
        have hxr : c.Above x r₀ := hx'.trans (hlower r₀ hr₀ (hsome r₀ hr₀))
        exact hbelow (by omega) (h.cross r₀ (by omega) z x hzr hxr hxz)
    · have hzle := hz.le
      exact hbelow (by omega) (h.cross p (by omega) z x hz (hsub hx) hxz)
  · have hnewest (hdom : dom a (k + 1)) (ha : a ≠ k + 1) : c'.Above a (k + 1) := by
      refine .up (by omega) (hbelow (by omega) (hgreatest a fun r hr _ => ?_))
      exact h.keeps dom hd a r (hn.lt _ hk r hr) (hd.pred a (k + 1) (by omega) hk hdom ha r hr)
    have hup := h.keeps dom hd a p hp hdom
    induction hup with
    | refl => exact .refl
    | @up p hz hup ih =>
      have hlt : c.up p < p := up_lt hz
      by_cases hpk : p = k + 1
      · subst hpk
        exact hnewest hdom (by have := hup.le; omega)
      · have hdom' := ht.filled.dom_of_above hn hd hp (h.sub _ p (.up hz .refl)) hup.le hdom
        refine .up hz ?_
        rw [up_congr (hget p hpk)]
        exact ih (by omega) hdom'

end Sweeping

theorem sweeping_sweep (ht : Swept preds t) (hn : Numbered preds t.size) (hk : k < t.size) :
    Sweeping preds t k (sweep preds t k) := by
  induction k with
  | zero => exact .start ht
  | succ k ih =>
    rw [sweep_succ]
    exact (ih (by omega)).improve ht hn (size_sweep preds t k) hk

@[simp]
theorem size_round (preds : Nat → List Nat) (t : DominatorTable) : (t.round preds).size = t.size :=
  size_sweep preds t _

section Round

variable (ht : Swept preds t) (hn : Numbered preds t.size) (hs : 0 < t.size)

include ht hn hs

theorem swept_round : Swept preds (t.round preds) := by
  have h := sweeping_sweep (k := t.size - 1) ht hn (by omega)
  rw [round_eq_sweep]
  refine ⟨?_, fun q hq hqs => ?_, ?_⟩
  · rw [size_sweep]
    exact h.filled
  · rw [size_sweep] at hqs
    exact h.greatest q hq (by omega)
  · rw [size_sweep]
    exact h.keeps

theorem up_round_le (p : Nat) : (t.round preds).up p ≤ t.up p := by
  have h := sweeping_sweep (k := t.size - 1) ht hn (by omega)
  rw [round_eq_sweep]
  by_cases hp : p = 0
  · subst hp
    have : (sweep preds t (t.size - 1)).up 0 ≤ 0 := up_le
    omega
  · have hlt : (sweep preds t (t.size - 1)).up p < p := up_lt hp
    have habove := h.sub _ p (.up hp .refl)
    exact (habove.up_of_ne (by omega)).2.le

theorem above_up_of_same (hsame : ∀ p < t.size, (t.round preds).up p = t.up p) {q : Nat} (hq : 0 < q)
    (hqs : q < t.size) {r : Nat} (hr : r ∈ preds q) :
    (t.round preds).Above ((t.round preds).up q) r := by
  obtain ⟨k, rfl⟩ : ∃ k, q = k + 1 := ⟨q - 1, by omega⟩
  have h := sweeping_sweep (k := k) ht hn (by omega)
  have hlast := sweeping_sweep (k := t.size - 1) ht hn (by omega)
  have hsize := size_sweep preds t k
  obtain ⟨-, hlower, -⟩ := h.filled.improve (by omega) (hn.earlier (k + 1) hq hqs)
  rw [← sweep_succ] at hlower
  have hup : (sweep preds t (k + 1)).up (k + 1) = (t.round preds).up (k + 1) := by
    exact up_congr (get_sweep_of_le (Nat.le_refl _) (by omega)).symm
  rw [hup] at hlower
  apply (hlower r hr (h.isSome ht (hn.lt _ hqs r hr))).congr
  intro p hp
  have hrs := hn.lt _ hqs r hr
  rw [round_eq_sweep] at hsame ⊢
  by_cases hpk : p ≤ k
  · exact (get_sweep_of_le hpk (by omega)).symm
  · rw [get_sweep_of_lt (by omega), ht.filled.known p (by omega) (by omega),
      hlast.filled.known p (by omega) (by omega), hsame p (by omega)]

end Round

def entryWeight (t : DominatorTable) (p : Nat) : Nat :=
  (t.get p).getD t.size

theorem entryWeight_eq_of_not_lt (hsize : c.size = t.size)
    (hle : ∀ p < t.size, c.entryWeight p ≤ t.entryWeight p) (h : ¬ c.potential < t.potential) :
    ∀ p < t.size, c.entryWeight p = t.entryWeight p := by
  have hget : ∀ {s : DominatorTable} {p : Nat} (hp : p < s.toList.length),
      s.toList.get ⟨p, hp⟩ = s.get p := by
    intro s p hp
    have hp' : p < s.size := by simpa using hp
    simp [get, Array.getD_eq_getD_getElem?, hp']
  have hforall : List.Forall₂ (fun x y : Option Nat => x.getD t.size ≤ y.getD t.size)
      c.toList t.toList := by
    apply List.forall₂_iff_get.2
    refine ⟨by simpa using hsize, fun p hc ht => ?_⟩
    have := hle p (by simpa using ht)
    unfold entryWeight at this
    rw [hsize] at this
    rw [hget, hget]
    exact this
  unfold potential at h
  rw [hsize] at h
  have heq := (List.forall₂_iff_get.1 (eq_of_total_le hforall (by omega))).2
  intro p hp
  have := heq p (by simpa [hsize] using hp) (by simpa using hp)
  rw [hget, hget] at this
  unfold entryWeight
  rw [hsize]
  exact this

theorem Filled.entryWeight_eq (h : Filled preds t (t.size - 1)) (hp : p < t.size) : t.entryWeight p = t.up p := by
  unfold entryWeight
  by_cases hz : p = 0
  · rw [hz, h.zero]
    unfold up
    simp
  · rw [h.known p (by omega) (by omega)]
    rfl

structure Settled (preds : Nat → List Nat) (t : DominatorTable) : Prop extends Swept preds t where
  lower : ∀ q, 0 < q → q < t.size → ∀ r ∈ preds q, t.Above (t.up q) r
  stable : t.round preds = t

theorem round_eq_of_not_lt (ht : Swept preds t) (hn : Numbered preds t.size) (hs : 0 < t.size)
    (h : ¬ (t.round preds).potential < t.potential) : t.round preds = t := by
  have hround := swept_round ht hn hs
  have hsize := size_round preds t
  have hup (p : Nat) (hp : p < t.size) : (t.round preds).up p = t.up p := by
    rw [← hround.filled.entryWeight_eq (by omega), ← ht.filled.entryWeight_eq hp]
    apply entryWeight_eq_of_not_lt hsize _ h p hp
    intro p hp
    rw [hround.filled.entryWeight_eq (by omega), ht.filled.entryWeight_eq hp]
    exact up_round_le ht hn hs p
  refine eq_of_get hsize fun p hp => ?_
  by_cases hz : p = 0
  · rw [hz, hround.filled.zero, ht.filled.zero]
  · rw [hround.filled.known p (by omega) (by omega), ht.filled.known p (by omega) (by omega), hup p hp]

theorem settled_of_round_eq (ht : Swept preds t) (hn : Numbered preds t.size) (hs : 0 < t.size)
    (h : t.round preds = t) : Settled preds t := by
  refine ⟨ht, fun q hq hqs r hr => ?_, h⟩
  have habove := above_up_of_same ht hn hs (fun p _ => congrArg (up · p) h) hq hqs hr
  rwa [h] at habove

theorem settled_settle_of_swept (ht : Swept preds t) (hn : Numbered preds t.size)
    (hs : 0 < t.size) :
    Settled preds (t.settle preds) ∧ (t.settle preds).size = t.size := by
  fun_induction settle preds t with
  | case1 t hlt ih =>
    have hsize := size_round preds t
    rw [← hsize]
    exact ih (swept_round ht hn hs) (by rwa [hsize]) (by omega)
  | case2 t hlt =>
    have hsame := round_eq_of_not_lt ht hn hs hlt
    rw [hsame]
    exact ⟨settled_of_round_eq ht hn hs hsame, rfl⟩

theorem exists_iterate_eq_settle (preds : Nat → List Nat) (t : DominatorTable) :
    ∃ k, t.settle preds = (round preds)^[k] t := by
  fun_induction settle preds t with
  | case1 t hlt ih =>
    obtain ⟨k, hk⟩ := ih
    exact ⟨k + 1, hk⟩
  | case2 t hlt => exact ⟨1, rfl⟩

theorem potential_round_start_lt (hn : Numbered preds size) (hs : 1 < size) :
    ((start size).round preds).potential < (start size).potential := by
  have hsize : (start size).size = size := by simp [start]
  have hround := swept_round_start hn (by omega)
  have hrsize := size_round preds (start size)
  have hweight : ∀ p, 0 < p → p < size → (start size).entryWeight p = size := by
    intro p hp hps
    unfold entryWeight
    rw [get_start, if_neg (by omega), hsize]
    rfl
  by_contra hlt
  have heq := entryWeight_eq_of_not_lt hrsize (fun p hp => ?_) hlt 1 (by omega)
  · rw [hround.filled.entryWeight_eq (by omega), hweight 1 (by omega) (by omega)] at heq
    have : ((start size).round preds).up 1 < 1 := up_lt (by omega)
    omega
  · rw [hround.filled.entryWeight_eq (by omega)]
    have hup : ((start size).round preds).up p ≤ p := up_le
    by_cases hz : p = 0
    · omega
    · rw [hweight p (by omega) (by omega)]
      omega

theorem settled_settle_start (hn : Numbered preds size) (hs : 0 < size) :
    Settled preds ((start size).settle preds) ∧ ((start size).settle preds).size = size := by
  have hsize : (start size).size = size := by simp [start]
  have hrsize : ((start size).round preds).size = size := by rw [size_round, hsize]
  have hround := swept_round_start hn hs
  rw [settle]
  split
  · have := settled_settle_of_swept hround (by rwa [hrsize]) (by omega)
    rwa [hrsize] at this
  · next hlt =>
    have hone : size = 1 := by
      by_contra hne
      exact hlt (potential_round_start_lt hn (by omega))
    have hsame : (start size).round preds = start size := by
      rw [round_eq_sweep, hsize, hone]
      rfl
    rw [hsame] at hround ⊢
    exact ⟨settled_of_round_eq hround (by rwa [hsize]) (by omega) hsame, hsize⟩

theorem swept_iterate_start (hn : Numbered preds size) (hs : 0 < size) (k : Nat) :
    Swept preds ((round preds)^[k + 1] (start size)) ∧ ((round preds)^[k + 1] (start size)).size = size := by
  induction k with
  | zero =>
    refine ⟨swept_round_start hn hs, (size_round preds _).trans ?_⟩
    simp [start]
  | succ k ih =>
    rw [Function.iterate_succ_apply']
    exact ⟨swept_round ih.1 (by rwa [ih.2]) (by omega), (size_round preds _).trans ih.2⟩

/-- In all tables of all rounds the entries lead down to numbers that have entries. -/
theorem isDescending_sweep_iterate (hn : Numbered preds size) (rounds : Nat) (hk : k < size) :
    (sweep preds ((round preds)^[rounds] (start size)) k).IsDescending := by
  cases rounds with
  | zero => exact isDescending_sweep_start hn hk
  | succ rounds =>
    obtain ⟨hswept, hsize⟩ := swept_iterate_start hn (by omega) rounds
    rw [← hsize] at hn hk
    exact (sweeping_sweep hswept hn hk).isDescending hswept (size_sweep preds _ k)

end ContractFlow.Graph.DominatorTable
