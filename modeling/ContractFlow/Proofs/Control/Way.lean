import ContractFlow.Proofs.Control.Region
import Mathlib.Computability.Language

/-!
This module contains ways through regions of a control flow graph, with the nodes that are visited on them.
-/

open Computability

namespace ContractFlow

namespace Draft

variable {d d₁ d₂ : Draft} {ps qs s : List Nat} {low high i j k : Nat} {w w₁ w₂ : List NodeId}

def visited (d : Draft) (i : Nat) : List NodeId :=
  (d.points.getD i default).kind.node?.toList

@[simp]
theorem visited_connect (ps : Pending) (target : Nat) : (d.connect ps target).visited i = d.visited i := by
  unfold visited
  rw [points_connect]

theorem Sound.visited_eq_nil (h : d.Sound) (hi : i = entry ∨ i = exit) : d.visited i = [] := by
  obtain ⟨owner, rest, hpoints, -⟩ := h.entry_point
  unfold visited
  rw [Array.getD_eq_getD_getElem?, ← Array.getElem?_toList, hpoints]
  rcases hi with rfl | rfl
  · rfl
  · rfl

inductive Way (d : Draft) (low high i : Nat) : Nat → List NodeId → Prop
  | start : Way d low high i i []
  | step {j k : Nat} {w : List NodeId} : Way d low high i j w → d.HasEdge j k → low ≤ k → k < high →
      Way d low high i k (w ++ d.visited k)

namespace Way

theorem trans (h₁ : d.Way low high i j w₁) (h₂ : d.Way low high j k w₂) : d.Way low high i k (w₁ ++ w₂) := by
  induction h₂ with
  | start => rwa [List.append_nil]
  | step _ hedge hlow hhigh ih =>
    rw [← List.append_assoc]
    exact ih.step hedge hlow hhigh

theorem mono {low' high' : Nat} (h : d.Way low high i j w) (hlow : low' ≤ low) (hhigh : high ≤ high') :
    d.Way low' high' i j w := by
  induction h with
  | start => exact .start
  | step _ hedge hl hh ih => exact ih.step hedge (by omega) (by omega)

theorem cases_end (h : d.Way low high i j w) : j = i ∧ w = [] ∨ low ≤ j ∧ j < high := by
  cases h with
  | start => exact .inl ⟨rfl, rfl⟩
  | step _ _ hl hh => exact .inr ⟨hl, hh⟩

end Way

theorem visited_of_prefix (h : d₁.points.toList <+: d₂.points.toList) (hk : k < d₁.size) :
    d₂.visited k = d₁.visited k := by
  obtain ⟨made, hmade⟩ := h
  have hk : k < d₁.points.toList.length := hk
  unfold visited
  simp only [Array.getD_eq_getD_getElem?, ← Array.getElem?_toList]
  rw [← hmade, List.getElem?_append_left hk]

theorem visited_of_region (h : Region qs d₁ d₂ s) (hk : k < d₁.size) : d₂.visited k = d₁.visited k := by
  obtain ⟨made, hmade, -⟩ := h.points
  exact visited_of_prefix ⟨made, hmade.symm⟩ hk

theorem way_iff_of_region (h : Region qs d₁ d₂ s) (hlow : exit < low) :
    d₂.Way low d₁.size i j w ↔ d₁.Way low d₁.size i j w := by
  have hedge : ∀ j k, low ≤ k → k < d₁.size → (d₂.HasEdge j k ↔ d₁.HasEdge j k) :=
    fun j k hl hh => h.old j k hh (by omega)
  constructor
  · intro hway
    induction hway with
    | start => exact .start
    | step _ he hl hh ih =>
      rw [visited_of_region h hh]
      exact ih.step ((hedge _ _ hl hh).1 he) hl hh
  · intro hway
    induction hway with
    | start => exact .start
    | step _ he hl hh ih =>
      rw [← visited_of_region h hh]
      exact ih.step ((hedge _ _ hl hh).2 he) hl hh

theorem Way.split (h : Region qs d₁ d₂ s) (hd : d₁.Sound) (hlow : exit < low)
    (hi : i < d₁.size) (hway : d₂.Way low d₂.size i j w) :
    d₁.Way low d₁.size i j w ∨ d₁.size ≤ j ∧ ∃ k ∈ qs, ∃ w₁ w₂, d₁.Way low d₁.size i k w₁ ∧
      d₂.Way d₁.size d₂.size k j w₂ ∧ w₁ ++ w₂ = w := by
  induction hway with
  | start => exact .inl .start
  | @step j k w _ he hl hh ih =>
    by_cases hk : k < d₁.size
    · have he₁ := (h.old j k hk (by omega)).1 he
      have hj := (hd.edge j k he₁).1
      rcases ih with hfirst | ⟨hle, -⟩
      · rw [visited_of_region h hk]
        exact .inl (hfirst.step he₁ hl hk)
      · omega
    · refine .inr ⟨by omega, ?_⟩
      have hinside := (h.new j k (by omega) he).1
      rcases ih with hfirst | ⟨hle, k₀, hk₀, w₁, w₂, hfirst, hsecond, rfl⟩
      · have hj : j ∈ qs := by
          rcases hfirst.cases_end, hinside with ⟨⟨rfl, -⟩ | hj, hq | hj'⟩
          · exact hq
          · omega
          · exact hq
          · omega
        exact ⟨j, hj, w, _, hfirst, Way.start.step he (by omega) hh, rfl⟩
      · refine ⟨k₀, hk₀, w₁, _, hfirst, hsecond.step he (by omega) hh, ?_⟩
        rw [List.append_assoc]

/-- From each of `ps` just `l` can be visited on the ways over new points to a point of `target`. -/
def Leads (ps : List Nat) (d d' : Draft) (target : Nat → Prop) (l : Language NodeId) : Prop :=
  ∀ i ∈ ps, ∀ w, w ∈ l ↔ ∃ j, target j ∧ d'.Way d.size d'.size i j w

namespace Leads

variable {target other : Nat → Prop} {l m : Language NodeId}

theorem congr (h : Leads ps d d₁ target l) (htarget : ∀ j, target j ↔ other j) : Leads ps d d₁ other l := by
  intro i hi w
  simp only [h i hi w, htarget]

theorem union (h₁ : Leads ps d d₁ target l) (h₂ : Leads ps d d₁ other m) :
    Leads ps d d₁ (fun j => target j ∨ other j) (l + m) := by
  intro i hi w
  rw [Language.mem_add, h₁ i hi, h₂ i hi]
  simp only [or_and_right, exists_or]

theorem none : Leads ps d d₁ (fun _ => False) 0 := by
  intro i hi w
  simp [Language.notMem_zero]

theorem stay (h : d.Placed ps) : Leads ps d d₁ (· ∈ ps) 1 := by
  intro i hi w
  rw [Language.mem_one]
  constructor
  · rintro rfl
    exact ⟨i, hi, .start⟩
  · rintro ⟨j, hj, hway⟩
    rcases hway.cases_end with ⟨-, hw⟩ | hj'
    · exact hw
    · have := h.source j hj
      omega

theorem widen (h : Leads ps d d₁ target l) (hr : Region qs d₁ d₂ s) (hp : d.Placed ps)
    (hd : d₁.Sound) (hle : d.size ≤ d₁.size) (htarget : ∀ j, target j → j < d₁.size) :
    Leads ps d d₂ target l := by
  have hexit := hp.exit_lt
  intro i hi w
  have hlt := (hp.source i hi).1
  rw [h i hi]
  constructor
  · rintro ⟨j, hj, hway⟩
    exact ⟨j, hj, ((way_iff_of_region hr hexit).2 hway).mono (Nat.le_refl _) hr.le⟩
  · rintro ⟨j, hj, hway⟩
    rcases hway.split hr hd hexit (by omega) with hway | ⟨hge, -⟩
    · exact ⟨j, hj, hway⟩
    · have := htarget j hj
      omega

theorem append (h₁ : Leads ps d d₁ target l) (h₂ : Leads qs d₁ d₂ other m) (hr : Region qs d₁ d₂ s)
    (hp : d.Placed ps) (hq : d₁.Placed qs) (hle : d.size ≤ d₁.size)
    (hqs : ∀ j, j ∈ qs ↔ target j) (hother : ∀ j, other j → Inside qs d₁ d₂ j) :
    Leads ps d d₂ other (l * m) := by
  have hexit := hp.exit_lt
  intro i hi w
  have hlt := (hp.source i hi).1
  constructor
  · rintro ⟨w₁, hw₁, w₂, hw₂, rfl⟩
    obtain ⟨k, hk, hway₁⟩ := (h₁ i hi w₁).1 hw₁
    obtain ⟨j, hj, hway₂⟩ := (h₂ k ((hqs k).2 hk) w₂).1 hw₂
    have hfirst := ((way_iff_of_region hr hexit).2 hway₁).mono (Nat.le_refl _) hr.le
    exact ⟨j, hj, hfirst.trans (hway₂.mono hle (Nat.le_refl _))⟩
  · rintro ⟨j, hj, hway⟩
    rcases hway.split hr hq.toSound hexit (by omega) with hway | ⟨-, k, hk, w₁, w₂, hway₁, hway₂, rfl⟩
    · -- the way ends in front of the second region, so where that starts
      have hjq : j ∈ qs := by
        rcases hother j hj with hjq | hjq
        · exact hjq
        · rcases hway.cases_end with ⟨rfl, -⟩ | hj' <;> omega
      exact ⟨w, (h₁ i hi w).2 ⟨j, (hqs j).1 hjq, hway⟩, [], (h₂ j hjq []).2 ⟨j, hj, .start⟩,
        List.append_nil w⟩
    · exact ⟨w₁, (h₁ i hi w₁).2 ⟨k, (hqs k).1 hk, hway₁⟩, w₂, (h₂ k hk w₂).2 ⟨j, hj, hway₂⟩, rfl⟩

theorem extend {ps : Pending} {p : Point} (h : d.Placed ps.sources) :
    Leads ps.sources d (d.extend p ps).2 (· = d.size) {p.kind.node?.toList} := by
  have hvisited : (d.extend p ps).2.visited d.size = p.kind.node?.toList := by
    unfold visited size
    rw [points_extend]
    simp [Array.getD_eq_getD_getElem?]
  intro i hi w
  have hlt := (h.source i hi).1
  constructor
  · rintro rfl
    refine ⟨d.size, rfl, ?_⟩
    have hedge : (d.extend p ps).2.HasEdge i d.size := (hasEdge_extend p ps).2 (.inr ⟨hi, rfl⟩)
    rw [← hvisited, size_extend]
    exact Way.start.step hedge (Nat.le_refl _) (by omega)
  · rintro ⟨_, rfl, hway⟩
    generalize hj : d.size = j at hway
    cases hway with
    | start => omega
    | @step k _ w hway hedge _ _ =>
      subst hj
      rcases (hasEdge_extend p ps).1 hedge with hedge | ⟨hk, -⟩
      · have := h.edge k d.size hedge
        omega
      · have hlt' := (h.source k hk).1
        rcases hway.cases_end with ⟨-, rfl⟩ | hge
        · rw [hvisited]
          rfl
        · omega

section Loop

variable {ps back : Pending} {owner : CallableId}

theorem way_of_round (h : d₁.Way (d.size + 1) d₁.size d.size j w) :
    (d₁.connect back d.size).Way d.size d₁.size d.size j w := by
  induction h with
  | start => exact .start
  | @step j k w _ he hl hh ih =>
    rw [← visited_connect back d.size]
    exact ih.step ((hasEdge_connect back _).2 (.inl he)) (by omega) hh

theorem visited_header (hr : Region [d.size] (d.extend ⟨.join, owner⟩ ps).2 d₁ s) :
    (d₁.connect back d.size).visited d.size = [] := by
  rw [visited_connect, visited_of_region hr (by rw [size_extend]; omega)]
  unfold visited size
  rw [points_extend]
  simp [PointKind.node?]

variable (hp : d.Placed ps.sources) (hr : Region [d.size] (d.extend ⟨.join, owner⟩ ps).2 d₁ s)

include hp hr

theorem mem_of_edge_to_header (h : d₁.HasEdge j d.size) : j ∈ ps.sources := by
  have hexit := hp.exit_lt
  rw [hr.old j d.size (by rw [size_extend]; omega) (by omega), hasEdge_extend] at h
  rcases h with h | ⟨h, -⟩
  · have := hp.edge j d.size h
    omega
  · exact h

theorem rounds_of_way (hback : Leads [d.size] (d.extend ⟨.join, owner⟩ ps).2 d₁ (· ∈ back.sources) l)
    (hi : i ∈ ps.sources) (h : (d₁.connect back d.size).Way d.size d₁.size i j w) :
    j = i ∧ w = [] ∨ d.size ≤ j ∧ ∃ w₁ ∈ l∗, ∃ w₂,
      d₁.Way (d.size + 1) d₁.size d.size j w₂ ∧ w₁ ++ w₂ = w := by
  have hlt := (hp.source i hi).1
  induction h with
  | start => exact .inl ⟨rfl, rfl⟩
  | @step j k w _ he hl hh ih =>
    refine .inr ⟨hl, ?_⟩
    rw [hasEdge_connect] at he
    by_cases hk : k = d.size
    · subst hk
      rw [visited_header hr, List.append_nil]
      rcases ih with ⟨-, rfl⟩ | ⟨hj, w₁, hw₁, w₂, hway, rfl⟩
      · exact ⟨[], Language.nil_mem_kstar l, [], .start, rfl⟩
      · have hjback : j ∈ back.sources := by
          rcases he with he | ⟨he, -⟩
          · have := hp.source j (mem_of_edge_to_header hp hr he)
            omega
          · exact he
        have hround : w₂ ∈ l := by
          rw [hback d.size (List.mem_singleton_self _), size_extend]
          exact ⟨j, hjback, hway⟩
        refine ⟨w₁ ++ w₂, ?_, [], .start, List.append_nil _⟩
        exact kstar_mul_le_kstar (a := l) (Language.append_mem_mul hw₁ hround)
    · have he := he.resolve_right fun h => hk h.2
      have hinside := (hr.new j k (by rw [size_extend]; omega) he).1
      rcases ih with ⟨rfl, rfl⟩ | ⟨hj, w₁, hw₁, w₂, hway, rfl⟩
      · unfold Inside at hinside
        rw [size_extend, List.mem_singleton] at hinside
        omega
      · refine ⟨w₁, hw₁, w₂ ++ d₁.visited k, hway.step he (by omega) hh, ?_⟩
        rw [visited_connect, List.append_assoc]

theorem loop (hback : Leads [d.size] (d.extend ⟨.join, owner⟩ ps).2 d₁ (· ∈ back.sources) l)
    (h : Leads [d.size] (d.extend ⟨.join, owner⟩ ps).2 d₁ target m)
    (htarget : ∀ j, target j → Inside [d.size] (d.extend ⟨.join, owner⟩ ps).2 d₁ j) :
    Leads ps.sources d (d₁.connect back d.size) target (l∗ * m) := by
  have hheader : d.size < d₁.size := by
    have := hr.le
    rw [size_extend] at this
    omega
  -- all that can be visited from the header on
  let behind : Language NodeId :=
    { w | ∃ j, target j ∧ (d₁.connect back d.size).Way d.size d₁.size d.size j w }
  have hbehind : l∗ * m ≤ behind := by
    apply kstar_mul_le
    · intro w hw
      obtain ⟨j, hj, hway⟩ := (h d.size (List.mem_singleton_self _) w).1 hw
      rw [size_extend] at hway
      exact ⟨j, hj, way_of_round hway⟩
    · rintro _ ⟨w₁, hw₁, w₂, ⟨j, hj, hway⟩, rfl⟩
      obtain ⟨k, hk, hround⟩ := (hback d.size (List.mem_singleton_self _) w₁).1 hw₁
      rw [size_extend] at hround
      have hedge : (d₁.connect back d.size).HasEdge k d.size :=
        (hasEdge_connect back _).2 (.inr ⟨hk, rfl⟩)
      have hthere : (d₁.connect back d.size).Way d.size d₁.size d.size k w₁ := way_of_round hround
      have hagain := hthere.step hedge (Nat.le_refl _) hheader
      rw [visited_header hr, List.append_nil] at hagain
      exact ⟨j, hj, hagain.trans hway⟩
  intro i hi w
  rw [size_connect]
  constructor
  · intro hw
    obtain ⟨j, hj, hway⟩ := hbehind hw
    have hedge : (d₁.connect back d.size).HasEdge i d.size := by
      rw [hasEdge_connect, hr.old i d.size (by rw [size_extend]; omega) (by have := hp.exit_lt; omega),
        hasEdge_extend]
      exact .inl (.inr ⟨hi, rfl⟩)
    have hfirst := (Way.start (i := i)).step hedge (Nat.le_refl d.size) hheader
    rw [visited_header hr] at hfirst
    exact ⟨j, hj, hfirst.trans hway⟩
  · rintro ⟨j, hj, hway⟩
    rcases rounds_of_way hp hr hback hi hway with ⟨rfl, -⟩ | ⟨-, w₁, hw₁, w₂, hround, rfl⟩
    · have hlt := (hp.source j hi).1
      have hinside := htarget j hj
      unfold Inside at hinside
      rw [size_extend, List.mem_singleton] at hinside
      omega
    · refine Language.append_mem_mul hw₁ ?_
      rw [h d.size (List.mem_singleton_self _), size_extend]
      exact ⟨j, hj, hround⟩

end Loop

end Leads

end Draft

end ContractFlow
