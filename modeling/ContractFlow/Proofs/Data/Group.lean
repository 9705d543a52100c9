import ContractFlow.Data.Group
import Mathlib.Data.List.Induction
import Mathlib.Data.List.Nodup

/-! This module contains facts about lists without repetitions, lists of pairs and groups. -/

namespace ContractFlow

section Distinct

variable {α : Type} [BEq α] [LawfulBEq α]

theorem foldl_distinct (xs seen : List α) (hs : seen.Nodup) :
    (xs.foldl (fun seen x => if seen.contains x then seen else seen ++ [x]) seen).Nodup ∧
      ∀ y, y ∈ xs.foldl (fun seen x => if seen.contains x then seen else seen ++ [x]) seen ↔
        y ∈ seen ∨ y ∈ xs := by
  induction xs generalizing seen with
  | nil => simpa using hs
  | cons x xs ih =>
    rw [List.foldl_cons]
    by_cases hx : x ∈ seen
    · rw [if_pos (by simpa using hx)]
      obtain ⟨hnodup, hmem⟩ := ih seen hs
      refine ⟨hnodup, fun y => ?_⟩
      rw [hmem, List.mem_cons]
      grind
    · rw [if_neg (by simpa using hx)]
      obtain ⟨hnodup, hmem⟩ := ih (seen ++ [x]) (by simpa using List.Nodup.concat hx hs)
      refine ⟨hnodup, fun y => ?_⟩
      rw [hmem, List.mem_append, List.mem_singleton, List.mem_cons, or_assoc]

theorem nodup_distinct (xs : List α) : (distinct xs).Nodup :=
  (foldl_distinct xs [] List.nodup_nil).1

@[simp]
theorem mem_distinct_iff {xs : List α} {y : α} : y ∈ distinct xs ↔ y ∈ xs := by
  unfold distinct
  rw [(foldl_distinct xs [] List.nodup_nil).2]
  simp

end Distinct

section Lookup

variable {α κ : Type} [BEq κ] [LawfulBEq κ]

theorem mem_of_lookup_eq_some {l : List (κ × α)} {k : κ} {x : α} (h : l.lookup k = some x) : (k, x) ∈ l := by
  obtain ⟨front, back, rfl, -⟩ := List.lookup_eq_some_iff.1 h
  simp

theorem lookup_eq_none_iff {l : List (κ × α)} {k : κ} : l.lookup k = none ↔ ∀ x, (k, x) ∉ l := by
  rw [List.lookup_eq_none_iff]
  constructor
  · intro h x hx
    simpa using h _ hx
  · rintro h ⟨k', x⟩ hx
    rw [bne_iff_ne]
    rintro rfl
    exact h x hx

theorem lookup_eq_some_iff {l : List (κ × α)} {k : κ} {x : α}
    (hl : ∀ y, (k, y) ∈ l → ∀ z, (k, z) ∈ l → y = z) : l.lookup k = some x ↔ (k, x) ∈ l := by
  constructor
  · exact mem_of_lookup_eq_some
  · intro hx
    cases hy : l.lookup k with
    | none => exact absurd hx (lookup_eq_none_iff.1 hy x)
    | some y => rw [hl y (mem_of_lookup_eq_some hy) x hx]

theorem lookup_map_eq {β : Type} [DecidableEq β] {l : List β} {key : β → κ} {f : β → α} {x : β}
    (hl : ∀ y ∈ l, key y = key x → y = x) :
    (l.map fun y => (key y, f y)).lookup (key x) = if x ∈ l then some (f x) else none := by
  induction l with
  | nil => rfl
  | cons y l ih =>
    rw [List.map_cons, List.lookup_cons]
    by_cases hy : key y = key x
    · obtain rfl := hl y List.mem_cons_self hy
      simp
    · rw [show (key x == key y) = false by simpa using Ne.symm hy, ih fun z hz => hl z (by simp [hz])]
      have hne : x ≠ y := by
        rintro rfl
        exact hy rfl
      simp [hne]

end Lookup

section Grouping

variable {α κ : Type} [BEq κ]
variable {groups : List (κ × List α)} {k : κ} {pairs : List (κ × α)}

def TellsApart (keys : List κ) : Prop :=
  ∀ k ∈ keys, ∀ k' ∈ keys, (k == k') = true ↔ k = k'

structure IsGrouping (pairs : List (κ × α)) (groups : List (κ × List α)) : Prop where
  nodup : (groups.map (·.1)).Nodup
  mem_iff : ∀ k, k ∈ groups.map (·.1) ↔ k ∈ pairs.map (·.1)
  values : ∀ g ∈ groups, g.2 = (pairs.filter fun p => p.1 == g.1).map (·.2)

theorem addToGroup_eq_append (x : α) (h : ∀ g ∈ groups, (g.1 == k) = false) :
    addToGroup groups k x = groups ++ [(k, [x])] := by
  induction groups with
  | nil => rfl
  | cons g groups ih =>
    obtain ⟨hg, hgroups⟩ := List.forall_mem_cons.1 h
    rw [addToGroup, hg, ih hgroups]
    rfl

theorem addToGroup_eq_map (x : α) (hnodup : (groups.map (·.1)).Nodup) (hk : k ∈ groups.map (·.1))
    (hlaw : ∀ g ∈ groups, (g.1 == k) = true ↔ g.1 = k) :
    addToGroup groups k x = groups.map fun g => (g.1, if g.1 == k then g.2 ++ [x] else g.2) := by
  induction groups with
  | nil => cases hk
  | cons g groups ih =>
    obtain ⟨hg, hgroups⟩ := List.forall_mem_cons.1 hlaw
    obtain ⟨hnew, hnodup⟩ := List.nodup_cons.1 hnodup
    rw [addToGroup, List.map_cons]
    by_cases heq : (g.1 == k) = true
    · have hothers : ∀ g' ∈ groups, (g'.1, if g'.1 == k then g'.2 ++ [x] else g'.2) = g' := by
        intro g' hg'
        have hne : ¬ (g'.1 == k) = true := by
          rw [hgroups g' hg', ← hg.1 heq]
          intro hsame
          apply hnew
          exact List.mem_map.2 ⟨g', hg', hsame⟩
        rw [if_neg hne]
      rw [if_pos heq, if_pos heq, List.map_congr_left hothers, List.map_id']
    · rw [if_neg heq, if_neg heq, ih hnodup _ hgroups]
      rcases List.mem_cons.1 hk with rfl | hk
      · exact absurd (hg.2 rfl) heq
      · exact hk

theorem IsGrouping.add (h : IsGrouping pairs groups) (x : α)
    (hlaw : TellsApart ((pairs ++ [(k, x)]).map (·.1))) :
    IsGrouping (pairs ++ [(k, x)]) (addToGroup groups k x) := by
  have hkey {g : κ × List α} (hg : g ∈ groups) : g.1 ∈ (pairs ++ [(k, x)]).map (·.1) := by
    rw [List.map_append]
    exact List.mem_append_left _ ((h.mem_iff g.1).1 (List.mem_map_of_mem hg))
  have hk : k ∈ (pairs ++ [(k, x)]).map (·.1) := by simp
  by_cases hmem : k ∈ groups.map (·.1)
  · rw [addToGroup_eq_map x h.nodup hmem fun g hg => hlaw _ (hkey hg) _ hk]
    refine ⟨?_, fun k' => ?_, fun g hg => ?_⟩
    · rw [List.map_map]
      exact h.nodup
    · have hold := (h.mem_iff k).1 hmem
      rw [List.map_map, List.map_append, List.mem_append]
      apply (h.mem_iff k').trans
      apply Iff.symm
      apply or_iff_left_of_imp
      intro hk'
      rw [List.mem_singleton.1 hk']
      exact hold
    · obtain ⟨g, hold, rfl⟩ := List.mem_map.1 hg
      rw [List.filter_append, List.map_append, ← h.values g hold]
      by_cases heq : g.1 = k
      · simp [heq, (hlaw k hk k hk).2 rfl]
      · have hne := mt (hlaw g.1 (hkey hold) k hk).1 heq
        have hne' := mt (hlaw k hk g.1 (hkey hold)).1 (Ne.symm heq)
        simp [hne, hne']
  · have hfresh : ∀ g ∈ groups, ¬ (g.1 == k) = true := by
      intro g hg heq
      rw [hlaw _ (hkey hg) _ hk] at heq
      apply hmem
      exact heq ▸ List.mem_map_of_mem hg
    rw [addToGroup_eq_append x fun g hg => Bool.eq_false_iff.2 (hfresh g hg)]
    refine ⟨?_, fun k' => ?_, fun g hg => ?_⟩
    · rw [List.map_append]
      exact List.Nodup.append h.nodup (List.nodup_singleton k) (by simpa using hmem)
    · rw [List.map_append, List.map_append, List.mem_append, List.mem_append, h.mem_iff]
      rfl
    · rw [List.filter_append, List.map_append]
      rcases List.mem_append.1 hg with hg | hg
      · have hne := hfresh g hg
        rw [hlaw _ (hkey hg) _ hk] at hne
        have hne' := mt (hlaw k hk g.1 (hkey hg)).1 (Ne.symm hne)
        rw [← h.values g hg]
        simp [hne']
      · obtain rfl := List.mem_singleton.1 hg
        have hnone : ∀ p ∈ pairs, ¬ (p.1 == k) = true := by
          intro p hp heq
          have hp' : p.1 ∈ pairs.map (·.1) := List.mem_map_of_mem hp
          rw [hlaw _ (by rw [List.map_append]; exact List.mem_append_left _ hp') _ hk] at heq
          apply hmem
          rw [h.mem_iff]
          exact heq ▸ hp'
        rw [List.filter_eq_nil_iff.2 hnone]
        simp [(hlaw k hk k hk).2 rfl]

theorem isGrouping_groupPairs (hlaw : TellsApart (pairs.map (·.1))) : IsGrouping pairs (groupPairs pairs) := by
  -- one more pair at the end is added to the groups of the pairs before it
  induction pairs using List.reverseRecOn with
  | nil => exact ⟨List.nodup_nil, fun k => Iff.rfl, fun g hg => by cases hg⟩
  | append_singleton pairs p ih =>
    have hbefore : TellsApart (pairs.map (·.1)) := by
      intro k hk k' hk'
      apply hlaw
      · simp [hk]
      · simp [hk']
    rw [groupPairs, List.foldl_append]
    exact (ih hbefore).add p.2 hlaw

theorem mem_of_mem_addToGroup {x y : α} (h : x ∈ (addToGroup groups k y).flatMap (·.2)) :
    x = y ∨ x ∈ groups.flatMap (·.2) := by
  induction groups with
  | nil => exact .inl (by simpa [addToGroup] using h)
  | cons g groups ih =>
    rw [addToGroup] at h
    split at h
    · simp only [List.flatMap_cons, List.mem_append, List.mem_singleton] at h ⊢
      tauto
    · rw [List.flatMap_cons, List.mem_append] at h ⊢
      exact h.elim (fun h => .inr (.inl h)) fun h => (ih h).imp_right .inr

theorem mem_of_mem_groupPairs {x : α} (h : x ∈ (groupPairs pairs).flatMap (·.2)) : x ∈ pairs.map (·.2) := by
  induction pairs using List.reverseRecOn with
  | nil => exact h
  | append_singleton pairs p ih =>
    rw [groupPairs, List.foldl_append] at h
    rw [List.map_append, List.mem_append]
    exact (mem_of_mem_addToGroup h).elim (fun h => .inr (by simp [h])) fun h => .inl (ih h)

theorem IsGrouping.filter_flatMap (h : IsGrouping pairs groups) {g : κ × List α} (hg : g ∈ groups)
    (select : List α → List α) (p : α → Bool)
    (hp : ∀ g' ∈ groups, ∀ x ∈ select g'.2, p x = true ↔ g'.1 = g.1) :
    (groups.flatMap fun g' => select g'.2).filter p = select g.2 := by
  have hnodup := h.nodup
  clear h
  induction groups with
  | nil => cases hg
  | cons g' groups ih =>
    obtain ⟨hnew, hnodup⟩ := List.nodup_cons.1 hnodup
    obtain ⟨hhead, htail⟩ := List.forall_mem_cons.1 hp
    rw [List.flatMap_cons, List.filter_append]
    rcases List.mem_cons.1 hg with rfl | hg
    · have hrest : (groups.flatMap fun g' => select g'.2).filter p = [] := by
        apply List.filter_eq_nil_iff.2
        intro x hx
        obtain ⟨g', hg', hx⟩ := List.mem_flatMap.1 hx
        rw [htail g' hg' x hx]
        intro heq
        apply hnew
        exact List.mem_map.2 ⟨g', hg', heq⟩
      rw [hrest, List.append_nil, List.filter_eq_self.2 fun x hx => (hhead x hx).2 rfl]
    · have hnone : (select g'.2).filter p = [] := by
        apply List.filter_eq_nil_iff.2
        intro x hx
        rw [hhead x hx]
        intro heq
        apply hnew
        exact List.mem_map.2 ⟨g, hg, heq.symm⟩
      rw [hnone, List.nil_append, ih hg htail hnodup]

end Grouping

end ContractFlow
