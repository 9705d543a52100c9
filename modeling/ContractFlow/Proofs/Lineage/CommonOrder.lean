import ContractFlow.Proofs.Lineage.Issue

/-! This module shows that merging the orders of the bases of a contract is sound and complete. -/

namespace ContractFlow

/-- A list without repetitions that keeps the order of each of the sequences. -/
structure IsCommonOrder (sequences : List (List Nat)) (m : List Nat) : Prop where
  nodup : m.Nodup
  sublist : ∀ s ∈ sequences, s.Sublist m

namespace IsCommonOrder

variable {sequences : List (List Nat)} {m : List Nat} {x y : Nat}

theorem isFree (h : IsCommonOrder sequences (y :: m)) : Merge.isFree sequences y = true := by
  have hy : y ∉ m := (List.nodup_cons.1 h.nodup).1
  refine List.all_eq_true.2 fun s hs => ?_
  have htail : s.tail.Sublist m := (h.sublist s hs).tail
  simpa using fun hmem => hy (htail.subset hmem)

theorem tail (h : IsCommonOrder sequences (y :: m)) (hfront : y ∉ sequences.filterMap List.head?) :
    IsCommonOrder sequences m := by
  refine ⟨(List.nodup_cons.1 h.nodup).2, fun s hs => ?_⟩
  cases h.sublist s hs with
  | cons _ hsub => exact hsub
  | cons_cons _ hsub =>
    have hhead : y ∈ sequences.filterMap List.head? := List.mem_filterMap.2 ⟨_, hs, List.head?_cons⟩
    exact absurd hhead hfront

theorem exists_front? (h : IsCommonOrder sequences m) (hne : sequences.all List.isEmpty = false) :
    ∃ x, Merge.front? sequences = some x := by
  induction m with
  | nil =>
    have hempty : ∀ s ∈ sequences, s.isEmpty = true := fun s hs => by
      simpa using List.sublist_nil.1 (h.sublist s hs)
    rw [List.all_eq_true.2 hempty] at hne
    cases hne
  | cons y m ih =>
    by_cases hfront : y ∈ sequences.filterMap List.head?
    · exact Option.isSome_iff_exists.1 (List.find?_isSome.2 ⟨y, hfront, h.isFree⟩)
    · exact ih (h.tail hfront)

theorem drop (h : IsCommonOrder sequences m) (hfront : Merge.front? sequences = some x) :
    IsCommonOrder (sequences.map (Merge.drop x)) (m.filter (· != x)) := by
  refine ⟨h.nodup.filter _, fun s hs => ?_⟩
  obtain ⟨t, ht, rfl⟩ := List.mem_map.1 hs
  have hsub : (Merge.drop x t).Sublist t := by
    unfold Merge.drop
    split
    · exact List.tail_sublist t
    · exact List.Sublist.refl t
  have hx : x ∉ Merge.drop x t := Merge.notMem_drop (Merge.notMem_tail_of_front? hfront ht)
  have hself : (Merge.drop x t).filter (· != x) = Merge.drop x t :=
    List.filter_eq_self.2 fun y hy => bne_iff_ne.2 fun heq => hx (heq ▸ hy)
  rw [← hself]
  exact (hsub.trans (h.sublist t ht)).filter _

theorem exists_merge {sequences : List (List Nat)} {m : List Nat} (h : IsCommonOrder sequences m) :
    ∃ merged, merge sequences = some merged := by
  rw [merge]
  split
  · exact ⟨[], rfl⟩
  · next hne =>
    split
    · next hnone =>
      obtain ⟨x, hfront⟩ := h.exists_front? (Bool.eq_false_iff.2 hne)
      rw [hnone] at hfront
      cases hfront
    · next x hfront =>
      have := Merge.size_drop_lt hfront
      obtain ⟨merged, hmerged⟩ := (h.drop hfront).exists_merge
      exact ⟨x :: merged, Option.map_eq_some_iff.2 ⟨merged, hmerged, rfl⟩⟩
termination_by Merge.size sequences

end IsCommonOrder

theorem isCommonOrder_of_merge {sequences : List (List Nat)} {m : List Nat} (h : merge sequences = some m) :
    IsCommonOrder sequences m :=
  ⟨(merged_of_merge h).nodup, fun _ hs => (merged_of_merge h).sublist hs⟩

theorem merge_eq_none_iff {sequences : List (List Nat)} :
    merge sequences = none ↔ ¬ ∃ m, IsCommonOrder sequences m := by
  constructor
  · rintro hnone ⟨m, hm⟩
    obtain ⟨merged, hmerged⟩ := hm.exists_merge
    rw [hnone] at hmerged
    cases hmerged
  · intro hno
    cases hmerge : merge sequences with
    | none => rfl
    | some m => exact absurd ⟨m, isCommonOrder_of_merge hmerge⟩ hno

namespace Outline

variable (o : Outline)

def sequences (c : ContractId) : List (List ContractId) :=
  (o.bases c).reverse.map o.linearization ++ [(o.bases c).reverse]

/-- A contract on a cycle of bases is the given one or is above it. -/
def IsBelowCycle (c : ContractId) : Prop :=
  ∃ a, o.IsAbove a c ∧ Relation.TransGen (fun c b => b ∈ o.bases c) a a

variable {o} {c : ContractId}

theorem mergeBases_eq (hbases : o.bases c ≠ []) :
    o.mergeBases o.linearization c = (merge (o.sequences c)).map (c :: ·) := by
  have hne : (o.bases c).reverse.isEmpty = false := by simpa using hbases
  simp only [mergeBases, hne]
  rfl

theorem exists_isAbove_of_mem_visitBases {a : ContractId} (stack : List ContractId) (seen : List Value)
    (ha : a ∈ o.visitBases stack seen) : ∃ c ∈ stack, o.IsAbove a c := by
  fun_induction visitBases o stack seen with
  | case1 seen => cases ha
  | case2 seen c rest _ ih =>
    obtain ⟨d, hd, habove⟩ := ih ha
    exact ⟨d, List.mem_cons_of_mem _ hd, habove⟩
  | case3 seen c rest _ _ ih =>
    rcases List.mem_cons.1 ha with rfl | ha
    · exact ⟨a, List.mem_cons_self, .refl a⟩
    · obtain ⟨d, hd, habove⟩ := ih ha
      rcases List.mem_append.1 hd with hd | hd
      · exact ⟨c, List.mem_cons_self, .base (List.mem_of_mem_filter hd) habove⟩
      · exact ⟨d, List.mem_cons_of_mem _ hd, habove⟩

theorem isAboveCycle_of_not_isBelowCycle (h : ¬ o.IsBelowCycle c) : o.isAboveCycle o.cycles c = false := by
  refine Bool.eq_false_iff.2 fun hcycle => h ?_
  obtain ⟨b, hb, path, hpath, hmem⟩ := isAboveCycle_iff.1 hcycle
  obtain ⟨d, hd, habove⟩ := exists_isAbove_of_mem_visitBases [c] [] hb
  obtain rfl := List.mem_singleton.1 hd
  exact ⟨b, habove, (isCircuit_of_mem_cycles hpath).transGen hmem hmem⟩

theorem not_isBelowCycle_of_lt (h : ∀ d < o.contracts.size, ∀ b ∈ o.bases d, b < d) (c : ContractId) :
    ¬ o.IsBelowCycle c := by
  have hless {x y : ContractId} (hxy : Relation.TransGen (fun d b => b ∈ o.bases d) x y) : y < x := by
    induction hxy with
    | single hb => exact h _ (lt_size_of_base hb) _ hb
    | tail _ hb ih => exact (h _ (lt_size_of_base hb) _ hb).trans ih
  rintro ⟨a, -, hcycle⟩
  exact Nat.lt_irrefl a (hless hcycle)

theorem hasNoMerge_iff (hbases : o.bases c ≠ []) (hcycle : ¬ o.IsBelowCycle c) :
    o.HasNoMerge c ↔ ¬ ∃ m, IsCommonOrder (o.sequences c) m := by
  rw [HasNoMerge, mergeBases_eq hbases, Option.map_eq_none_iff, merge_eq_none_iff]
  exact and_iff_right (isAboveCycle_of_not_isBelowCycle hcycle)

theorem linearization_eq_of_merge (hbases : o.bases c ≠ []) (hcycle : ¬ o.IsBelowCycle c)
    {m : List ContractId} (hmerge : merge (o.sequences c) = some m) : o.linearization c = c :: m := by
  obtain ⟨b, hb⟩ := List.exists_mem_of_ne_nil _ hbases
  rw [linearization_eq (lt_size_of_base hb), orderFrom, isAboveCycle_of_not_isBelowCycle hcycle,
    mergeBases_eq hbases, hmerge]
  rfl

end Outline

namespace Session

variable {s : Session} {c : ContractId}

theorem mem_incidents_after_order (hknown : s.analysis.isKnown c = true) (hmerge : s.analysis.HasNoMerge c) :
    .linearization c ∈ (s.after (.order c)).incidents := by
  have hconsult : (s.analysis.consult [c]).outcome = .ok () := Lineage.outcome_consult (by simpa using hknown)
  refine mem_incidents_meet (.inr ?_)
  unfold Lineage.orderOf Lineage.answer
  rw [Query.incidents_bind_ok hconsult]
  exact List.mem_append_left _ (Lineage.mem_incidents_consult hconsult List.mem_cons_self hmerge)

end Session

/--
For every contract that has a base and is below no cycle the merge of the orders of its bases fails just if no list
without repetitions keeps these orders and the one in which the bases are declared. Otherwise the order of the contract
is the contract and then such a list, which holds nothing else than what is merged.
-/
theorem Session.merge_is_sound_and_complete (a : Arena) (plan : FailurePlan) (settings : Settings)
    (fresh : Session) (hstart : start a plan settings = .ok fresh) (history : List Inquiry) {c : ContractId}
    (hbases : fresh.analysis.bases c ≠ []) (hcycle : ¬ fresh.analysis.IsBelowCycle c) :
    let s := fresh.afterAll history
    let sequences := fresh.analysis.sequences c
    (fresh.analysis.mergeBases fresh.analysis.linearization c = none ↔ ¬ ∃ m, IsCommonOrder sequences m) ∧
    (∀ order, fresh.analysis.mergeBases fresh.analysis.linearization c = some order →
      ∃ m, order = c :: m ∧ IsCommonOrder sequences m ∧ ∀ x, x ∈ m ↔ ∃ q ∈ sequences, x ∈ q) ∧
    (fresh.analysis.isKnown c = true →
      (.linearization c ∈ (s.after (.order c)).incidents ↔ ¬ ∃ m, IsCommonOrder sequences m) ∧
      ∀ order, fresh.analysis.mergeBases fresh.analysis.linearization c = some order →
        (s.ask (s.analysis.orderOf c)).1 = .ok order) := by
  intro s sequences
  have hs : fresh.Continues s := continues_afterAll fresh history
  refine ⟨?_, fun order horder => ?_, fun hknown => ⟨?_, fun order horder => ?_⟩⟩
  · rw [Outline.mergeBases_eq hbases, Option.map_eq_none_iff, merge_eq_none_iff]
  · rw [Outline.mergeBases_eq hbases] at horder
    obtain ⟨m, hmerge, rfl⟩ := Option.map_eq_some_iff.1 horder
    exact ⟨m, rfl, isCommonOrder_of_merge hmerge, (merged_of_merge hmerge).mem_iff⟩
  · rw [← Outline.hasNoMerge_iff hbases hcycle]
    constructor
    · exact (hs.trans (continues_after s (.order c))).hasNoMerge (of_start_eq_ok hstart).2.2
    · intro hmerge
      exact mem_incidents_after_order (hs.analysis ▸ hknown) (hs.analysis ▸ hmerge)
  · rw [Outline.mergeBases_eq hbases] at horder
    obtain ⟨m, hmerge, rfl⟩ := Option.map_eq_some_iff.1 horder
    rw [hs.analysis, ← Outline.linearization_eq_of_merge hbases hcycle hmerge, ← Lineage.order_eq]
    exact Lineage.outcome_answer (by simpa using hknown) _

namespace Crossed

theorem not_isBelowCycle (c : ContractId) : ¬ (Session.analyse arena {} {}).IsBelowCycle c := by
  apply Outline.not_isBelowCycle_of_lt
  have hall : ∀ d < 3, ∀ b ∈ (Session.analyse arena {} {}).bases d, b < d := by
    decide +kernel
  exact hall

/-- The contract in the middle has an order, and the last one has none, which is recorded. -/
theorem last_has_no_common_order : ∃ fresh, Session.start arena {} {} = .ok fresh ∧
    (fresh.ask (fresh.analysis.orderOf 1)).1 = .ok [1, 0] ∧
    (¬ ∃ m, IsCommonOrder (fresh.analysis.sequences 2) m) ∧
    .linearization 2 ∈ (fresh.after (.order 2)).incidents := by
  obtain ⟨fresh, hstart⟩ := Outcome.exists_of_isOk (e := Session.start arena {} {}) (by decide +kernel)
  have hanalysis := (Session.of_start_eq_ok hstart).1
  have hmiddle := Session.merge_is_sound_and_complete arena {} {} fresh hstart [] (c := 1)
    (hanalysis ▸ by decide +kernel) (hanalysis ▸ not_isBelowCycle 1)
  have hlast := Session.merge_is_sound_and_complete arena {} {} fresh hstart [] (c := 2)
    (hanalysis ▸ by decide +kernel) (hanalysis ▸ not_isBelowCycle 2)
  have hnone := hlast.1.1 (hanalysis ▸ by decide +kernel)
  refine ⟨fresh, hstart, ?_, hnone, ((hlast.2.2 (hanalysis ▸ by decide +kernel)).1).2 hnone⟩
  exact (hmiddle.2.2 (hanalysis ▸ by decide +kernel)).2 [1, 0] (hanalysis ▸ by decide +kernel)

end Crossed

end ContractFlow
