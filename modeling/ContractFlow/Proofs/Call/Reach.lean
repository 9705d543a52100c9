import ContractFlow.Proofs.Flow.Recursion

/-! This module shows what a search through the call graph finds. -/

namespace ContractFlow

open ContractFlow.Graph (IsWay)

namespace CallGraph

def Calls (g : CallGraph) (f h : CallableId) : Prop :=
  ∃ edges, (g.edgesFrom f).outcome = .ok edges ∧ ∃ e ∈ edges, e.callee = some h

variable {g : CallGraph} {f h s c : CallableId} {k : Nat} {way : List CallableId}

theorem mem_targets_iff : h ∈ g.targets f ↔ g.Calls f h := by
  rw [targets, List.mem_filterMap]
  simp only [Query.mem_getD_nil_iff]
  constructor
  · rintro ⟨e, ⟨edges, hedges, he⟩, hcallee⟩
    exact ⟨edges, hedges, e, he, hcallee⟩
  · rintro ⟨edges, hedges, e, he, hcallee⟩
    exact ⟨e, ⟨edges, hedges, he⟩, hcallee⟩

section Legible

variable (hl : g.IsLegible)

include hl

theorem answers_edgesFrom (f : CallableId) : (g.edgesFrom f).Answers := by
  unfold edgesFrom
  rw [Memo.get_eq]
  exact .bind (.mapM (Q := fun _ => True) fun site _ => Linkage.answers_edges hl site) fun _ _ => .pure trivial

theorem outcome_openAll (fs : List CallableId) : (g.openAll fs).outcome = .ok () := by
  induction fs with
  | nil => rfl
  | cons f fs ih =>
    obtain ⟨edges, hedges, -⟩ := answers_edgesFrom hl f
    apply Query.outcome_bind_eq_ok.2
    exact ⟨(), Query.outcome_bind_eq_ok.2 ⟨edges, hedges, rfl⟩, ih⟩

theorem outcome_reachFrom (s : CallableId) (limit : Int) : (g.reachFrom s limit).outcome = .ok (g.reach s limit) :=
  Query.outcome_bind_eq_ok.2 ⟨(), outcome_openAll hl _, rfl⟩

end Legible

section Known

variable (hknown : g.CoversTargets (· < g.callables.size))

include hknown

theorem lt_size_of_calls (hcalls : g.Calls f h) : h < g.callables.size := by
  obtain ⟨edges, hedges, e, he, hcallee⟩ := hcalls
  unfold edgesFrom at hedges
  rw [Memo.get_eq] at hedges
  obtain ⟨all, hall, hedges⟩ := Query.outcome_bind_eq_ok.1 hedges
  obtain rfl := Except.ok.inj hedges
  obtain ⟨site, -, es, hsite, he⟩ := (Query.mem_flatten_iff hall).1 he
  exact (((Linkage.hasEdges_edges hknown).gives es hsite e he).callee h hcallee).1

theorem adjacent_targets : Graph.Adjacent g.targets g.callables.size = g.Calls := by
  funext f h
  rw [Graph.Adjacent, mem_targets_iff, eq_iff_iff]
  exact and_iff_left_of_imp fun hcalls => lt_size_of_calls hknown hcalls

theorem mem_reach_iff_of_ne (hne : c ≠ s) : c ∈ (g.reach s k).callables ↔
    ∃ way, IsWay g.Calls s (c :: way) ∧ way.length ≤ k := by
  have hseen : c ∈ (g.reach s k).callables ↔ c ∈ (Graph.reachable g.targets g.callables.size k s).seen := by
    unfold reach
    dsimp only
    split <;> simp [hne]
  rw [hseen, Graph.mem_seen_iff (Int.natCast_nonneg k), adjacent_targets hknown]
  simp only [Int.ofNat_le]

theorem start_mem_reach_iff : s ∈ (g.reach s k).callables ↔
    ∃ h way, IsWay g.Calls s (h :: way) ∧ way.length ≤ k ∧ g.Calls h s := by
  have hcalled : s ∈ (g.reach s k).callables ↔
      ∃ h ∈ (Graph.reachable g.targets g.callables.size k s).seen, g.Calls h s := by
    unfold reach
    dsimp only
    split
    · next hany => simpa [mem_targets_iff] using hany
    · next hany => simpa [mem_targets_iff] using hany
  simp only [hcalled, Graph.mem_seen_iff (Int.natCast_nonneg k), adjacent_targets hknown, Int.ofNat_le]
  constructor
  · rintro ⟨h, ⟨way, hway, hlength⟩, hcalls⟩
    exact ⟨h, way, hway, hlength, hcalls⟩
  · rintro ⟨h, way, hway, hlength, hcalls⟩
    exact ⟨h, ⟨way, hway, hlength⟩, hcalls⟩

omit hknown in
theorem nodup_reach : (g.reach s k).callables.Nodup := by
  have hothers := (Graph.nodup_seen g.targets g.callables.size k s).filter (· != s)
  unfold reach
  dsimp only
  split
  · exact List.nodup_cons.2 ⟨by simp, hothers⟩
  · exact hothers

end Known

theorem mem_cons_reach_iff {limit : Int} : c ∈ s :: (g.reach s limit).callables ↔
    c ∈ (Graph.reachable g.targets g.callables.size limit s).seen := by
  by_cases hc : c = s
  · subst hc
    exact iff_of_true List.mem_cons_self (Graph.root_mem_seen _ _ _ _)
  · unfold reach
    dsimp only
    split <;> simp [hc]

end CallGraph

theorem Outline.coversTargets_analyse (a : Arena) (plan : FailurePlan) (settings : Settings) :
    (Session.analyse a plan settings).CoversTargets (· < (Session.analyse a plan settings).callables.size) where
  members c f hf := (contract_of_mem_callables hf).1
  free f hf := by
    have hf : f < (sheafOf a plan).free.length := List.mem_range.1 hf
    show f < (ofArena a plan).callables.size
    rw [← Array.length_toList, callables_ofArena, List.length_append]
    exact Nat.lt_add_right _ hf
  declared n f hf := List.mem_range.1 (List.mem_of_find?_eq_some (Option.filter_eq_some_iff.1 hf).1)

/--
A search over at most `k` calls lists what a chain of one to `k` calls leads to. The start is also listed for a chain of
one call more, since the callables at the bound are asked as well whether they call it back.
-/
theorem Session.call_reach_is_exact_but_for_start (a : Arena) (plan : FailurePlan) (settings : Settings)
    (hlegible : a.isLegible = true) (s : CallableId) (k : Nat) :
    ∃ found, ((analyse a plan settings).reachFrom s k).outcome = .ok found ∧ found.callables.Nodup ∧
      ∀ c, c ∈ found.callables ↔ ∃ way, IsWay (analyse a plan settings).Calls s (c :: way) ∧
        1 ≤ way.length ∧ way.length ≤ if c = s then k + 1 else k := by
  have hl : (analyse a plan settings).IsLegible := Outline.isLegible_ofArena plan hlegible
  have hknown := Outline.coversTargets_analyse a plan settings
  refine ⟨_, CallGraph.outcome_reachFrom hl s k, CallGraph.nodup_reach, fun c => ?_⟩
  by_cases hc : c = s
  · subst hc
    rw [CallGraph.start_mem_reach_iff hknown, if_pos rfl]
    constructor
    · rintro ⟨h, way, hway, hlength, hcalls⟩
      refine ⟨h :: way, .next hway hcalls, Nat.succ_pos _, ?_⟩
      rwa [List.length_cons, Nat.add_le_add_iff_right]
    · rintro ⟨_ | ⟨h, way⟩, hway, hpos, hlength⟩
      · cases hpos
      · obtain ⟨hway, hcalls⟩ := hway.step_of_cons
        exact ⟨h, way, hway, Nat.le_of_succ_le_succ hlength, hcalls⟩
  · rw [CallGraph.mem_reach_iff_of_ne hknown hc, if_neg hc]
    apply exists_congr
    rintro (_ | ⟨h, way⟩)
    · -- a chain without a call does not leave the start
      apply iff_of_false
      · rintro ⟨hway, -⟩
        exact hc (List.mem_singleton.1 hway.root_mem).symm
      · rintro ⟨-, hpos, -⟩
        cases hpos
    · simp

/-- With a bound of one call `f` lists itself, although only `g` calls it back. -/
theorem Mutual.start_is_listed_beyond_bound : ∃ found, (analysis.reachFrom 1 1).outcome = .ok found ∧
    1 ∈ found.callables ∧ ¬ ∃ way, IsWay analysis.Calls 1 (1 :: way) ∧ 1 ≤ way.length ∧ way.length ≤ 1 := by
  obtain ⟨found, hfound, -, hmem⟩ := Session.call_reach_is_exact_but_for_start arena {} {} (by decide +kernel) 1 1
  have htargets : analysis.targets 1 = [2] ∧ analysis.targets 2 = [1] := by decide +kernel
  have hcalls : analysis.Calls 1 2 ∧ analysis.Calls 2 1 := by
    constructor
    · exact CallGraph.mem_targets_iff.1 (htargets.1 ▸ List.mem_singleton_self 2)
    · exact CallGraph.mem_targets_iff.1 (htargets.2 ▸ List.mem_singleton_self 1)
  refine ⟨found, hfound, (hmem 1).2 ⟨[2, 1], .next (.next .start hcalls.1) hcalls.2, by decide⟩, ?_⟩
  rintro ⟨_ | ⟨h, _ | ⟨h', way⟩⟩, hway, hpos, hlength⟩
  · cases hpos
  · obtain ⟨hway, hcalls⟩ := hway.step_of_cons
    rw [← List.mem_singleton.1 hway.root_mem, ← CallGraph.mem_targets_iff, htargets.1] at hcalls
    exact absurd hcalls (by decide)
  · simp at hlength

/--
A search that is not cut short has found all there is: the start and what is listed are closed under calls, and they are
just what chains of calls lead to.
-/
theorem Session.untruncated_reach_is_closed (a : Arena) (plan : FailurePlan) (settings : Settings) (s : CallableId)
    (limit : Int) :
    let g := (analyse a plan settings).toCallGraph
    (a.isLegible = true → ∃ found, (g.reachFrom s limit).outcome = .ok found) ∧
    ∀ found, (g.reachFrom s limit).outcome = .ok found → found.truncated = false →
      (∀ f ∈ s :: found.callables, ∀ h, g.Calls f h → h ∈ s :: found.callables) ∧
      ∀ c, c ∈ s :: found.callables ↔ Relation.ReflTransGen g.Calls s c := by
  intro g
  have hadjacent : Graph.Adjacent g.targets g.callables.size = g.Calls :=
    CallGraph.adjacent_targets (Outline.coversTargets_analyse a plan settings)
  refine ⟨fun hlegible => ?_, fun found hfound hwhole => ?_⟩
  · have hl : g.IsLegible := Outline.isLegible_ofArena plan hlegible
    exact ⟨_, CallGraph.outcome_reachFrom hl s limit⟩
  · obtain ⟨-, -, heq⟩ := Query.outcome_bind_eq_ok.1 hfound
    obtain rfl : g.reach s limit = found := Except.ok.inj heq
    simp only [CallGraph.mem_cons_reach_iff]
    have hclosed : ∀ f ∈ (Graph.reachable g.targets g.callables.size limit s).seen, ∀ h,
        Graph.Adjacent g.targets g.callables.size f h →
          h ∈ (Graph.reachable g.targets g.callables.size limit s).seen :=
      fun f hf h => Graph.closed_seen hwhole hf
    refine ⟨hadjacent ▸ hclosed, fun c => ⟨fun hc => ?_, fun hc => ?_⟩⟩
    · exact hadjacent ▸ Graph.reaches_of_mem_seen hc
    · rw [← hadjacent] at hc
      exact Graph.mem_of_reaches hclosed (Graph.root_mem_seen _ _ _ _) hc

theorem Mutual.untruncated_reach : ∃ found, (analysis.reachFrom 0 20).outcome = .ok found ∧
    found.truncated = false ∧ ∀ c, c ∈ 0 :: found.callables ↔ Relation.ReflTransGen analysis.Calls 0 c := by
  obtain ⟨hreturns, hall⟩ := Session.untruncated_reach_is_closed arena {} {} 0 20
  obtain ⟨found, hfound⟩ := hreturns (by decide +kernel)
  have hwhole : (analysis.toCallGraph.reach 0 20).truncated = false := by decide +kernel
  obtain ⟨-, -, heq⟩ := Query.outcome_bind_eq_ok.1 hfound
  obtain rfl : analysis.toCallGraph.reach 0 20 = found := Except.ok.inj heq
  exact ⟨_, hfound, hwhole, (hall _ hfound hwhole).2⟩

/--
A callable `y` that a chain of at most `k` calls visits again, called by `x`, cuts the search short, unless `x` is
reached over another chain of no more calls without `y`. So a callable that calls itself is always noticed, but
callables that call each other may not be.
-/
theorem Session.repetition_truncates_unless_bypassed (a : Arena) (plan : FailurePlan) (settings : Settings)
    (hlegible : a.isLegible = true) (s x y : CallableId) (k : Nat) (later earlier : List CallableId)
    (hchain : IsWay (analyse a plan settings).Calls s (later ++ y :: x :: earlier))
    (hlength : (later ++ y :: x :: earlier).length ≤ k + 1) (hagain : y ∈ x :: earlier) :
    ∃ found, ((analyse a plan settings).reachFrom s k).outcome = .ok found ∧ (found.truncated = true ∨
      x ≠ y ∧ s ≠ y ∧ ∃ other ≠ earlier, IsWay (analyse a plan settings).Calls s (x :: other) ∧
        other.length ≤ earlier.length ∧ y ∉ x :: other) := by
  have hl : (analyse a plan settings).IsLegible := Outline.isLegible_ofArena plan hlegible
  have hadjacent := CallGraph.adjacent_targets (Outline.coversTargets_analyse a plan settings)
  refine ⟨_, CallGraph.outcome_reachFrom hl s k, ?_⟩
  obtain ⟨hway, hcalls⟩ := hchain.of_append.step_of_cons
  have hbound : (earlier.length : Int) ≤ k := by
    simp only [List.length_append, List.length_cons] at hlength
    omega
  rw [← hadjacent] at hway ⊢
  apply (Graph.truncated_or_bypassed hway hbound (CallGraph.mem_targets_iff.2 hcalls)).imp_right
  rintro ⟨other, hother, hle, hy⟩
  refine ⟨?_, ?_, other, ?_, hother, hle, hy⟩
  · rintro rfl
    exact hy List.mem_cons_self
  · rintro rfl
    exact hy hother.root_mem
  · rintro rfl
    exact hy hagain

/-- `f` and `g` call each other, which is not noticed from the callable that calls both of them. -/
theorem Mutual.repetition_is_bypassed : ∃ found, (analysis.reachFrom 0 20).outcome = .ok found ∧
    found.truncated = false ∧ IsWay analysis.Calls 0 [1, 2, 1, 0] ∧
    ∃ other ≠ [1, 0], IsWay analysis.Calls 0 (2 :: other) ∧ other.length ≤ 2 ∧ 1 ∉ 2 :: other := by
  have htargets : analysis.targets 0 = [1, 2] ∧ analysis.targets 1 = [2] ∧ analysis.targets 2 = [1] := by
    decide +kernel
  have hchain : IsWay analysis.Calls 0 [1, 2, 1, 0] := by
    apply IsWay.next (IsWay.next (IsWay.next .start _) _)
    · exact CallGraph.mem_targets_iff.1 (htargets.2.2 ▸ List.mem_singleton_self 1)
    · exact CallGraph.mem_targets_iff.1 (htargets.1 ▸ List.mem_cons_self)
    · exact CallGraph.mem_targets_iff.1 (htargets.2.1 ▸ List.mem_singleton_self 2)
  have hreach : ∃ found, (analysis.reachFrom 0 20).outcome = .ok found ∧ found.truncated = false :=
    ⟨_, CallGraph.outcome_reachFrom (Outline.isLegible_ofArena {} (by decide +kernel)) 0 20, by decide +kernel⟩
  obtain ⟨found, hfound, hbypass⟩ := Session.repetition_truncates_unless_bypassed arena {} {} (by decide +kernel)
    0 2 1 20 [] [1, 0] hchain (by decide) (by decide)
  obtain ⟨_, hreach, htruncated⟩ := hreach
  obtain rfl := Except.ok.inj (hfound.symm.trans hreach)
  exact ⟨found, hfound, htruncated, hchain, (hbypass.resolve_left (by simp [htruncated])).2.2⟩

end ContractFlow
