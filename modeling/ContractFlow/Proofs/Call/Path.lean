import ContractFlow.Proofs.Call.Reach

/-! This module shows what the searches for single chains of calls give. -/

namespace ContractFlow

open ContractFlow.Graph (IsWay)

namespace CallGraph

structure IsCallChain (g : CallGraph) (s t : CallableId) (chain : List CallableId) : Prop where
  first : chain.head? = some s
  last : chain.getLast? = some t
  calls : chain.IsChain g.Calls

variable {g : CallGraph} {s t : CallableId} {chain : List CallableId}

theorem isCallChain_iff : g.IsCallChain s t chain ↔ ∃ way, chain = (t :: way).reverse ∧ IsWay g.Calls s (t :: way) := by
  constructor
  · rintro ⟨hfirst, hlast, hcalls⟩
    obtain ⟨earlier, rfl⟩ := List.getLast?_eq_some_iff.1 hlast
    have heq : earlier ++ [t] = (t :: earlier.reverse).reverse := by simp
    rw [heq] at hfirst hcalls
    exact ⟨earlier.reverse, heq, IsWay.iff_isChain.2 ⟨hfirst, hcalls⟩⟩
  · rintro ⟨way, rfl, hway⟩
    obtain ⟨hfirst, hcalls⟩ := IsWay.iff_isChain.1 hway
    exact ⟨hfirst, by simp, hcalls⟩

theorem IsCallChain.length_pos (h : g.IsCallChain s t chain) : 0 < chain.length :=
  List.length_pos_of_mem (List.mem_of_head? h.first)

theorem path?_self (limit : Int) : g.path? s s limit = some [s] := by
  simp [path?, Graph.shortestPath]

theorem outcome_findPath (hl : g.IsLegible) (s t : CallableId) (limit : Int) :
    (g.findPath s t limit).outcome = .ok (g.path? s t limit) :=
  Query.outcome_bind_eq_ok.2 ⟨(), outcome_openAll hl _, rfl⟩

theorem outcome_findRecursive (hl : g.IsLegible) : g.findRecursive.outcome = .ok g.recursive :=
  Query.outcome_bind_eq_ok.2 ⟨(), outcome_openAll hl _, rfl⟩

section Known

variable (hknown : g.CoversTargets (· < g.callables.size))

include hknown

theorem finds_path? (hne : s ≠ t) (limit : Int) :
    Graph.Finds g.targets g.callables.size limit s t (g.path? s t limit) := by
  unfold path? Graph.shortestPath
  rw [if_neg hne]
  apply Graph.finds_findWay _ hne (Graph.explored_start ..)
  · simp
  · intro f hf
    exact lt_size_of_calls hknown (mem_targets_iff.1 hf)

theorem isSome_path?_iff {limit : Int} : (g.path? s t limit).isSome ↔
    s = t ∨ ∃ chain, g.IsCallChain s t chain ∧ (chain.length : Int) - 1 ≤ limit := by
  by_cases hne : s = t
  · subst hne
    rw [path?_self]
    exact iff_of_true rfl (.inl rfl)
  have hfinds := finds_path? hknown hne limit
  rw [or_iff_right hne]
  generalize g.path? s t limit = path at hfinds ⊢
  cases hfinds with
  | none hbeyond =>
    rw [adjacent_targets hknown] at hbeyond
    apply iff_of_false
    · simp
    · rintro ⟨chain, hchain, hlength⟩
      obtain ⟨way, rfl, hway⟩ := isCallChain_iff.1 hchain
      have hlong := hbeyond way hway
      rw [List.length_reverse, List.length_cons] at hlength
      omega
  | @some way hway hlimit _ =>
    rw [adjacent_targets hknown] at hway
    exact iff_of_true rfl ⟨_, isCallChain_iff.2 ⟨way, rfl, hway⟩, by simpa using hlimit⟩

theorem isShortest_of_mem_path? {limit : Int} (h : chain ∈ g.path? s t limit) :
    g.IsCallChain s t chain ∧ ∀ other, g.IsCallChain s t other → chain.length ≤ other.length := by
  by_cases hne : s = t
  · subst hne
    rw [path?_self] at h
    obtain rfl := Option.some.inj h
    exact ⟨⟨rfl, rfl, .singleton s⟩, fun other hother => hother.length_pos⟩
  have hfinds := finds_path? hknown hne limit
  rw [Option.mem_def.1 h] at hfinds
  cases hfinds with
  | @some way hway _ hleast =>
    rw [adjacent_targets hknown] at hway hleast
    refine ⟨isCallChain_iff.2 ⟨way, rfl, hway⟩, fun other hother => ?_⟩
    obtain ⟨way', rfl, hway'⟩ := isCallChain_iff.1 hother
    simpa using hleast way' hway'

theorem found_comesBack_iff (f : CallableId) :
    (Graph.comesBack g.targets g.callables.size f).found = true ↔ Relation.TransGen g.Calls f f := by
  rw [Graph.found_comesBack_iff fun f h hh => lt_size_of_calls hknown (mem_targets_iff.1 hh)]
  simp only [mem_targets_iff]

end Known

end CallGraph

/--
A path between callables is a shortest chain of calls. There is one just if the callables are the same or a chain of at
most `k` calls leads from one to the other.
-/
theorem Session.path_is_shortest_chain (a : Arena) (plan : FailurePlan) (settings : Settings) (s t : CallableId)
    (k : Int) :
    let g := (analyse a plan settings).toCallGraph
    (a.isLegible = true → ∃ path, (g.findPath s t k).outcome = .ok path) ∧
    ∀ path, (g.findPath s t k).outcome = .ok path →
      (path.isSome ↔ s = t ∨ ∃ chain, g.IsCallChain s t chain ∧ (chain.length : Int) - 1 ≤ k) ∧
      ∀ chain ∈ path, g.IsCallChain s t chain ∧ ∀ other, g.IsCallChain s t other → chain.length ≤ other.length := by
  intro g
  have hknown : g.CoversTargets (· < g.callables.size) := Outline.coversTargets_analyse a plan settings
  refine ⟨fun hlegible => ?_, fun path hpath => ?_⟩
  · have hl : g.IsLegible := Outline.isLegible_ofArena plan hlegible
    exact ⟨_, CallGraph.outcome_findPath hl s t k⟩
  · obtain ⟨-, -, heq⟩ := Query.outcome_bind_eq_ok.1 hpath
    obtain rfl : g.path? s t k = path := Except.ok.inj heq
    exact ⟨CallGraph.isSome_path?_iff hknown, fun chain => CallGraph.isShortest_of_mem_path? hknown⟩

/-- Within one call, `g` is reached from `both` directly, though `f` calls it as well. -/
theorem Mutual.shortest_chain : ∃ chain, (analysis.findPath 0 2 1).outcome = .ok (some chain) ∧
    analysis.IsCallChain 0 2 chain ∧ ∀ other, analysis.IsCallChain 0 2 other → chain.length ≤ other.length := by
  obtain ⟨hreturns, hall⟩ := Session.path_is_shortest_chain arena {} {} 0 2 1
  obtain ⟨path, hpath⟩ := hreturns (by decide +kernel)
  obtain ⟨hsome, hshortest⟩ := hall path hpath
  have hcalls : analysis.Calls 0 2 := CallGraph.mem_targets_iff.1 (by decide +kernel)
  have hdirect : analysis.IsCallChain 0 2 [0, 2] := ⟨rfl, rfl, List.isChain_pair.2 hcalls⟩
  obtain ⟨chain, rfl⟩ := Option.isSome_iff_exists.1 (hsome.2 (.inr ⟨_, hdirect, by decide⟩))
  exact ⟨chain, hpath, hshortest chain rfl⟩

open Classical in
/--
The recursive callables are those from which a chain of calls leads back to them, each listed once. The search opens no
callable twice, so it ends whatever cycles there are.
-/
theorem Session.recursive_callables_are_on_cycles (a : Arena) (plan : FailurePlan) (settings : Settings) :
    let g := (analyse a plan settings).toCallGraph
    (a.isLegible = true → ∃ found, g.findRecursive.outcome = .ok found) ∧
    (∀ found, g.findRecursive.outcome = .ok found → found.Nodup ∧
      found = g.callableIds.filter fun f => Relation.TransGen g.Calls f f) ∧
    ∀ f ∈ g.callableIds, (Graph.comesBack g.targets g.callables.size f).opened.Nodup ∧
      (Graph.comesBack g.targets g.callables.size f).opened ⊆ g.callableIds := by
  intro g
  have hknown : g.CoversTargets (· < g.callables.size) := Outline.coversTargets_analyse a plan settings
  refine ⟨fun hlegible => ?_, fun found hfound => ?_, fun f hf => ?_⟩
  · have hl : g.IsLegible := Outline.isLegible_ofArena plan hlegible
    exact ⟨_, CallGraph.outcome_findRecursive hl⟩
  · obtain ⟨-, -, heq⟩ := Query.outcome_bind_eq_ok.1 hfound
    obtain rfl : g.recursive = found := Except.ok.inj heq
    refine ⟨List.nodup_range.filter _, List.filter_congr fun f _ => ?_⟩
    rw [Bool.eq_iff_iff, CallGraph.found_comesBack_iff hknown, decide_eq_true_iff]
  · obtain ⟨hnodup, hopened⟩ := Graph.opened_searchFor g.targets g.callables.size f (g.targets f).reverse []
    refine ⟨List.nodup_cons.2 ⟨fun hmem => (hopened f hmem).2.1 rfl, hnodup⟩, List.cons_subset.2 ⟨hf, ?_⟩⟩
    exact fun h hh => List.mem_range.2 (hopened h hh).1

open Classical in
theorem Mutual.recursive_pair : ∃ found, analysis.findRecursive.outcome = .ok found ∧ found = [1, 2] ∧
    ∀ f < 3, f ∈ found ↔ Relation.TransGen analysis.Calls f f := by
  obtain ⟨hreturns, hall, -⟩ := Session.recursive_callables_are_on_cycles arena {} {}
  obtain ⟨found, hfound⟩ := hreturns (by decide +kernel)
  obtain ⟨-, -, heq⟩ := Query.outcome_bind_eq_ok.1 hfound
  have hvalue : analysis.recursive = [1, 2] := by decide +kernel
  refine ⟨found, hfound, (Except.ok.inj heq).symm.trans hvalue, fun f hf => ?_⟩
  have hrange : f ∈ analysis.callableIds := List.mem_range.2 hf
  rw [(hall found hfound).2, List.mem_filter, decide_eq_true_iff]
  exact and_iff_right hrange

end ContractFlow
