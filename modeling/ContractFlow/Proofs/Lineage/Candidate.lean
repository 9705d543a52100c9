import ContractFlow.Proofs.Lineage.Override

/-! This module shows what a name stands for in a contract whose order is merged from those of its bases. -/

namespace ContractFlow

namespace Lineage

section Found

variable (l : Lineage)

def found (c : ContractId) (w : Wanted) (after : Option ContractId) : List CallableId :=
  ((l.searched c after).flatMap l.members).filter fun f => w.matches (l.callableD f)

def rivals (c : ContractId) (w : Wanted) (after : Option ContractId) (e : CallableId) : List CallableId :=
  (l.found c w after).filter fun f => l.key f == l.key e

/-- No contract above `c` has two members of the same key. -/
def DeclaresOnce (c : ContractId) : Prop :=
  ∀ d, l.IsAbove d c → ∀ f ∈ l.members d, ∀ g ∈ l.members d,
    l.isMember f = true → l.isMember g = true → l.key f = l.key g → f = g

end Found

variable {l : Lineage} {c : ContractId} {w : Wanted} {after : Option ContractId} {e f g : CallableId}

theorem searched_sublist : (l.searched c after).Sublist (l.order c) := by
  cases after with
  | none => exact List.Sublist.refl _
  | some s =>
    simp only [searched]
    split
    · exact (List.tail_sublist _).trans (List.dropWhile_sublist _)
    · exact List.tail_sublist _

theorem isMember_of_mem_found (hf : f ∈ l.found c w after) : l.isMember f = true := by
  have hmatches := (List.mem_filter.1 hf).2
  simp only [Wanted.matches, Bool.and_eq_true] at hmatches
  exact hmatches.1.1.2

theorem mem_found_of_mem_candidates (hf : f ∈ l.candidates c w after) : f ∈ l.found c w after := by
  obtain ⟨definitions, hdefinitions, hf⟩ := List.mem_flatMap.1 hf
  obtain ⟨group, hgroup, rfl⟩ := List.mem_map.1 hdefinitions
  have hpair := mem_of_mem_groupPairs (List.mem_flatMap.2 ⟨group, hgroup, mem_of_mem_preferred hf⟩)
  rwa [List.map_map, List.map_id''] at hpair
  exact fun _ => rfl

section Groups

variable {fs : List CallableId} (hlegible : l.IsLegible) (hfs : ∀ f ∈ fs, f < l.callables.size)

include hlegible hfs

theorem isGrouping_keys : IsGrouping (fs.map fun f => (l.key f, f)) (groupPairs (fs.map fun f => (l.key f, f))) := by
  apply isGrouping_groupPairs
  intro k hk k' hk'
  rw [List.map_map] at hk hk'
  obtain ⟨f, -, rfl⟩ := List.mem_map.1 hk
  obtain ⟨g, hg, rfl⟩ := List.mem_map.1 hk'
  exact key_beq_iff hlegible (hfs g hg)

theorem mem_groups_iff {group : (Value × List Value) × List CallableId} :
    group ∈ groupPairs (fs.map fun f => (l.key f, f)) ↔
      ∃ e ∈ fs, group = (l.key e, fs.filter fun f => l.key f == l.key e) := by
  have hgroups := isGrouping_keys hlegible hfs
  have hvalues {g} (hg : g ∈ groupPairs (fs.map fun f => (l.key f, f))) {e : CallableId} (he : l.key e = g.1) :
      g = (l.key e, fs.filter fun f => l.key f == l.key e) := by
    apply Prod.ext he.symm
    rw [hgroups.values g hg, List.filter_map, List.map_map, ← he]
    exact List.map_id _
  have hkeys (k) : k ∈ (groupPairs (fs.map fun f => (l.key f, f))).map (·.1) ↔ ∃ e ∈ fs, l.key e = k := by
    rw [hgroups.mem_iff, List.map_map, List.mem_map]
    rfl
  constructor
  · intro hgroup
    obtain ⟨e, he, hkey⟩ := (hkeys group.1).1 (List.mem_map_of_mem hgroup)
    exact ⟨e, he, hvalues hgroup hkey⟩
  · rintro ⟨e, he, rfl⟩
    obtain ⟨g, hg, hkey⟩ := List.mem_map.1 ((hkeys (l.key e)).2 ⟨e, he, rfl⟩)
    rw [← hvalues hg hkey.symm]
    exact hg

end Groups

section Members

variable (hmembers : l.SortsMembers)

include hmembers

theorem lt_size_of_mem_found (hf : f ∈ l.found c w after) : f < l.callables.size := by
  obtain ⟨d, -, hd⟩ := List.mem_flatMap.1 (List.mem_of_mem_filter hf)
  exact (hmembers.knowsMembers d f hd).1

section Legible

variable (hlegible : l.IsLegible)

include hlegible

theorem mem_rivals_iff (he : e ∈ l.found c w after) :
    f ∈ l.rivals c w after e ↔ f ∈ l.found c w after ∧ l.key f = l.key e := by
  rw [rivals, List.mem_filter, key_beq_iff hlegible (lt_size_of_mem_found hmembers he)]

theorem exists_head?_rivals (he : e ∈ l.found c w after) : ∃ first, (l.rivals c w after e).head? = some first := by
  have hmem : e ∈ l.rivals c w after e := (mem_rivals_iff hmembers hlegible he).2 ⟨he, rfl⟩
  cases hrivals : l.rivals c w after e with
  | nil =>
    rw [hrivals] at hmem
    cases hmem
  | cons first rest => exact ⟨first, rfl⟩

theorem filter_candidates (he : e ∈ l.found c w after) :
    (l.candidates c w after).filter (fun f => l.key f == l.key e) = l.preferred c (l.rivals c w after e) := by
  have hfound : ∀ f ∈ l.found c w after, f < l.callables.size := fun f => lt_size_of_mem_found hmembers
  rw [candidates_eq_flatMap, matching, List.flatMap_map]
  apply (isGrouping_keys hlegible hfound).filter_flatMap ((mem_groups_iff hlegible hfound).2 ⟨e, he, rfl⟩)
  intro group hgroup f hf
  obtain ⟨e', he', rfl⟩ := (mem_groups_iff hlegible hfound).1 hgroup
  have hkey := ((mem_rivals_iff hmembers hlegible he').1 (mem_of_mem_preferred hf)).2
  rw [key_beq_iff hlegible (hfound e he), hkey]

end Legible

section Merged

variable (hc : c < l.contracts.size) (hmerges : l.Merges c)

include hc hmerges

theorem exists_contract_of_mem_found (hf : f ∈ l.found c w after) :
    ∃ d, (l.callableD f).contract = some d ∧ l.IsAbove d c := by
  obtain ⟨d, hd, hfd⟩ := List.mem_flatMap.1 (List.mem_of_mem_filter hf)
  refine ⟨d, (hmembers d f).1 hfd, ?_⟩
  rw [← (hmerges.isOrder hc).mem_iff, ← order_eq]
  exact searched_sublist.subset hd

theorem nodup_found (hnodup : ∀ d, (l.members d).Nodup) : (l.found c w after).Nodup := by
  apply List.Nodup.filter
  rw [List.nodup_flatMap]
  apply And.intro fun d _ => hnodup d
  have horder : (l.searched c after).Nodup :=
    searched_sublist.nodup (order_eq ▸ (hmerges.isOrder hc).nodup)
  apply horder.imp
  intro d d' hne f hd hd'
  exact hne (Option.some.inj (((hmembers d f).1 hd).symm.trans ((hmembers d' f).1 hd')))

theorem mem_maximal_rivals_of_head? (hfirst : (l.rivals c w after e).head? = some f) :
    f ∈ l.maximal (l.rivals c w after e) := by
  rw [rivals, found, List.filter_filter] at hfirst ⊢
  exact mem_maximal_of_head? hmerges hmembers.knowsMembers hc searched_sublist hfirst

theorem isDominatedBy_iff_of_mem_found (hg : g ∈ l.found c w after) : l.isDominatedBy f g = true ↔ l.IsBelow g f := by
  apply isDominatedBy_iff
  intro d hd b
  obtain ⟨d', hd', habove⟩ := exists_contract_of_mem_found hmembers hc hmerges hg
  obtain rfl := Option.some.inj (hd.symm.trans hd')
  rw [order_eq]
  exact ((hmerges.above habove).isOrder (habove.lt_size hc)).mem_iff b

section Legible

variable (hlegible : l.IsLegible)

include hlegible

theorem mem_maximal_rivals_iff (he : e ∈ l.found c w after) : f ∈ l.maximal (l.rivals c w after e) ↔
    f ∈ l.found c w after ∧ l.key f = l.key e ∧
      ∀ g ∈ l.found c w after, l.key g = l.key e → ¬ l.IsBelow g f := by
  rw [mem_maximal_iff, mem_rivals_iff hmembers hlegible he, and_assoc]
  apply and_congr_right
  intro hf
  obtain ⟨d, hd, -⟩ := exists_contract_of_mem_found hmembers hc hmerges hf
  apply and_congr_right
  intro _
  simp only [hd, Option.isSome_some, true_and, mem_rivals_iff hmembers hlegible he, and_imp]
  apply forall₃_congr
  intro g hg _
  rw [← isDominatedBy_iff_of_mem_found hmembers hc hmerges hg, Bool.not_eq_true]

section Once

variable (hcycle : ¬ l.IsBelowCycle c) (hnodup : ∀ d, (l.members d).Nodup) (honce : l.DeclaresOnce c)

include hcycle hnodup honce

theorem maximal_eq_of_own (hf : f ∈ l.found c w after) (hown : (l.callableD f).contract = some c) :
    l.maximal (l.rivals c w after f) = [f] := by
  rw [← List.perm_singleton, List.perm_ext_iff_of_nodup _ (List.nodup_singleton f)]
  · intro g
    rw [mem_maximal_rivals_iff hmembers hc hmerges hlegible hf, List.mem_singleton]
    constructor
    · rintro ⟨hg, hkey, hnone⟩
      obtain ⟨d, hd, habove⟩ := exists_contract_of_mem_found hmembers hc hmerges hg
      obtain rfl : d = c := by
        by_contra hne
        exact hnone f hf rfl ⟨c, d, hown, hd, hne, habove⟩
      apply honce d (.refl d) g ((hmembers d g).2 hd) f ((hmembers d f).2 hown) _ _ hkey
      · exact isMember_of_mem_found hg
      · exact isMember_of_mem_found hf
    · rintro rfl
      refine ⟨hf, rfl, fun x hx _ hbelow => ?_⟩
      obtain ⟨d, b, hd, hb, hne, habove⟩ := hbelow
      obtain rfl := Option.some.inj (hown.symm.trans hb)
      obtain ⟨d', hd', habove'⟩ := exists_contract_of_mem_found hmembers hc hmerges hx
      obtain rfl := Option.some.inj (hd.symm.trans hd')
      have hcycle' : ¬ l.IsBelowCycle d := fun ⟨a, ha, hloop⟩ => hcycle ⟨a, ha.trans habove', hloop⟩
      exact Nat.lt_asymm (habove.idxOf_lt hne hcycle') (habove'.idxOf_lt hne.symm hcycle)
  · exact ((nodup_found hmembers hc hmerges hnodup).filter _).filter _

theorem filter_candidates_eq (he : e ∈ l.found c w after) :
    (l.candidates c w after).filter (fun f => l.key f == l.key e) = l.maximal (l.rivals c w after e) := by
  obtain ⟨first, hfirst⟩ := exists_head?_rivals hmembers hlegible he
  obtain ⟨hfound, hkey⟩ := (mem_rivals_iff hmembers hlegible he).1 (List.mem_of_head? hfirst)
  rw [filter_candidates hmembers hlegible he]
  apply preferred_eq_maximal hfirst (mem_maximal_rivals_of_head? hmembers hc hmerges hfirst)
  intro hown
  have hrivals : l.rivals c w after e = l.rivals c w after first := by rw [rivals, rivals, hkey]
  rw [hrivals]
  exact maximal_eq_of_own hmembers hc hmerges hlegible hcycle hnodup honce hfound hown

end Once

end Legible

end Merged

end Members

theorem mostDerived?_eq_some_iff {name : Value} {arity : Option Int} :
    l.mostDerived? c name arity = some f ↔ l.candidates c ⟨name, arity, none⟩ none = [f] := by
  unfold mostDerived?
  split
  · next g hg => simp [hg]
  · next hnone =>
    apply iff_of_false
    · simp
    · exact hnone f

end Lineage

open Classical in
/--
In a contract below no cycle whose order, like those above it, is merged, a name stands for the definitions of each key
that no other one of the key is below, in the order of the contract. Its own definition stands alone. There is a most
derived definition just if it is the only candidate.
-/
theorem Session.candidates_are_undominated (a : Arena) (plan : FailurePlan) (settings : Settings)
    (hlegible : a.isLegible = true) {c : ContractId} (hc : c < (analyse a plan settings).contracts.size)
    (hcycle : ¬ (analyse a plan settings).IsBelowCycle c)
    (hmerge : ∀ d, (analyse a plan settings).IsAbove d c → ¬ (analyse a plan settings).HasNoMerge d)
    (honce : (analyse a plan settings).DeclaresOnce c) (w : Lineage.Wanted) (after : Option ContractId) :
    let l := (analyse a plan settings).toLineage
    ∃ result, (l.candidatesFor c w after).outcome = .ok result ∧
      (∀ f ∈ result, f ∈ l.found c w after) ∧
      (∀ e ∈ l.found c w after,
        (result.filter fun f => l.key f == l.key e) ≠ [] ∧
        (result.filter fun f => l.key f == l.key e) = (l.found c w after).filter fun f =>
          l.key f = l.key e ∧ ∀ g ∈ l.found c w after, l.key g = l.key e → ¬ l.IsBelow g f) ∧
      (c ∈ l.searched c after → ∀ f ∈ l.members c, w.matches (l.callableD f) = true →
        (result.filter fun g => l.key g == l.key f) = [f]) ∧
      ∀ d, (l.mostDerivedFor c w.name w.arity).outcome = .ok (some d) ↔
        (l.candidatesFor c ⟨w.name, w.arity, none⟩ none).outcome = .ok [d] := by
  intro l
  have hl : l.IsLegible := Outline.isLegible_ofArena plan hlegible
  have hmembers : l.SortsMembers := Lineage.sortsMembers_analyse a plan settings
  have hnodup : ∀ d, (l.members d).Nodup := Outline.nodup_callables a plan
  have hmerges : l.Merges c := by
    refine ⟨fun d hd => ?_, hmerge⟩
    apply Outline.isAboveCycle_of_not_isBelowCycle
    rintro ⟨b, hb, hloop⟩
    exact hcycle ⟨b, hb.trans hd, hloop⟩
  replace hc : c < l.contracts.size := hc
  replace hcycle : ¬ l.IsBelowCycle c := hcycle
  replace honce : l.DeclaresOnce c := honce
  clear_value l
  obtain ⟨_, hresult, rfl⟩ := Lineage.answers_candidatesFor hl c w after
  have hfilter {e : CallableId} (he : e ∈ l.found c w after) :
      (l.candidates c w after).filter (fun f => l.key f == l.key e) = l.maximal (l.rivals c w after e) :=
    Lineage.filter_candidates_eq hmembers hc hmerges hl hcycle hnodup honce he
  refine ⟨_, hresult, fun f hf => ?_, fun e he => ⟨?_, ?_⟩, fun hown f hf hmatches => ?_, fun d => ?_⟩
  · exact Lineage.mem_found_of_mem_candidates hf
  · obtain ⟨first, hfirst⟩ := Lineage.exists_head?_rivals hmembers hl he
    rw [hfilter he]
    exact List.ne_nil_of_mem (Lineage.mem_maximal_rivals_of_head? hmembers hc hmerges hfirst)
  · rw [hfilter he, Lineage.maximal, Lineage.rivals, List.filter_filter]
    apply List.filter_congr
    intro f hf
    have hmem := Lineage.mem_maximal_rivals_iff (f := f) hmembers hc hmerges hl he
    simp only [Lineage.maximal, Lineage.rivals, List.filter_filter, List.mem_filter, hf, true_and] at hmem
    rw [Bool.eq_iff_iff, decide_eq_true_iff]
    exact hmem
  · have hfound : f ∈ l.found c w after := List.mem_filter.2 ⟨List.mem_flatMap.2 ⟨c, hown, hf⟩, hmatches⟩
    rw [hfilter hfound]
    exact Lineage.maximal_eq_of_own hmembers hc hmerges hl hcycle hnodup honce hfound ((hmembers c f).1 hf)
  · obtain ⟨_, hcandidates, rfl⟩ := Lineage.answers_candidatesFor hl c ⟨w.name, w.arity, none⟩ none
    have hmost : (l.mostDerivedFor c w.name w.arity).outcome = .ok (l.mostDerived? c w.name w.arity) :=
      Query.outcome_bind_eq_ok.2 ⟨_, hcandidates, rfl⟩
    rw [hmost, hcandidates, Except.ok.injEq, Except.ok.injEq, Lineage.mostDerived?_eq_some_iff]

namespace Competing

open Sample

/-- A contract `D` with two bases that both override the `f` of `A`, and with its own `g`. -/
def nodes : Array Node := #[
  unit [1, 4, 8, 12],
  contract "A" [] [2, 3],
  named .functionDefinition 1 "nodes" "f",
  named .functionDefinition 1 "nodes" "g",
  contract "B" [5] [7],
  base 4 6,
  basePath 5 "A",
  named .functionDefinition 4 "nodes" "f",
  contract "C" [9] [11],
  base 8 10,
  basePath 9 "A",
  named .functionDefinition 8 "nodes" "f",
  contract "D" [13, 15] [17],
  base 12 14,
  basePath 13 "B",
  base 12 16,
  basePath 15 "C",
  named .functionDefinition 12 "nodes" "g"]

def arena : Arena :=
  arenaOf nodes (by decide +kernel)

def analysis : FlowGraph :=
  Session.analyse arena {} {}

theorem hasMerge : ∀ d, analysis.IsAbove d 3 → ¬ analysis.HasNoMerge d := by
  have hall : ∀ d < 4, analysis.mergeBases analysis.linearization d ≠ none := by
    decide +kernel
  intro d hd hnone
  exact hall d (hd.lt_size (by decide +kernel)) hnone.2

theorem not_isBelowCycle : ¬ analysis.IsBelowCycle 3 := by
  apply Outline.not_isBelowCycle_of_lt
  have hall : ∀ d < 4, ∀ b ∈ analysis.bases d, b < d := by
    decide +kernel
  exact hall

theorem declaresOnce : analysis.DeclaresOnce 3 := by
  have hall : ∀ d < 4, ∀ f ∈ analysis.members d, ∀ g ∈ analysis.members d,
      (analysis.key f == analysis.key g) = true → f = g := by
    decide +kernel
  have hlegible : analysis.IsLegible := Outline.isLegible_ofArena {} (by decide +kernel)
  intro d hd f hf g hg _ _ hkey
  apply hall d (hd.lt_size (by decide +kernel)) f hf g hg
  have hsize := ((Lineage.sortsMembers_analyse arena {} {}).knowsMembers d g hg).1
  exact (Lineage.key_beq_iff hlegible hsize).2 hkey

/-- The two bases compete for `f`, so there is no most derived one, and `g` is that of the contract itself. -/
theorem both_bases_are_candidates :
    (analysis.candidatesFor 3 ⟨.text "f", none, none⟩ none).outcome = .ok [3, 2] ∧
      ¬ analysis.IsBelow 2 3 ∧ ¬ analysis.IsBelow 3 2 ∧
      (∀ f, (analysis.mostDerivedFor 3 (.text "f") none).outcome ≠ .ok (some f)) ∧
      (analysis.mostDerivedFor 3 (.text "g") none).outcome = .ok (some 4) := by
  have hlookup (w : Lineage.Wanted) := Session.candidates_are_undominated arena {} {} (by decide +kernel)
    (by decide +kernel) not_isBelowCycle hasMerge declaresOnce w none
  have hvalues : (analysis.candidatesFor 3 ⟨.text "f", none, none⟩ none).outcome = .ok [3, 2] ∧
      (analysis.candidatesFor 3 ⟨.text "g", none, none⟩ none).outcome = .ok [4] ∧
      analysis.found 3 ⟨.text "f", none, none⟩ none = [3, 2, 0] := by
    decide +kernel
  obtain ⟨hf, hg, hfound⟩ := hvalues
  obtain ⟨result, hresult, -, hundominated, -, hmost⟩ := hlookup ⟨.text "f", none, none⟩
  obtain rfl := Except.ok.inj (hf.symm.trans hresult)
  obtain ⟨-, hfilter⟩ := hundominated 3 (hfound ▸ by decide)
  have hkept : ([3, 2] : List CallableId).filter (fun f => analysis.key f == analysis.key 3) = [3, 2] := by
    decide +kernel
  have hmem (f : CallableId) (h : f ∈ ([3, 2] : List CallableId)) : analysis.key f = analysis.key 3 ∧
      ∀ g ∈ analysis.found 3 ⟨.text "f", none, none⟩ none,
        analysis.key g = analysis.key 3 → ¬ analysis.IsBelow g f := by
    rw [← hfilter.symm.trans hkept] at h
    have hkeep := (List.mem_filter.1 h).2
    simp only [decide_eq_true_eq] at hkeep
    exact hkeep
  have hkey : analysis.key 2 = analysis.key 3 := (hmem 2 (by decide)).1
  refine ⟨hf, ?_, ?_, fun f => ?_, ?_⟩
  · exact (hmem 3 (by decide)).2 2 (hfound ▸ by decide) hkey
  · exact (hmem 2 (by decide)).2 3 (hfound ▸ by decide) rfl
  · intro hone
    have hsame := Except.ok.inj (hf.symm.trans ((hmost f).1 hone))
    simp at hsame
  · obtain ⟨-, -, -, -, -, hmost⟩ := hlookup ⟨.text "g", none, none⟩
    exact (hmost 4).2 hg

end Competing

end ContractFlow
