import ContractFlow.Proofs.Lineage.Candidate

/-! This module shows that the conflicts of a contract are the look-ups which it leaves ambiguous. -/

namespace ContractFlow

def Conflict.IsAbout (l : Lineage) (x : Conflict) (k : Value × List Value) : Prop :=
  ∃ f ∈ x.candidates, l.key f = k

theorem flatMap_filter_eq {α β : Type} {xs : List α} {p : α → Bool} {g : α → List β}
    (h : ∀ x ∈ xs, p x = false → g x = []) : (xs.filter p).flatMap g = xs.flatMap g := by
  induction xs with
  | nil => rfl
  | cons x xs ih =>
    obtain ⟨hx, hxs⟩ := List.forall_mem_cons.1 h
    rw [List.filter_cons, List.flatMap_cons, ← ih hxs]
    split
    · rw [List.flatMap_cons]
    · next hp => rw [hx (Bool.eq_false_iff.2 hp), List.nil_append]

namespace Lineage

variable {l : Lineage} {c : ContractId} {e f : CallableId}

def Wanted.ofKey (k : Value × List Value) : Wanted :=
  ⟨k.1, some k.2.length, none⟩

theorem map_candidates_conflicts (c : ContractId) : (l.conflicts c).map (·.candidates) =
    ((l.inherited c).map l.maximal).filter fun winners => 2 ≤ winners.length := by
  unfold conflicts
  dsimp only
  induction l.inherited c with
  | nil => rfl
  | cons definitions rest ih =>
    rw [List.filterMap_cons, List.map_cons, List.filter_cons, ← ih]
    by_cases h : (l.maximal definitions).length < 2
    · simp [h]
    · simp [h, Nat.le_of_not_lt h]

theorem preferred_of_inherited {definitions : List CallableId}
    (h : ∀ f ∈ definitions, (l.callableD f).contract ≠ some c) :
    (l.preferred c definitions).length = (l.maximal definitions).length ∧
      (2 ≤ (l.maximal definitions).length → l.preferred c definitions = l.maximal definitions) := by
  unfold preferred
  split
  · next hnone => simp [List.head?_eq_none_iff.1 hnone, maximal]
  · next first hfirst =>
    have hown : ((l.callableD first).contract == some c) = false :=
      beq_eq_false_iff_ne.2 (h first (List.mem_of_head? hfirst))
    simp only [hown, Bool.false_or, beq_iff_eq]
    split
    · next hone => simp [hone]
    · simp

theorem filter_found_eq (hlegible : l.IsLegible) (he : e < l.callables.size)
    (hown : ∀ f ∈ l.members c, l.key f ≠ l.key e) :
    (l.found c (.ofKey (l.key e)) none).filter (fun f => l.key f == l.key e)
      = (l.inheritable c).filter fun f => l.key f == l.key e := by
  have hmatches (f : CallableId) :
      ((l.key f == l.key e) && Wanted.matches (.ofKey (l.key e)) (l.callableD f)) =
        ((l.key f == l.key e) && l.isMember f) := by
    by_cases hkey : l.key f = l.key e
    · have hname : ((l.callableD f).name == (l.key e).1) = true :=
        (Value.beq_eq_true_iff (hlegible.names e he)).2 (congrArg Prod.fst hkey)
      have harity : (l.callableD f).arity = (l.key e).2.length := by
        rw [← hkey]
        exact (List.length_map _).symm
      simp [Wanted.matches, Wanted.ofKey, hname, harity, isMember]
    · rw [Bool.eq_false_iff.2 (mt (key_beq_iff hlegible he).1 hkey), Bool.false_and, Bool.false_and]
  rw [found, inheritable, List.filter_filter, List.filter_filter]
  simp only [hmatches]
  rw [List.filter_flatMap, List.filter_flatMap]
  apply Eq.symm
  apply flatMap_filter_eq
  intro d _ hd
  obtain rfl : d = c := by simpa using hd
  apply List.filter_eq_nil_iff.2
  intro f hf
  rw [Bool.and_eq_true, key_beq_iff hlegible he]
  exact fun h => hown f hf h.1

theorem mem_found_ofKey_iff (hlegible : l.IsLegible) (he : e < l.callables.size)
    (hown : ∀ f ∈ l.members c, l.key f ≠ l.key e) :
    e ∈ l.found c (.ofKey (l.key e)) none ↔ e ∈ l.inheritable c := by
  have hself : (l.key e == l.key e) = true := (key_beq_iff hlegible he).2 rfl
  have hsame : e ∈ (l.found c (.ofKey (l.key e)) none).filter (fun f => l.key f == l.key e) ↔ _ :=
    Eq.to_iff (congrArg (e ∈ ·) (filter_found_eq hlegible he hown))
  rwa [List.mem_filter, List.mem_filter, and_iff_left hself, and_iff_left hself] at hsame

section Members

variable (hmembers : l.SortsMembers) (hlegible : l.IsLegible)

include hmembers

theorem lt_size_of_mem_inheritable (hf : f ∈ l.inheritable c) : f < l.callables.size := by
  obtain ⟨d, -, hd⟩ := List.mem_flatMap.1 (List.mem_of_mem_filter hf)
  exact (hmembers.knowsMembers d f hd).1

include hlegible

theorem mem_inherited_iff {definitions : List CallableId} : definitions ∈ l.inherited c ↔
    ∃ e ∈ l.inheritable c, (∀ f ∈ l.members c, l.key f ≠ l.key e) ∧
      definitions = (l.inheritable c).filter fun f => l.key f == l.key e := by
  have hfs : ∀ f ∈ l.inheritable c, f < l.callables.size := fun f => lt_size_of_mem_inheritable hmembers
  have hown (e : CallableId) : (!((l.members c).map l.key).contains (l.key e)) = true ↔
      ∀ f ∈ l.members c, l.key f ≠ l.key e := by
    rw [Bool.not_eq_true', List.contains_eq_any_beq, List.any_map, List.any_eq_false]
    apply forall₂_congr
    intro f hf
    rw [Function.comp_apply, key_beq_iff hlegible (hmembers.knowsMembers c f hf).1, ne_comm]
  simp only [inherited, List.mem_map, List.mem_filter]
  constructor
  · rintro ⟨group, ⟨hgroup, hkey⟩, rfl⟩
    obtain ⟨e, he, rfl⟩ := (mem_groups_iff hlegible hfs).1 hgroup
    exact ⟨e, he, (hown e).1 hkey, rfl⟩
  · rintro ⟨e, he, hkey, rfl⟩
    exact ⟨_, ⟨(mem_groups_iff hlegible hfs).2 ⟨e, he, rfl⟩, (hown e).2 hkey⟩, rfl⟩

theorem exists_of_isAbout {x : Conflict} (hx : x ∈ l.conflicts c) {k : Value × List Value} (hk : x.IsAbout l k) :
    ∃ e ∈ l.inheritable c, l.key e = k ∧ (∀ f ∈ l.members c, l.key f ≠ k) ∧ 2 ≤ x.candidates.length ∧
      x.candidates = l.maximal ((l.inheritable c).filter fun f => l.key f == l.key e) := by
  have hcandidates : x.candidates ∈ (l.conflicts c).map (·.candidates) := List.mem_map_of_mem hx
  rw [map_candidates_conflicts, List.mem_filter, List.mem_map] at hcandidates
  obtain ⟨⟨definitions, hdefinitions, heq⟩, hlength⟩ := hcandidates
  obtain ⟨e, he, hown, rfl⟩ := (mem_inherited_iff hmembers hlegible).1 hdefinitions
  obtain ⟨f, hf, rfl⟩ := hk
  have hkey : l.key f = l.key e := by
    rw [← heq] at hf
    have hbeq := (List.mem_filter.1 (List.mem_of_mem_filter hf)).2
    exact (key_beq_iff hlegible (lt_size_of_mem_inheritable hmembers he)).1 hbeq
  rw [hkey]
  exact ⟨e, he, rfl, hown, of_decide_eq_true hlength, heq.symm⟩

theorem exists_conflict (he : e ∈ l.inheritable c) (hown : ∀ f ∈ l.members c, l.key f ≠ l.key e)
    (hlength : 2 ≤ (l.maximal ((l.inheritable c).filter fun f => l.key f == l.key e)).length) :
    ∃ x ∈ l.conflicts c, x.candidates = l.maximal ((l.inheritable c).filter fun f => l.key f == l.key e) := by
  apply List.mem_map.1
  rw [map_candidates_conflicts, List.mem_filter]
  refine ⟨List.mem_map_of_mem ?_, decide_eq_true hlength⟩
  exact (mem_inherited_iff hmembers hlegible).2 ⟨e, he, hown, rfl⟩

theorem filter_candidates_of_inherited (he : e ∈ l.found c (.ofKey (l.key e)) none)
    (hown : ∀ f ∈ l.members c, l.key f ≠ l.key e) :
    let winners := l.maximal ((l.inheritable c).filter fun f => l.key f == l.key e)
    let found := (l.candidates c (.ofKey (l.key e)) none).filter fun f => l.key f == l.key e
    found.length = winners.length ∧ (2 ≤ winners.length → found = winners) := by
  intro winners found
  have hlt := lt_size_of_mem_found hmembers he
  have hrivals : l.rivals c (.ofKey (l.key e)) none e = (l.inheritable c).filter fun f => l.key f == l.key e :=
    filter_found_eq hlegible hlt hown
  have hfound : found = l.preferred c ((l.inheritable c).filter fun f => l.key f == l.key e) := by
    rw [← hrivals]
    exact filter_candidates hmembers hlegible he
  rw [hfound]
  apply preferred_of_inherited
  intro f hf hcontract
  exact hown f ((hmembers c f).2 hcontract) ((key_beq_iff hlegible hlt).1 (List.mem_filter.1 hf).2)

end Members

end Lineage

open Classical in
/--
There is no conflict about a key that the contract declares. About any other key there is one just if the look-up of its
name and its number of parameters finds several definitions of the key, and it lists these in the same order.
-/
theorem Session.conflicts_are_ambiguous_lookups (a : Arena) (plan : FailurePlan) (settings : Settings)
    (hlegible : a.isLegible = true) (c : ContractId) :
    let l := (analyse a plan settings).toLineage
    ∃ conflicts, (l.conflictsOf c).outcome = .ok conflicts ∧
      (∀ f ∈ l.members c, ∀ x ∈ conflicts, ¬ x.IsAbout l (l.key f)) ∧
      ∀ k, (∀ f ∈ l.members c, l.key f ≠ k) →
        ∃ found, (l.candidatesFor c (.ofKey k) none).outcome = .ok found ∧
          ((∃ x ∈ conflicts, x.IsAbout l k) ↔ 2 ≤ (found.filter fun f => l.key f = k).length) ∧
          ∀ x ∈ conflicts, x.IsAbout l k → x.candidates = found.filter fun f => l.key f = k := by
  intro l
  have hl : l.IsLegible := Outline.isLegible_ofArena plan hlegible
  have hmembers : l.SortsMembers := Lineage.sortsMembers_analyse a plan settings
  clear_value l
  obtain ⟨_, hconflicts, rfl⟩ := Lineage.answers_conflictsOf hl c
  refine ⟨_, hconflicts, fun f hf x hx hk => ?_, fun k hown => ?_⟩
  · obtain ⟨e, -, -, hown, -⟩ := Lineage.exists_of_isAbout hmembers hl hx hk
    exact hown f hf rfl
  · obtain ⟨_, hfound, rfl⟩ := Lineage.answers_candidatesFor hl c (.ofKey k) none
    have hfilter {e : CallableId} (he : e < l.callables.size) : (fun f => decide (l.key f = l.key e))
        = fun f => l.key f == l.key e := by
      funext f
      rw [Bool.eq_iff_iff, decide_eq_true_iff, Lineage.key_beq_iff hl he]
    have hlisted : ∀ x ∈ l.conflicts c, x.IsAbout l k → 2 ≤ x.candidates.length ∧
        x.candidates = (l.candidates c (.ofKey k) none).filter fun f => l.key f = k := by
      intro x hx hk
      obtain ⟨e, he, rfl, -, hlength, heq⟩ := Lineage.exists_of_isAbout hmembers hl hx hk
      have hlt := Lineage.lt_size_of_mem_inheritable hmembers he
      have hmem := (Lineage.mem_found_ofKey_iff hl hlt hown).2 he
      rw [hfilter hlt, (Lineage.filter_candidates_of_inherited hmembers hl hmem hown).2 (heq ▸ hlength)]
      exact ⟨hlength, heq⟩
    refine ⟨_, hfound, ⟨?_, fun hlength => ?_⟩, fun x hx hk => (hlisted x hx hk).2⟩
    · rintro ⟨x, hx, hk⟩
      rw [← (hlisted x hx hk).2]
      exact (hlisted x hx hk).1
    · -- two candidates of the key: what they are chosen from is inherited, and wins a conflict
      obtain ⟨e, he⟩ := List.exists_mem_of_length_pos (Nat.lt_of_lt_of_le Nat.zero_lt_two hlength)
      obtain ⟨hcandidate, hkey⟩ := List.mem_filter.1 he
      obtain rfl := of_decide_eq_true hkey
      have hmem := Lineage.mem_found_of_mem_candidates hcandidate
      have hlt := Lineage.lt_size_of_mem_found hmembers hmem
      obtain ⟨hsame, hwinners⟩ := Lineage.filter_candidates_of_inherited hmembers hl hmem hown
      rw [hfilter hlt] at he hlength
      rw [hsame] at hlength
      rw [hwinners hlength] at he
      obtain ⟨x, hx, heq⟩ := Lineage.exists_conflict hmembers hl ((Lineage.mem_found_ofKey_iff hl hlt hown).1 hmem)
        hown hlength
      exact ⟨x, hx, e, heq ▸ he, rfl⟩

open Classical in
/-- The two bases of `D` that define `f` are in conflict about it, and about the `g` of `D` there is no conflict. -/
theorem Competing.bases_are_in_conflict : ∃ conflicts, (analysis.conflictsOf 3).outcome = .ok conflicts ∧
    (∃ x ∈ conflicts, x.IsAbout analysis.toLineage (analysis.key 0) ∧ x.candidates = [3, 2]) ∧
    ∀ x ∈ conflicts, ¬ x.IsAbout analysis.toLineage (analysis.key 4) := by
  obtain ⟨conflicts, hconflicts, hown, hinherited⟩ :=
    Session.conflicts_are_ambiguous_lookups arena {} {} (by decide +kernel) 3
  have hvalues : analysis.members 3 = [4] ∧ (analysis.key 4 == analysis.key 0) = false ∧
      ∀ f ∈ [3, 2], analysis.key f == analysis.key 0 := by
    decide +kernel
  have hlegible : analysis.IsLegible := Outline.isLegible_ofArena {} (by decide +kernel)
  have hkey (f : CallableId) : (analysis.key f == analysis.key 0) = true ↔ analysis.key f = analysis.key 0 :=
    Lineage.key_beq_iff hlegible (by decide +kernel)
  have hnew : ∀ f ∈ analysis.members 3, analysis.key f ≠ analysis.key 0 := by
    rw [hvalues.1, List.forall_mem_singleton, ne_eq, ← hkey, hvalues.2.1]
    exact Bool.false_ne_true
  obtain ⟨found, hfound, hiff, hlisted⟩ := hinherited (analysis.key 0) hnew
  have hcandidates : (analysis.candidatesFor 3 (.ofKey (analysis.key 0)) none).outcome = .ok [3, 2] := by
    decide +kernel
  obtain rfl := Except.ok.inj (hcandidates.symm.trans hfound)
  have hkept : List.filter (fun f => decide (analysis.key f = analysis.key 0)) [3, 2] = [3, 2] :=
    List.filter_eq_self.2 fun f hf => decide_eq_true ((hkey f).1 (hvalues.2.2 f hf))
  obtain ⟨x, hx, habout⟩ := hiff.2 (Nat.le_of_eq (congrArg List.length hkept).symm)
  refine ⟨conflicts, hconflicts, ⟨x, hx, habout, (hlisted x hx habout).trans hkept⟩, ?_⟩
  exact hown 4 (hvalues.1 ▸ List.mem_singleton_self 4)

end ContractFlow
