import ContractFlow.Proofs.Lineage.Order
import ContractFlow.Proofs.Program.Model

/-! This module shows that the definition which a contract runs for a name is among the candidates for that name. -/

namespace ContractFlow

namespace Outline

structure Merges (o : Outline) (c : ContractId) : Prop where
  acyclic : ∀ d, o.IsAbove d c → o.isAboveCycle o.cycles d = false
  merged : ∀ d, o.IsAbove d c → ¬ o.HasNoMerge d

namespace Merges

variable {o : Outline} {c d e : ContractId}

theorem above (h : o.Merges c) (hd : o.IsAbove d c) : o.Merges d where
  acyclic e he := h.acyclic e (he.trans hd)
  merged e he := h.merged e (he.trans hd)

theorem mergeBases_eq (h : o.Merges c) (hc : c < o.contracts.size) :
    o.mergeBases o.linearization c = some (o.linearization c) := by
  have hcycle := h.acyclic c (.refl c)
  have hsome : o.mergeBases o.linearization c ≠ none := fun hnone => h.merged c (.refl c) ⟨hcycle, hnone⟩
  obtain ⟨order, horder⟩ := Option.ne_none_iff_exists'.1 hsome
  rw [linearization_eq hc, orderFrom, hcycle, horder]
  rfl

theorem isOrder (h : o.Merges c) (hc : c < o.contracts.size) : o.IsOrder (o.linearization c) c := by
  induction c using (NeedsOrderOf.wellFounded o).induction with
  | _ c ih =>
    refine isOrder_of_mergeBases (fun b hb => not_isAbove_base hb h.acyclic) (fun b hb => ?_) (h.mergeBases_eq hc)
    exact ih b ⟨hb, h.acyclic c (.refl c)⟩ (h.above (.base hb (.refl b))) (lt_size_of_mem_bases hb)

theorem sublist_base (h : o.Merges c) (hc : c < o.contracts.size) {b : ContractId} (hb : b ∈ o.bases c) :
    (o.linearization b).Sublist (o.linearization c) := by
  have hm := h.mergeBases_eq hc
  simp only [mergeBases] at hm
  split at hm
  · next hempty =>
    have : o.bases c = [] := by simpa using hempty
    simp [this] at hb
  · obtain ⟨m, hmerge, horder⟩ := Option.map_eq_some_iff.1 hm
    rw [← horder]
    have hmem := List.mem_append_left [(o.bases c).reverse]
      (List.mem_map_of_mem (f := o.linearization) (List.mem_reverse.2 hb))
    exact ((merged_of_merge hmerge).sublist hmem).cons c

theorem sublist (h : o.Merges c) (hc : c < o.contracts.size) (hd : o.IsAbove d c) :
    (o.linearization d).Sublist (o.linearization c) := by
  induction c using (NeedsOrderOf.wellFounded o).induction with
  | _ c ih =>
    rcases hd.eq_or_exists_base with rfl | ⟨b, hb, hdb⟩
    · exact List.Sublist.refl _
    · have hbase := h.above (.base hb (.refl b))
      exact (ih b ⟨hb, h.acyclic c (.refl c)⟩ hbase (lt_size_of_mem_bases hb) hdb).trans (h.sublist_base hc hb)

theorem pair_sublist (h : o.Merges c) (hc : c < o.contracts.size) (hd : o.IsAbove d c) (he : o.IsAbove e d)
    (hne : e ≠ d) : [d, e].Sublist (o.linearization c) := by
  refine List.Sublist.trans ?_ (h.sublist hc hd)
  have horder := (h.above hd).isOrder (hd.lt_size hc)
  have hmem := (horder.mem_iff e).2 he
  rw [List.eq_cons_of_mem_head? horder.head] at hmem ⊢
  exact (List.singleton_sublist.2 ((List.mem_cons.1 hmem).resolve_left hne)).cons_cons d

end Merges

/-- The orders of all contracts are merged from those of their bases. -/
structure MergesAll (o : Outline) : Prop where
  acyclic : o.cycles = []
  merged : ∀ c < o.contracts.size, o.mergeFailures c = []

theorem MergesAll.merges {o : Outline} (h : o.MergesAll) (c : ContractId) : o.Merges c where
  acyclic d _ := by simp [isAboveCycle, h.acyclic]
  merged d _ hno := by
    have hmem := hno.mem_mergeFailures
    rw [h.merged d hno.lt_size] at hmem
    cases hmem

end Outline

theorem groupPairs_eq {κ α : Type} [BEq κ] [ReflBEq κ] {k : κ} {x : α} {xs : List α} {key : α → κ}
    (hkey : ∀ y ∈ x :: xs, key y = k) :
    groupPairs ((x :: xs).map fun y => (key y, y)) = [(k, x :: xs)] := by
  have hfold (ys zs : List α) (hys : ∀ y ∈ ys, key y = k) :
      (ys.map fun y => (key y, y)).foldl (fun groups q => addToGroup groups q.1 q.2) [(k, zs)]
        = [(k, zs ++ ys)] := by
    induction ys generalizing zs with
    | nil => simp
    | cons y ys ih =>
      obtain ⟨hy, hys⟩ := List.forall_mem_cons.1 hys
      simp only [List.map_cons, List.foldl_cons, hy, addToGroup, BEq.rfl, if_true]
      rw [ih (zs ++ [y]) hys, List.append_assoc]
      rfl
  obtain ⟨hx, hxs⟩ := List.forall_mem_cons.1 hkey
  simp only [List.map_cons, hx]
  exact hfold xs [x] hxs

namespace Lineage

variable {l : Lineage}
variable {definitions : List CallableId}

def KnowsMembers (l : Lineage) : Prop :=
  ∀ c, ∀ f ∈ l.members c, f < l.callables.size ∧ (l.callableD f).contract = some c

theorem sublist_of_head? (hmembers : l.KnowsMembers) {p : CallableId → Bool} {cs : List ContractId}
    {f g : CallableId} {c d : ContractId} (hf : ((cs.flatMap l.members).filter p).head? = some f)
    (hg : g ∈ (cs.flatMap l.members).filter p) (hc : (l.callableD f).contract = some c)
    (hd : (l.callableD g).contract = some d) (hne : c ≠ d) : [c, d].Sublist cs := by
  induction cs with
  | nil => simp at hf
  | cons x cs ih =>
    rw [List.flatMap_cons, List.filter_append] at hf hg
    cases hx : (l.members x).filter p with
    | nil =>
      rw [hx] at hf hg
      exact (ih hf hg).cons x
    | cons y ys =>
      rw [hx] at hf
      obtain rfl : y = f := by simpa using hf
      have hy : y ∈ l.members x := List.mem_of_mem_filter (hx ▸ List.mem_cons_self)
      obtain rfl : x = c := Option.some.inj ((hmembers x y hy).2.symm.trans hc)
      have hdcs : d ∈ cs := by
        rcases List.mem_append.1 hg with hg | hg
        · have hgx := (hmembers x g (List.mem_of_mem_filter hg)).2
          exact absurd (Option.some.inj (hgx.symm.trans hd)) hne
        · obtain ⟨z, hz, hgz⟩ := List.mem_flatMap.1 (List.mem_of_mem_filter hg)
          obtain rfl : z = d := Option.some.inj ((hmembers z g hgz).2.symm.trans hd)
          exact hz
      exact (List.singleton_sublist.2 hdcs).cons_cons x

section Dispatch

variable (l)

def orderAfter (c : ContractId) : Option ContractId → List ContractId
  | none => l.order c
  | some s => ((l.order c).dropWhile (· != s)).tail

def isPlainFunction (f : CallableId) : Bool :=
  (l.callableD f).kind != .constructor && (l.callableD f).kind != .modifier

/--
The functions of a name and an arity in the order of a contract. The first one of them is what a call in that
contract runs.
-/
def definitionsOf (c : ContractId) (name : Value) (arity : Nat) (after : Option ContractId) :
    List CallableId :=
  ((l.orderAfter c after).flatMap l.members).filter fun f =>
    (l.callableD f).name == name && l.isPlainFunction f && (l.callableD f).arity == arity

def SeparatesModifiers : Prop :=
  ∀ m < l.callables.size, (l.callableD m).kind = .modifier → ∀ f < l.callables.size,
    l.isPlainFunction f = true → ((l.callableD m).name == (l.callableD f).name) = false

def NamesNoModifier (name : String) : Prop :=
  ∀ m < l.callables.size, (l.callableD m).kind = .modifier → (l.callableD m).name ≠ .text name

def preferred (c : ContractId) (definitions : List CallableId) : List CallableId :=
  match definitions.head? with
  | none => []
  | some first =>
    if (l.callableD first).contract == some c || (l.maximal definitions).length == 1 then [first]
    else l.maximal definitions

def parameterTypes (f : CallableId) : List Value :=
  (l.callableD f).parameters.map (·.typeName)

end Dispatch

variable {c : ContractId} {name : String} {arity : Nat} {after : Option ContractId} {f : CallableId}

theorem searched_eq (hafter : ∀ s, after = some s → s ∈ l.order c) : l.searched c after = l.orderAfter c after := by
  cases after with
  | none => rfl
  | some s =>
    simp only [searched, orderAfter]
    rw [if_pos (List.contains_iff_mem.2 (hafter s rfl))]

theorem orderAfter_sublist : (l.orderAfter c after).Sublist (l.order c) := by
  cases after with
  | none => exact List.Sublist.refl _
  | some s => exact (List.tail_sublist _).trans (List.dropWhile_sublist _)

theorem isPlainFunction_of_mem_definitionsOf (hf : f ∈ l.definitionsOf c (.text name) arity after) :
    l.isPlainFunction f = true := by
  have hkept := (List.mem_filter.1 hf).2
  simp only [Bool.and_eq_true] at hkept
  exact hkept.1.2

theorem SeparatesModifiers.namesNoModifier (hsep : l.SeparatesModifiers) (hmembers : l.KnowsMembers)
    (hf : f ∈ l.definitionsOf c (.text name) arity after) : l.NamesNoModifier name := by
  intro m hm hkind hname
  obtain ⟨hmem, hpf⟩ := List.mem_filter.1 hf
  obtain ⟨e, -, hfe⟩ := List.mem_flatMap.1 hmem
  simp only [Bool.and_eq_true] at hpf
  have hne := hsep m hm hkind f (hmembers e f hfe).1 hpf.1.2
  rw [hname, Value.eq_text_of_beq hpf.1.1] at hne
  simp at hne

theorem matches_eq (hmembers : l.KnowsMembers) (hmodifiers : l.NamesNoModifier name) {d : ContractId} {g : CallableId}
    (hg : g ∈ l.members d) : Wanted.matches ⟨.text name, some arity, none⟩ (l.callableD g)
      = ((l.callableD g).name == .text name && l.isPlainFunction g && (l.callableD g).arity == arity) := by
  have harity : ((arity : Int) == ((l.callableD g).arity : Int)) = ((l.callableD g).arity == arity) := by
    rw [Bool.eq_iff_iff, beq_iff_eq, beq_iff_eq]
    omega
  unfold Wanted.matches
  by_cases hname : ((l.callableD g).name == .text name) = true
  · have hkind : ((l.callableD g).kind == .modifier) = false :=
      beq_eq_false_iff_ne.2 fun hkind =>
        hmodifiers g (hmembers d g hg).1 hkind (Value.eq_text_of_beq hname)
    simp [isPlainFunction, Callable.isConstructor, harity, bne, hkind]
  · simp [hname]

theorem filter_matches_eq (hmembers : l.KnowsMembers) (hmodifiers : l.NamesNoModifier name)
    (hafter : ∀ s, after = some s → s ∈ l.order c) : ((l.searched c after).flatMap l.members).filter
      (fun g => Wanted.matches ⟨.text name, some arity, none⟩ (l.callableD g))
        = l.definitionsOf c name arity after := by
  rw [searched_eq hafter]
  apply List.filter_congr
  intro g hg
  obtain ⟨d, -, hgd⟩ := List.mem_flatMap.1 hg
  exact matches_eq hmembers hmodifiers hgd

theorem matching_eq (hmembers : l.KnowsMembers) (hmodifiers : l.NamesNoModifier name)
    (hafter : ∀ s, after = some s → s ∈ l.order c)
    (hfirst : (l.definitionsOf c name arity after).head? = some f)
    (htypes : ∀ g ∈ l.definitionsOf c name arity after, l.parameterTypes g = l.parameterTypes f) :
    l.matching c ⟨.text name, some arity, none⟩ after = [l.definitionsOf c name arity after] := by
  have hkey : ∀ g ∈ l.definitionsOf c name arity after, l.key g = (.text name, l.parameterTypes f) := by
    intro g hg
    have hname := (List.mem_filter.1 hg).2
    simp only [Bool.and_eq_true] at hname
    exact Prod.ext (Value.eq_text_of_beq hname.1.1) (htypes g hg)
  simp only [matching, filter_matches_eq hmembers hmodifiers hafter]
  rw [List.eq_cons_of_mem_head? hfirst] at hkey ⊢
  rw [groupPairs_eq hkey]
  rfl

theorem mem_maximal_iff : f ∈ l.maximal definitions ↔
    f ∈ definitions ∧ (l.callableD f).contract.isSome = true ∧ ∀ g ∈ definitions, l.isDominatedBy f g = false := by
  simp [maximal]

theorem mem_maximal_of_head? (hmerges : l.Merges c) (hmembers : l.KnowsMembers) (hc : c < l.contracts.size)
    {cs : List ContractId} (hcs : cs.Sublist (l.order c)) {p : CallableId → Bool}
    (hfirst : ((cs.flatMap l.members).filter p).head? = some f) :
    f ∈ l.maximal ((cs.flatMap l.members).filter p) := by
  have horder := hmerges.isOrder hc
  have contract_of {g : CallableId} (hg : g ∈ (cs.flatMap l.members).filter p) :
      ∃ d, l.IsAbove d c ∧ (l.callableD g).contract = some d := by
    obtain ⟨d, hd, hgd⟩ := List.mem_flatMap.1 (List.mem_of_mem_filter hg)
    exact ⟨d, (horder.mem_iff d).1 (order_eq ▸ hcs.subset hd), (hmembers d g hgd).2⟩
  have hf := List.mem_of_head? hfirst
  obtain ⟨cf, -, hcf⟩ := contract_of hf
  refine mem_maximal_iff.2 ⟨hf, by rw [hcf]; rfl, fun g hg => Bool.eq_false_iff.2 fun hdom => ?_⟩
  obtain ⟨cg, hcg, hgcontract⟩ := contract_of hg
  simp only [isDominatedBy, hcf, hgcontract, isAncestor, Bool.and_eq_true, bne_iff_ne,
    List.contains_iff_mem, order_eq] at hdom
  obtain ⟨hne, habove⟩ := hdom
  rw [((hmerges.above hcg).isOrder (hcg.lt_size hc)).mem_iff] at habove
  have hafter : [cf, cg].Sublist (l.linearization c) := by
    rw [← order_eq]
    exact (sublist_of_head? hmembers hfirst hg hcf hgcontract hne).trans hcs
  have hbefore := hmerges.pair_sublist hc hcg habove hne
  exact Nat.lt_asymm (Graph.idxOf_lt_of_sublist horder.nodup hafter)
    (Graph.idxOf_lt_of_sublist horder.nodup hbefore)

theorem candidates_eq_flatMap {w : Wanted} : l.candidates c w after = (l.matching c w after).flatMap (l.preferred c) :=
  rfl

theorem mem_of_mem_preferred (hf : f ∈ l.preferred c definitions) : f ∈ definitions := by
  unfold preferred at hf
  split at hf
  · cases hf
  · next first hfirst =>
    split at hf
    · rw [List.mem_singleton.1 hf]
      exact List.mem_of_head? hfirst
    · exact List.mem_of_mem_filter hf

theorem preferred_eq_maximal (hfirst : definitions.head? = some f) (hf : f ∈ l.maximal definitions)
    (hown : (l.callableD f).contract = some c → l.maximal definitions = [f]) :
    l.preferred c definitions = l.maximal definitions := by
  simp only [preferred, hfirst, Bool.or_eq_true, beq_iff_eq]
  split
  · next h =>
    rcases h with h | h
    · rw [hown h]
    · obtain ⟨g, hg⟩ := List.length_eq_one_iff.1 h
      rw [hg] at hf ⊢
      rw [List.mem_singleton.1 hf]
  · rfl

theorem mem_candidates (hmerges : l.MergesAll) (hmembers : l.KnowsMembers) (hmodifiers : l.NamesNoModifier name)
    (hc : c < l.contracts.size) (hafter : ∀ s, after = some s → s ∈ l.order c)
    (hfirst : (l.definitionsOf c name arity after).head? = some f)
    (htypes : ∀ g ∈ l.definitionsOf c name arity after, l.parameterTypes g = l.parameterTypes f) :
    f ∈ l.candidates c ⟨.text name, some arity, none⟩ after ∧
      ∀ g ∈ l.candidates c ⟨.text name, some arity, none⟩ after, l.parameterTypes g = l.parameterTypes f := by
  have hmax := mem_maximal_of_head? (hmerges.merges c) hmembers hc orderAfter_sublist hfirst
  rw [candidates_eq_flatMap, matching_eq hmembers hmodifiers hafter hfirst htypes, List.flatMap_singleton]
  refine ⟨?_, fun g hg => htypes g (mem_of_mem_preferred hg)⟩
  simp only [preferred, hfirst]
  split
  · exact List.mem_singleton_self f
  · exact hmax

end Lineage

end ContractFlow
