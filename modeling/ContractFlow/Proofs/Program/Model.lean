import ContractFlow.Proofs.Program.Legible
import ContractFlow.Proofs.Syntax.Tree
import Mathlib.Data.List.Induction

/-! This module shows where the declarations of a program come from. -/

namespace ContractFlow

open Outcome (Succeeds bind_eq_ok pure_eq_ok)

structure Callable.IsModel (a : Arena) (contract : Option ContractId) (x : Callable) : Prop where
  contract : x.contract = contract
  body : x.body = a.child? x.node "body"
  definition : a.kind x.node = .functionDefinition ∨ a.kind x.node = .modifierDefinition
  function : a.kind x.node = .functionDefinition →
    x.isFunction = true ∧ x.invocations = Outline.invocationsOf a x.node
  modifier : a.kind x.node = .modifierDefinition → x.isFunction = false ∧ x.kind = .modifier
  parameters : Outline.parametersOf a (a.child? x.node "parameters") false = .ok x.parameters
  returns : Outline.parametersOf a (a.child? x.node "returnParameters") true = .ok x.returns
  name : a.isLegible = true → x.name.isText = true

namespace Outline

variable {a : Arena} {plan : FailurePlan} {n : NodeId} {contract : Option ContractId} {x : Callable} {c : ContractId}
  {f : CallableId}

theorem isModel_of_functionOf {inInterface : Bool} (hk : a.kind n = .functionDefinition)
    (h : functionOf a plan n contract inInterface = .ok x) : x.node = n ∧ x.IsModel a contract := by
  unfold functionOf at h
  simp only at h
  split at h
  · simp [bind_eq_ok] at h
  · simp only [callableOf, bind_eq_ok, pure_eq_ok] at h
    obtain ⟨ps, hps, rs, hrs, rfl⟩ := h
    refine ⟨rfl, rfl, rfl, .inl hk, fun _ => ⟨rfl, rfl⟩, fun hk' => ?_, hps, hrs, fun hl => ?_⟩
    · simp [hk] at hk'
    · exact Value.isText_or (Arena.isText_name hl n) rfl

theorem isModel_of_modifierOf {id : ContractId} {inInterface : Bool} (hk : a.kind n = .modifierDefinition)
    (h : modifierOf a n id inInterface = .ok x) : x.node = n ∧ x.IsModel a (some id) := by
  simp only [modifierOf, callableOf, bind_eq_ok, pure_eq_ok] at h
  obtain ⟨ps, hps, rs, hrs, rfl⟩ := h
  refine ⟨rfl, rfl, rfl, .inr hk, fun hk' => ?_, fun _ => ⟨rfl, rfl⟩, hps, hrs, fun hl => ?_⟩
  · simp [hk] at hk'
  · exact Arena.isText_name hl n

theorem map_node_parametersOf {list : Option NodeId} {isReturn : Bool} {ps : List Parameter}
    (h : parametersOf a list isReturn = .ok ps) :
    ps.map (·.node) = (list.map (a.items · "parameters")).getD [] := by
  unfold parametersOf at h
  split at h
  · obtain rfl := Except.ok.inj h
    rfl
  · next list =>
    rw [Outcome.map_of_filterMapM_eq_ok (g := (·.node)) (k := (·.1)) ?_ h]
    · rw [Option.map_some, Arena.items, ← List.zipIdx_map_fst 0 (a.entries list "parameters"),
        List.filterMap_map, List.zipIdx_map_fst]
      rfl
    · rintro ⟨entry, position⟩ o ho
      cases entry with
      | none =>
        obtain rfl := pure_eq_ok.1 ho
        rfl
      | some n =>
        obtain ⟨type, -, ho⟩ := bind_eq_ok.1 ho
        obtain rfl := pure_eq_ok.1 ho
        rfl

theorem nodup_entry (h : x.IsModel a contract) : ((x.parameters ++ x.returns).map (·.node)).Nodup := by
  have hlist (list : Option NodeId) : ((list.map (a.items · "parameters")).getD []).Nodup := by
    cases list with
    | none => exact List.nodup_nil
    | some list => exact a.nodup_items list _
  rw [List.map_append, map_node_parametersOf h.parameters, map_node_parametersOf h.returns]
  refine (hlist _).append (hlist _) fun n hn hn' => ?_
  cases hp : a.child? x.node "parameters" with
  | none => simp [hp] at hn
  | some list =>
    cases hr : a.child? x.node "returnParameters" with
    | none => simp [hr] at hn'
    | some list' =>
      rw [hp] at hn
      rw [hr] at hn'
      obtain rfl := Option.some.inj ((Arena.parent?_of_mem_items hn).1.symm.trans (Arena.parent?_of_mem_items hn').1)
      have hrole := (Arena.parent?_of_child? hp).2.symm.trans (Arena.parent?_of_child? hr).2
      simp at hrole

theorem invocations_eq_nil (h : x.isFunction = false) : x.invocations = [] := by
  unfold Callable.isFunction at h
  unfold Callable.invocations
  split at h
  · simp at h
  · rfl

structure Draft.IsModel (a : Arena) (n : NodeId) (id : ContractId) (members : List NodeId) (d : Draft) :
    Prop where
  node : d.contract.node = n
  functions : (d.functions.map (·.node)).Sublist members
  modifiers : (d.modifiers.map (·.node)).Sublist members
  isFunction : ∀ x ∈ d.functions, x.IsModel a (some id) ∧ x.isFunction = true
  isModifier : ∀ x ∈ d.modifiers, x.IsModel a (some id) ∧ x.isFunction = false
  name : d.contract.name = a.name n
  bases : d.contract.bases = (headOf a n).bases
  stateVariables : ∀ v ∈ d.contract.stateVariables, a.kind v.node = .variableDeclaration
  usings : a.isLegible = true → ∀ u ∈ d.contract.usings, u.library.isText = true ∧ u.typeName.isText = true

namespace Draft.IsModel

variable {id : ContractId} {members : List NodeId} {d d' : Draft} {m : NodeId}

theorem head (a : Arena) (n : NodeId) (id : ContractId) : Draft.IsModel a n id [] ⟨headOf a n, [], []⟩ where
  node := rfl
  functions := List.Sublist.refl _
  modifiers := List.Sublist.refl _
  isFunction := by simp
  isModifier := by simp
  name := rfl
  bases := rfl
  stateVariables := by simp [headOf]
  usings := by simp [headOf]

theorem skip (h : Draft.IsModel a n id members d) (m : NodeId) : Draft.IsModel a n id (members ++ [m]) d :=
  { h with
    functions := h.functions.trans (List.sublist_append_left _ _)
    modifiers := h.modifiers.trans (List.sublist_append_left _ _) }

theorem addFunction (h : Draft.IsModel a n id members d) {x : Callable} (hx : x.IsModel a (some id))
    (hnode : x.node = m) (hfun : x.isFunction = true) :
    Draft.IsModel a n id (members ++ [m]) { d with functions := d.functions ++ [x] } :=
  { h.skip m with
    functions := by
      rw [List.map_append, List.map_singleton, hnode]
      exact h.functions.append (List.Sublist.refl _)
    isFunction := List.forall_mem_append.2 ⟨h.isFunction, List.forall_mem_singleton.2 ⟨hx, hfun⟩⟩ }

theorem addModifier (h : Draft.IsModel a n id members d) {x : Callable} (hx : x.IsModel a (some id))
    (hnode : x.node = m) (hmod : x.isFunction = false) :
    Draft.IsModel a n id (members ++ [m]) { d with modifiers := d.modifiers ++ [x] } :=
  { h.skip m with
    modifiers := by
      rw [List.map_append, List.map_singleton, hnode]
      exact h.modifiers.append (List.Sublist.refl _)
    isModifier := List.forall_mem_append.2 ⟨h.isModifier, List.forall_mem_singleton.2 ⟨hx, hmod⟩⟩ }

theorem addUsing (h : Draft.IsModel a n id members d) {library type : Value}
    (hu : a.isLegible = true → library.isText = true ∧ type.isText = true) :
    Draft.IsModel a n id members
      { d with contract := { d.contract with usings := d.contract.usings ++ [⟨library, type⟩] } } :=
  { h with
    usings := fun hl => List.forall_mem_append.2 ⟨h.usings hl, List.forall_mem_singleton.2 (hu hl)⟩ }

theorem addMember (h : Draft.IsModel a n id members d) (hd : addMember a plan id d m = .ok d') :
    Draft.IsModel a n id (members ++ [m]) d' := by
  unfold Outline.addMember at hd
  split at hd
  · next hk =>
    obtain ⟨x, hx, rfl⟩ := by simpa only [bind_eq_ok, pure_eq_ok] using hd
    obtain ⟨hnode, hmodel⟩ := isModel_of_functionOf hk hx
    exact h.addFunction hmodel hnode (hmodel.function (hnode ▸ hk)).1
  · next hk =>
    obtain ⟨x, hx, rfl⟩ := by simpa only [bind_eq_ok, pure_eq_ok] using hd
    obtain ⟨hnode, hmodel⟩ := isModel_of_modifierOf hk hx
    exact h.addModifier hmodel hnode (hmodel.modifier (hnode ▸ hk)).1
  · next hk =>
    obtain ⟨v, hv, rfl⟩ := by simpa only [bind_eq_ok, pure_eq_ok] using hd
    obtain ⟨type, -, hv⟩ := bind_eq_ok.1 hv
    obtain rfl := pure_eq_ok.1 hv
    exact { h.skip m with
      stateVariables := List.forall_mem_append.2 ⟨h.stateVariables, List.forall_mem_singleton.2 hk⟩ }
  · obtain rfl := pure_eq_ok.1 hd
    exact { h.skip m with }
  · obtain rfl := pure_eq_ok.1 hd
    exact { h.skip m with }
  · obtain rfl := pure_eq_ok.1 hd
    exact { h.skip m with }
  · obtain rfl := pure_eq_ok.1 hd
    exact { h.skip m with }
  · have hlibrary (hl : a.isLegible = true) :
        (((a.child? m "libraryName").map fun l => (a.node l).pathName).getD "").isText = true := by
      cases a.child? m "libraryName" with
      | none => rfl
      | some l => exact Arena.isText_pathName hl l
    split at hd
    · obtain rfl := pure_eq_ok.1 hd
      exact (h.skip m).addUsing fun hl => ⟨hlibrary hl, rfl⟩
    · next t _ =>
      obtain ⟨type, htype, rfl⟩ := by simpa only [bind_eq_ok, pure_eq_ok] using hd
      refine (h.skip m).addUsing fun hl => ⟨hlibrary hl, ?_⟩
      obtain ⟨type', htype', htext⟩ := Arena.succeeds_typeNameText hl t
      obtain rfl := Except.ok.inj (htype.symm.trans htype')
      exact htext
  · obtain rfl := pure_eq_ok.1 hd
    exact h.skip m

end Draft.IsModel

theorem foldl_keeps {σ : Type} {P : List NodeId → σ → Prop} {step : σ → NodeId → σ} {start : σ} (h : P [] start)
    (hstep : ∀ members s m, P members s → P (members ++ [m]) (step s m)) (members : List NodeId) :
    P members (members.foldl step start) := by
  induction members using List.reverseRecOn with
  | nil => exact h
  | append_singleton members m ih =>
    rw [List.foldl_append]
    exact hstep members _ m ih

theorem isModel_contractOf (a : Arena) (plan : FailurePlan) (id : ContractId) (n : NodeId) :
    Draft.IsModel a n id (a.items n "nodes") (contractOf a plan id n).1 := by
  refine foldl_keeps (P := fun members (s : Draft × List Issue) => Draft.IsModel a n id members s.1)
    ?_ (fun members s m h => ?_) _
  · exact .head a n id
  dsimp only
  split
  · next d hd => exact h.addMember hd
  · exact h.skip m

structure Sheaf.IsModel (a : Arena) (tops : List NodeId) (s : Sheaf) : Prop where
  free : (s.free.map (·.node)).Sublist tops
  isFree : ∀ x ∈ s.free, x.IsModel a none ∧ x.isFunction = true
  drafts : (s.drafts.map (·.contract.node)).Sublist tops
  isDraft : ∀ id d, s.drafts[id]? = some d → a.kind d.contract.node = .contractDefinition ∧
    Draft.IsModel a d.contract.node id (a.items d.contract.node "nodes") d

theorem Sheaf.IsModel.collect {tops : List NodeId} {s : Sheaf} (h : Sheaf.IsModel a tops s) (n : NodeId) :
    Sheaf.IsModel a (tops ++ [n]) (collect a plan s n) := by
  have hskip : Sheaf.IsModel a (tops ++ [n]) s :=
    { h with
      free := h.free.trans (List.sublist_append_left _ _)
      drafts := h.drafts.trans (List.sublist_append_left _ _) }
  unfold Outline.collect
  split
  · next hk =>
    have hd := isModel_contractOf a plan s.drafts.length n
    revert hd
    generalize contractOf a plan s.drafts.length n = made
    obtain ⟨d, issues⟩ := made
    intro hd
    refine { hskip with drafts := ?_, isDraft := ?_ }
    · rw [List.map_append, List.map_singleton, hd.node]
      exact h.drafts.append (List.Sublist.refl _)
    · intro id d' hd'
      rw [List.getElem?_append] at hd'
      split at hd'
      · exact h.isDraft id d' hd'
      · next hle =>
        obtain ⟨hid, rfl⟩ : id = s.drafts.length ∧ d = d' := by
          rw [List.getElem?_singleton] at hd'
          split at hd'
          · next hzero =>
            exact ⟨Nat.le_antisymm (Nat.le_of_sub_eq_zero hzero) (Nat.le_of_not_lt hle), Option.some.inj hd'⟩
          · simp at hd'
        rw [hid, hd.node]
        exact ⟨hk, hd⟩
  · next hk =>
    split
    · next f hf =>
      obtain ⟨hnode, hmodel⟩ := isModel_of_functionOf hk hf
      have hk : a.kind f.node = .functionDefinition := hnode ▸ hk
      refine { hskip with free := ?_, isFree := ?_ }
      · rw [List.map_append, hnode]
        exact h.free.append (List.Sublist.refl _)
      · refine List.forall_mem_append.2 ⟨h.isFree, List.forall_mem_singleton.2 ⟨?_, (hmodel.function hk).1⟩⟩
        exact { hmodel with modifier := fun hk' => absurd (hk.symm.trans hk') (by decide) }
    · exact { hskip with }
  · exact hskip

theorem isModel_collect (a : Arena) (plan : FailurePlan) (tops : List NodeId) :
    Sheaf.IsModel a tops (tops.foldl (collect a plan) {}) :=
  foldl_keeps ⟨List.nil_sublist _, by simp, List.nil_sublist _, by simp⟩ (fun _ _ n h => h.collect n) tops

def draftCallables (drafts : List Draft) : List Callable :=
  drafts.flatMap fun d => d.functions ++ d.modifiers

theorem snd_place (next : CallableId) (drafts : List Draft) : (place next drafts).2 = draftCallables drafts := by
  induction drafts generalizing next with
  | nil => rfl
  | cons d rest ih => simp only [place, draftCallables, List.flatMap_cons, ih]

theorem exists_of_mem_range' {before xs after : List Callable} {f : CallableId}
    (hf : f ∈ List.range' before.length xs.length) :
    ∃ x, (before ++ xs ++ after)[f]? = some x ∧ x ∈ xs := by
  obtain ⟨hle, hlt⟩ := List.mem_range'_1.1 hf
  have hk : f - before.length < xs.length := Nat.sub_lt_left_of_lt_add hle hlt
  refine ⟨xs[f - before.length], ?_, List.getElem_mem hk⟩
  rw [List.append_assoc, List.getElem?_append_right hle, List.getElem?_append_left hk,
    List.getElem?_eq_getElem hk]

theorem getElem?_place {next : CallableId} {drafts : List Draft} (before : List Callable)
    (hnext : before.length = next) {id : ContractId} {d : Draft} (hd : drafts[id]? = some d) :
    ∃ functions modifiers,
      (place next drafts).1[id]? = some { d.contract with functions, modifiers } ∧
      (∀ f ∈ functions, ∃ x, (before ++ draftCallables drafts)[f]? = some x ∧ x ∈ d.functions) ∧
      ∀ f ∈ modifiers, ∃ x, (before ++ draftCallables drafts)[f]? = some x ∧ x ∈ d.modifiers := by
  induction drafts generalizing next before id with
  | nil => simp at hd
  | cons d' rest ih =>
    subst hnext
    have hall : before ++ draftCallables (d' :: rest)
        = before ++ d'.functions ++ d'.modifiers ++ draftCallables rest := by
      simp [draftCallables]
    rw [hall]
    cases id with
    | zero =>
      obtain rfl := Option.some.inj hd
      refine ⟨_, _, rfl, fun f hf => ?_, fun f hf => ?_⟩
      · rw [List.append_assoc _ d'.modifiers]
        exact exists_of_mem_range' hf
      · rw [← List.length_append] at hf
        exact exists_of_mem_range' hf
    | succ id =>
      obtain ⟨functions, modifiers, hget, hf, hm⟩ :=
        ih (before ++ d'.functions ++ d'.modifiers) (by rw [List.length_append, List.length_append]) hd
      exact ⟨functions, modifiers, hget, hf, hm⟩

theorem length_place (next : CallableId) (drafts : List Draft) : (place next drafts).1.length = drafts.length := by
  induction drafts generalizing next with
  | nil => rfl
  | cons d rest ih => simp only [place, List.length_cons, ih]

section OfArena

variable (a : Arena) (plan : FailurePlan)

def tops : List NodeId :=
  a.units.toList.flatMap fun unit => a.children unit.root

def sheafOf : Sheaf :=
  (tops a).foldl (collect a plan) {}

theorem isModel_sheafOf : Sheaf.IsModel a (tops a) (sheafOf a plan) :=
  isModel_collect a plan (tops a)

theorem callables_ofArena : (ofArena a plan).callables.toList
    = (sheafOf a plan).free ++ draftCallables (sheafOf a plan).drafts := by
  show ((sheafOf a plan).free ++ (place _ (sheafOf a plan).drafts).2).toArray.toList = _
  rw [snd_place]

theorem contracts_ofArena : (ofArena a plan).contracts.toList
    = (place (sheafOf a plan).free.length (sheafOf a plan).drafts).1 :=
  rfl

end OfArena

section Lookup

variable {o : Outline}

theorem callableD_of_getElem? (h : o.callables.toList[f]? = some x) : f < o.callables.size ∧ o.callableD f = x := by
  rw [Array.getElem?_toList] at h
  refine ⟨(Array.getElem?_eq_some_iff.1 h).1, ?_⟩
  rw [callableD, Array.getD_eq_getD_getElem?, h]
  rfl

theorem callableD_of_not_lt (h : ¬ f < o.callables.size) : o.callableD f = default := by
  rw [callableD, Array.getD_eq_getD_getElem?, Array.getElem?_eq_none (Nat.le_of_not_lt h)]
  rfl

theorem callableD_mem (h : f < o.callables.size) : o.callableD f ∈ o.callables.toList := by
  rw [callableD, Array.getD_eq_getD_getElem?, Array.getElem?_eq_getElem h]
  exact Array.mem_toList_iff.2 (Array.getElem_mem h)

theorem contractD_of_not_lt (h : ¬ c < o.contracts.size) : o.contractD c = default := by
  rw [contractD, Array.getD_eq_getD_getElem?, Array.getElem?_eq_none (Nat.le_of_not_lt h)]
  rfl

end Lookup

theorem exists_draft (a : Arena) (plan : FailurePlan) (hc : c < (ofArena a plan).contracts.size) :
    ∃ d, (sheafOf a plan).drafts[c]? = some d ∧
      (∃ functions modifiers, (ofArena a plan).contractD c = { d.contract with functions, modifiers }) ∧
      (∀ f ∈ ((ofArena a plan).contractD c).functions,
        f < (ofArena a plan).callables.size ∧ (ofArena a plan).callableD f ∈ d.functions) ∧
      ∀ f ∈ ((ofArena a plan).contractD c).modifiers,
        f < (ofArena a plan).callables.size ∧ (ofArena a plan).callableD f ∈ d.modifiers := by
  have hlen : c < (sheafOf a plan).drafts.length := by
    rw [← length_place (sheafOf a plan).free.length, ← contracts_ofArena]
    exact hc
  have hd := List.getElem?_eq_getElem hlen
  obtain ⟨functions, modifiers, hget, hf, hm⟩ :=
    getElem?_place (sheafOf a plan).free rfl hd
  rw [← callables_ofArena] at hf hm
  have hcontract : (ofArena a plan).contractD c
      = { (sheafOf a plan).drafts[c].contract with functions, modifiers } := by
    rw [contractD, Array.getD_eq_getD_getElem?, ← Array.getElem?_toList, contracts_ofArena, hget]
    rfl
  have hplace {f : CallableId} {xs : List Callable}
      (hx : ∃ x, (ofArena a plan).callables.toList[f]? = some x ∧ x ∈ xs) :
      f < (ofArena a plan).callables.size ∧ (ofArena a plan).callableD f ∈ xs := by
    obtain ⟨x, hx, hmem⟩ := hx
    obtain ⟨hlt, rfl⟩ := callableD_of_getElem? hx
    exact ⟨hlt, hmem⟩
  refine ⟨_, hd, ⟨functions, modifiers, hcontract⟩, ?_⟩
  rw [hcontract]
  exact ⟨fun f hf' => hplace (hf f hf'), fun f hm' => hplace (hm f hm')⟩

theorem contract_of_mem_callables (hf : f ∈ ((ofArena a plan).contractD c).callables) :
    f < (ofArena a plan).callables.size ∧ ((ofArena a plan).callableD f).contract = some c := by
  by_cases hc : c < (ofArena a plan).contracts.size
  · obtain ⟨d, hd, -, hfun, hmod⟩ := exists_draft a plan hc
    have hmodel := ((isModel_sheafOf a plan).isDraft c d hd).2
    rcases List.mem_append.1 hf with hf | hf
    · obtain ⟨hlt, hmem⟩ := hfun f hf
      exact ⟨hlt, (hmodel.isFunction _ hmem).1.contract⟩
    · obtain ⟨hlt, hmem⟩ := hmod f hf
      exact ⟨hlt, (hmodel.isModifier _ hmem).1.contract⟩
  · rw [contractD_of_not_lt hc] at hf
    simp [Contract.callables, default, instInhabitedContract.default] at hf

theorem nodup_callables_place {next : CallableId} {drafts : List Draft} {x : Contract}
    (hx : x ∈ (place next drafts).1) : x.callables.Nodup := by
  induction drafts generalizing next with
  | nil => cases hx
  | cons d rest ih =>
    rcases List.mem_cons.1 hx with rfl | hx
    · rw [Contract.callables, List.range'_append_1]
      exact List.nodup_range'
    · exact ih hx

theorem exists_mem_place {next k : Nat} {drafts : List Draft} (hk : k < (draftCallables drafts).length) :
    ∃ id : ContractId, ∃ x : Contract, (place next drafts).1[id]? = some x ∧ next + k ∈ x.callables := by
  induction drafts generalizing next k with
  | nil => simp [draftCallables] at hk
  | cons d rest ih =>
    by_cases hd : k < d.functions.length + d.modifiers.length
    · refine ⟨0, _, rfl, ?_⟩
      rw [Contract.callables, List.range'_append_1, List.mem_range'_1]
      omega
    · have hlength : (draftCallables (d :: rest)).length
          = d.functions.length + d.modifiers.length + (draftCallables rest).length := by
        simp [draftCallables, Nat.add_assoc]
      obtain ⟨id, x, hx, hmem⟩ := @ih (next + d.functions.length + d.modifiers.length)
        (k - (d.functions.length + d.modifiers.length)) (by omega)
      refine ⟨id + 1, x, hx, ?_⟩
      rwa [show next + k = next + d.functions.length + d.modifiers.length
        + (k - (d.functions.length + d.modifiers.length)) by omega]

theorem nodup_callables (a : Arena) (plan : FailurePlan) (c : ContractId) :
    ((ofArena a plan).contractD c).callables.Nodup := by
  by_cases hc : c < (ofArena a plan).contracts.size
  · have hmem : (ofArena a plan).contractD c ∈ (ofArena a plan).contracts.toList := by
      rw [contractD, Array.getD_eq_getD_getElem?, Array.getElem?_eq_getElem hc]
      exact Array.mem_toList_iff.2 (Array.getElem_mem hc)
    exact nodup_callables_place (contracts_ofArena a plan ▸ hmem)
  · rw [contractD_of_not_lt hc]
    exact List.nodup_nil

theorem mem_callables_of_contract (hf : ((ofArena a plan).callableD f).contract = some c) :
    f ∈ ((ofArena a plan).contractD c).callables := by
  have hlt : f < (ofArena a plan).callables.size := by
    by_contra hlt
    rw [callableD_of_not_lt hlt] at hf
    cases hf
  have hlength : (ofArena a plan).callables.size
      = (sheafOf a plan).free.length + (draftCallables (sheafOf a plan).drafts).length := by
    rw [← Array.length_toList, callables_ofArena, List.length_append]
  -- a free function is a part of no contract, so the place is behind those of the free functions
  have hle : (sheafOf a plan).free.length ≤ f := by
    by_contra hfree
    have hmem : (ofArena a plan).callableD f ∈ (sheafOf a plan).free := by
      have hget : (ofArena a plan).callables.toList[f]? = some (sheafOf a plan).free[f] := by
        rw [callables_ofArena, List.getElem?_append_left (Nat.lt_of_not_le hfree), List.getElem?_eq_getElem]
      rw [(callableD_of_getElem? hget).2]
      exact List.getElem_mem _
    rw [((isModel_sheafOf a plan).isFree _ hmem).1.contract] at hf
    cases hf
  have hlast : f - (sheafOf a plan).free.length < (draftCallables (sheafOf a plan).drafts).length :=
    Nat.sub_lt_left_of_lt_add hle (hlength ▸ hlt)
  obtain ⟨id, x, hx, hmem⟩ := @exists_mem_place (sheafOf a plan).free.length _ _ hlast
  rw [Nat.add_sub_cancel' hle] at hmem
  have hid : (ofArena a plan).contractD id = x := by
    rw [contractD, Array.getD_eq_getD_getElem?, ← Array.getElem?_toList, contracts_ofArena, hx]
    rfl
  obtain rfl : c = id := Option.some.inj (hf.symm.trans (contract_of_mem_callables (hid ▸ hmem)).2)
  exact hid ▸ hmem

theorem contractD_ofArena (hc : c < (ofArena a plan).contracts.size) :
    a.kind ((ofArena a plan).contractD c).node = .contractDefinition ∧
      ((ofArena a plan).contractD c).bases = (headOf a ((ofArena a plan).contractD c).node).bases ∧
      ∀ v ∈ ((ofArena a plan).contractD c).stateVariables, a.kind v.node = .variableDeclaration := by
  obtain ⟨d, hd, ⟨functions, modifiers, hcontract⟩, -, -⟩ := exists_draft a plan hc
  obtain ⟨hk, hmodel⟩ := (isModel_sheafOf a plan).isDraft c d hd
  rw [hcontract]
  exact ⟨hk, hmodel.bases, hmodel.stateVariables⟩

theorem exists_isModel_in (hf : f < (ofArena a plan).callables.size) :
    ∃ contract, ((ofArena a plan).callableD f).IsModel a contract ∧
      ∀ c, contract = some c → c < (ofArena a plan).contracts.size := by
  have hmem := callableD_mem hf
  rw [callables_ofArena, List.mem_append] at hmem
  rcases hmem with hmem | hmem
  · exact ⟨none, ((isModel_sheafOf a plan).isFree _ hmem).1, by simp⟩
  · obtain ⟨d, hd, hx⟩ := List.mem_flatMap.1 hmem
    obtain ⟨id, hid⟩ := List.mem_iff_getElem?.1 hd
    have hmodel := ((isModel_sheafOf a plan).isDraft id d hid).2
    have hsize : id < (ofArena a plan).contracts.size := by
      rw [← Array.length_toList, contracts_ofArena, length_place]
      exact (List.getElem?_eq_some_iff.1 hid).1
    refine ⟨some id, ?_, fun c hc => Option.some.inj hc ▸ hsize⟩
    rcases List.mem_append.1 hx with hx | hx
    · exact (hmodel.isFunction _ hx).1
    · exact (hmodel.isModifier _ hx).1

theorem exists_isModel (hf : f < (ofArena a plan).callables.size) :
    ∃ contract, ((ofArena a plan).callableD f).IsModel a contract :=
  let ⟨contract, hmodel, _⟩ := exists_isModel_in hf
  ⟨contract, hmodel⟩

theorem lt_size_of_contract (h : ((ofArena a plan).callableD f).contract = some c) :
    c < (ofArena a plan).contracts.size := by
  by_cases hf : f < (ofArena a plan).callables.size
  · obtain ⟨contract, hmodel, hlt⟩ := exists_isModel_in hf
    exact hlt c (hmodel.contract.symm.trans h)
  · rw [callableD_of_not_lt hf] at h
    cases h

structure IsLegible (o : Outline) : Prop where
  arena : o.arena.isLegible = true
  known : ∀ c, o.isKnown c = true
  keyed : ∀ f, (o.callableD f).hasKey = true
  names : ∀ f < o.callables.size, (o.callableD f).name.isText = true
  types : ∀ f, ∀ p ∈ (o.callableD f).parameters, p.typeName.isText = true
  usings : ∀ c, ∀ u ∈ (o.contractD c).usings, u.library.isText = true ∧ u.typeName.isText = true
  invocations : ∀ f, ∀ i ∈ (o.callableD f).invocations, i.name.isText = true

theorem isText_of_parametersOf {list : Option NodeId} {isReturn : Bool} {ps : List Parameter}
    (hl : a.isLegible = true) (h : parametersOf a list isReturn = .ok ps) :
    ∀ p ∈ ps, p.typeName.isText = true := by
  unfold parametersOf at h
  split at h
  · obtain rfl := Except.ok.inj h
    simp
  · intro p hp
    obtain ⟨⟨entry, position⟩, -, hentry⟩ := (Outcome.mem_of_filterMapM_eq_ok h p).1 hp
    dsimp only at hentry
    split at hentry
    · simp [pure, Except.pure] at hentry
    · next n =>
      simp only [bind_eq_ok, pure_eq_ok, Option.some.injEq] at hentry
      obtain ⟨type, htype, rfl⟩ := hentry
      obtain ⟨type', htype', htext⟩ := Arena.succeeds_declaredType hl n
      obtain rfl := Except.ok.inj (htype.symm.trans htype')
      exact htext

theorem isText_of_mem_invocationsOf {i : Invocation} (hl : a.isLegible = true)
    (hi : i ∈ invocationsOf a n) : i.name.isText = true := by
  obtain ⟨m, -, rfl⟩ := List.mem_map.1 hi
  cases a.child? m "modifierName" with
  | none => rfl
  | some c => exact Arena.isText_pathName hl c

theorem isText_contractName (hl : a.isLegible = true) (hc : c < (ofArena a plan).contracts.size) :
    ((ofArena a plan).contractD c).name.isText = true := by
  obtain ⟨d, hd, ⟨functions, modifiers, hcontract⟩, -⟩ := exists_draft a plan hc
  have hname := ((isModel_sheafOf a plan).isDraft c d hd).2.name
  rw [hcontract]
  exact hname ▸ Arena.isText_name hl _

theorem isLegible_ofArena (plan : FailurePlan) (hl : a.isLegible = true) : (ofArena a plan).IsLegible := by
  have hmodel (f : CallableId) :
      (ofArena a plan).callableD f = default ∨
        ∃ contract, ((ofArena a plan).callableD f).IsModel a contract := by
    by_cases hf : f < (ofArena a plan).callables.size
    · exact .inr (exists_isModel hf)
    · exact .inl (callableD_of_not_lt hf)
  have htypes (f : CallableId) : ∀ p ∈ ((ofArena a plan).callableD f).parameters,
      p.typeName.isText = true := by
    rcases hmodel f with hf | ⟨contract, hf⟩
    · rw [hf]
      simp [default, instInhabitedCallable.default]
    · exact isText_of_parametersOf hl hf.parameters
  refine ⟨hl, fun c => ?_, fun f => ?_, fun f hf => ?_, htypes, fun c => ?_, fun f => ?_⟩
  · by_cases hc : c < (ofArena a plan).contracts.size
    · exact Value.isKey_of_isText (isText_contractName hl hc)
    · rw [isKnown, contractD_of_not_lt hc]
      rfl
  · have hkeys : ((ofArena a plan).callableD f).parameters.all (·.typeName.isKey) = true :=
      List.all_eq_true.2 fun p hp => Value.isKey_of_isText (htypes f p hp)
    rw [Callable.hasKey, hkeys, Bool.and_true]
    rcases hmodel f with hf | ⟨contract, hf⟩
    · rw [hf]
      rfl
    · exact Value.isKey_of_isText (hf.name hl)
  · obtain ⟨contract, hf⟩ := exists_isModel hf
    exact hf.name hl
  · by_cases hc : c < (ofArena a plan).contracts.size
    · obtain ⟨d, hd, ⟨functions, modifiers, hcontract⟩, -⟩ := exists_draft a plan hc
      rw [hcontract]
      exact ((isModel_sheafOf a plan).isDraft c d hd).2.usings hl
    · rw [contractD_of_not_lt hc]
      simp [default, instInhabitedContract.default]
  · rcases hmodel f with hf | ⟨contract, hf⟩
    · rw [hf]
      simp [default, instInhabitedCallable.default, Callable.invocations, instInhabitedCallableForm.default]
    · rcases hf.definition with hk | hk
      · rw [(hf.function hk).2]
        exact fun i hi => isText_of_mem_invocationsOf hl hi
      · rw [invocations_eq_nil (hf.modifier hk).1]
        simp

end Outline

end ContractFlow
