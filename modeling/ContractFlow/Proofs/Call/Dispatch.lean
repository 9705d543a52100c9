import ContractFlow.Proofs.Call.Edge
import ContractFlow.Proofs.Control.Program

/-! This module shows that no callable is missed when a call is bound. -/

namespace ContractFlow

open Outcome (Succeeds bind_eq_ok pure_eq_ok)

namespace Lineage

variable {l : Lineage} {f : CallableId} {targets : List CallableId} {site : NodeId}

theorem accepts_eq {g : CallableId} (h : l.parameterTypes g = l.parameterTypes f) (types : List Value)
    (offset : Nat) : l.accepts types offset g = l.accepts types offset f := by
  have hdrop : ((l.callableD g).parameters.drop offset).map (·.typeName)
      = ((l.callableD f).parameters.drop offset).map (·.typeName) := by
    rw [List.map_drop, List.map_drop]
    exact congrArg (List.drop offset) h
  rw [accepts, hdrop, accepts]

theorem filterM_of_const {p : CallableId → Except Fault Bool} {b : Bool} (h : ∀ g ∈ targets, p g = .ok b) :
    targets.filterM p = .ok (if b then targets else []) := by
  induction targets with
  | nil => cases b <;> rfl
  | cons g targets ih =>
    obtain ⟨hg, htargets⟩ := List.forall_mem_cons.1 h
    rw [Outcome.filterM_cons, hg, ih htargets]
    cases b <;> rfl

theorem fitting_eq (h : l.IsLegible) (site : NodeId) (offset : Nat)
    (htypes : ∀ g ∈ targets, l.parameterTypes g = l.parameterTypes f) :
    l.fitting targets site offset = .ok targets := by
  unfold fitting
  split
  · rfl
  · obtain ⟨types, htexts, htext⟩ : Succeeds ((l.arena.callArguments site).mapM l.typeOf) fun types =>
        ∀ t ∈ types, t.isText = true := .mapM fun n _ => Program.succeeds_typeOf h.arena n
    obtain ⟨b, hb, -⟩ := succeeds_accepts h htext offset f
    have hall : ∀ g ∈ targets, l.accepts types offset g = .ok b := by
      intro g hg
      rw [accepts_eq (htypes g hg), hb]
    refine bind_eq_ok.2 ⟨types, htexts, bind_eq_ok.2 ⟨_, filterM_of_const hall, ?_⟩⟩
    cases b with
    | false => rfl
    | true => cases targets <;> rfl

theorem answers_edgesTo_eq (h : l.IsLegible) (site : NodeId) (context : Option ContractId)
    (binding : CallableId → Binding) (offset : Nat) (hf : f ∈ targets)
    (htypes : ∀ g ∈ targets, l.parameterTypes g = l.parameterTypes f) :
    (l.edgesTo site context targets binding offset).Answers
      (· = targets.map fun g => ⟨site, l.owner? site, some g, binding g, context, offset⟩) := by
  refine .bind_ok (fitting_eq h site offset htypes) ?_
  rw [if_neg (by simpa using List.ne_nil_of_mem hf)]
  exact .pure rfl

theorem answers_edgesTo_mem (h : l.IsLegible) (site : NodeId) (context : Option ContractId)
    (binding : CallableId → Binding) (offset : Nat) (hf : f ∈ targets)
    (htypes : ∀ g ∈ targets, l.parameterTypes g = l.parameterTypes f) :
    (l.edgesTo site context targets binding offset).Answers
      fun edges => ∃ e ∈ edges, e.callee = some f ∧ e.binding = binding f := by
  obtain ⟨_, hedges, rfl⟩ := answers_edgesTo_eq h site context binding offset hf htypes
  exact ⟨_, hedges, _, List.mem_map_of_mem hf, rfl, rfl⟩

theorem exists_mem_combine {edges : List CallEdge} {e : CallEdge} (he : e ∈ edges)
    (hresolved : e.isUnresolved = false) : ∃ e' ∈ combine edges, e'.callee = e.callee := by
  have hkept (es kept : List CallEdge) (hes : e ∈ es ∨ ∃ k ∈ kept, k.key = e.key) :
      ∃ k ∈ es.foldl (fun kept e => if kept.any fun k => k.key == e.key then kept else kept ++ [e]) kept,
        k.key = e.key := by
    induction es generalizing kept with
    | nil => simpa using hes
    | cons x es ih =>
      rw [List.foldl_cons]
      refine ih _ ?_
      rcases hes with hes | ⟨k, hk, hkey⟩
      · rcases List.mem_cons.1 hes with rfl | hes
        · refine .inr ?_
          split
          · next hany => simpa using hany
          · exact ⟨e, by simp, rfl⟩
        · exact .inl hes
      · refine .inr ⟨k, ?_, hkey⟩
        split
        · exact hk
        · exact List.mem_append_left _ hk
  obtain ⟨k, hk, hkey⟩ := hkept edges [] (.inl he)
  simp only [CallEdge.key, Prod.mk.injEq] at hkey
  have hmem : k ∈ (edges.foldl (fun kept e =>
      if kept.any fun k => k.key == e.key then kept else kept ++ [e]) []).filter fun e => !e.isUnresolved := by
    refine List.mem_filter.2 ⟨hk, ?_⟩
    rw [CallEdge.isUnresolved, hkey.2.1]
    simpa [CallEdge.isUnresolved] using hresolved
  refine ⟨k, ?_, hkey.1⟩
  unfold combine
  simp only
  split
  · next heq =>
    rw [heq] at hmem
    simp at hmem
  · exact hmem

/--
A call in `home` of the function `name`: by its plain name, or as a member of `super`, where the contracts behind `home`
count.
-/
inductive CallsFunction (l : Lineage) (site : NodeId) (home : ContractId) (name : String) :
    Option ContractId → Prop
  | plain {callee : NodeId} (hcallee : l.arena.callee? site = some callee)
      (hkind : l.arena.kind callee = .identifier) (hname : l.arena.text callee = .text name)
      (hvariable : ∀ d, l.declaration? callee = some d → l.arena.kind d ≠ .variableDeclaration)
      (hfree : ∀ d, l.declaration? callee = some d → ∀ f, l.callableAt? d = some f →
        (l.callableD f).kind ≠ .freeFunction) : CallsFunction l site home name none
  | super {callee base : NodeId} (hcallee : l.arena.callee? site = some callee)
      (hkind : l.arena.kind callee = .memberAccess) (hname : l.arena.text callee = .text name)
      (hbase : l.arena.child? callee "expression" = some base)
      (hidentifier : l.arena.kind base = .identifier) (hsuper : l.arena.text base = .text "super") :
      CallsFunction l site home name (some home)

section Resolve

variable {home context : ContractId} {name : String} {after : Option ContractId}

theorem plainBinding_ne_unresolved (home : Option ContractId) (f : CallableId) :
    l.plainBinding home f ≠ .unresolved := by
  unfold plainBinding
  split
  · simp
  · split <;> simp

theorem answers_edgesByName_mem (h : l.IsLegible) (hlibrary : (l.contractD home).isLibrary = false)
    (hf : f ∈ l.targetsFor context (.text name) (l.arena.callArguments site).length none)
    (htypes : ∀ g ∈ l.targetsFor context (.text name) (l.arena.callArguments site).length none,
      l.parameterTypes g = l.parameterTypes f) :
    (l.edgesByName site (.text name) (some home) (some context)).Answers
      fun edges => ∃ e ∈ edges, e.callee = some f ∧ e.binding ≠ .unresolved := by
  unfold edgesByName
  simp only [Option.any_some, hlibrary]
  refine .bind (answers_callTargets h _ _ _ _) fun targets htargets => ?_
  subst htargets
  rw [if_pos (by simpa using List.ne_nil_of_mem hf)]
  obtain ⟨edges, hedges, e, he, hcallee, hbinding⟩ := answers_edgesTo_mem h site (some context)
    (l.plainBinding (some home)) 0 hf htypes
  exact ⟨edges, hedges, e, he, hcallee, hbinding ▸ plainBinding_ne_unresolved _ _⟩

theorem answers_resolveIn_super {P : List CallEdge → Prop} (h : l.IsLegible)
    (hkind : (l.classify site).outcome = .ok .function) (hhome : l.home site = .ok (some home))
    (hcall : l.CallsFunction site home name (some home))
    (hedges : (l.edgesTo site (some context) (l.targetsFor context (.text name)
      (l.arena.callArguments site).length (some home)) (fun _ => .super) 0).Answers P) :
    (l.resolveIn site (some context)).Answers P := by
  cases hcall with
  | @super callee base hcallee hmember hname hbase hidentifier hsuper =>
    refine .bind_ok hkind (.bind_ok hhome ?_)
    simp only [hcallee, hmember]
    unfold resolveMember
    simp only [hbase, hidentifier, hsuper, hname]
    refine .bind (answers_callTargets h _ _ _ _) fun targets htargets => ?_
    rw [htargets]
    exact hedges

theorem answers_resolveIn_mem (h : l.IsLegible) (hkind : (l.classify site).outcome = .ok .function)
    (hhome : l.home site = .ok (some home)) (hlibrary : (l.contractD home).isLibrary = false)
    (hcall : l.CallsFunction site home name after)
    (hf : f ∈ l.targetsFor context (.text name) (l.arena.callArguments site).length after)
    (htypes : ∀ g ∈ l.targetsFor context (.text name) (l.arena.callArguments site).length after,
      l.parameterTypes g = l.parameterTypes f) :
    (l.resolveIn site (some context)).Answers
      fun edges => ∃ e ∈ edges, e.callee = some f ∧ e.binding ≠ .unresolved := by
  cases hcall with
  | @plain callee hcallee hidentifier hname hvariable hfree =>
    refine .bind_ok hkind (.bind_ok hhome ?_)
    have hbyName := answers_edgesByName_mem h hlibrary hf htypes
    simp only [hcallee, hidentifier]
    rw [resolveName_eq, hname]
    obtain ⟨decl, hdecl, -⟩ := Program.succeeds_lookUp h.arena callee
    have hdeclaration : l.declaration? callee = decl := by rw [Program.declaration?, hdecl]
    refine .bind_ok hdecl ?_
    cases decl with
    | none => exact hbyName
    | some d =>
      dsimp only
      split
      · next hk => exact absurd hk (hvariable d hdeclaration)
      · split
        · next f hfilter =>
          obtain ⟨hat, hk⟩ := Option.filter_eq_some_iff.1 hfilter
          exact absurd (by simpa using hk) (hfree d hdeclaration f hat)
        · exact hbyName
      · exact hbyName
  | super hcallee hmember hname hbase hidentifier hsuper =>
    apply answers_resolveIn_super h hkind hhome (.super hcallee hmember hname hbase hidentifier hsuper)
    obtain ⟨edges, hedges, e, he, hcallee, hbinding⟩ := answers_edgesTo_mem h site (some context)
      (fun _ => .super) 0 hf htypes
    exact ⟨edges, hedges, e, he, hcallee, by simp [hbinding]⟩

theorem isCallTarget_of_isPlainFunction (hf : l.isPlainFunction f = true) :
    (l.callableD f).kind.isCallTarget = true := by
  unfold isPlainFunction at hf
  cases hk : (l.callableD f).kind <;> simp_all [CallableKind.isCallTarget]

theorem answers_resolve_mem (h : l.IsLegible) (hmerges : l.MergesAll) (hmembers : l.KnowsMembers)
    (hsep : l.SeparatesModifiers) (hsite : l.arena.kind site = .functionCall)
    (hkind : (l.classify site).outcome = .ok .function) (hhome : l.home site = .ok (some home))
    (hlibrary : (l.contractD home).isLibrary = false) (hcall : l.CallsFunction site home name after)
    (hcontext : context ∈ l.derived home)
    (hfirst : (l.definitionsOf context (.text name) (l.arena.callArguments site).length after).head? = some f)
    (htypes : ∀ g ∈ l.definitionsOf context (.text name) (l.arena.callArguments site).length after,
      l.parameterTypes g = l.parameterTypes f) :
    (l.resolve true site).Answers fun edges => ∃ e ∈ edges, e.callee = some f := by
  obtain ⟨hid, horder⟩ := List.mem_filter.1 hcontext
  have hsize : context < l.contracts.size := List.mem_range.1 hid
  have hafter : ∀ s, after = some s → s ∈ l.order context := by
    rintro s rfl
    cases hcall
    simpa using horder
  have hmodifiers := hsep.namesNoModifier hmembers (List.mem_of_head? hfirst)
  obtain ⟨hcandidate, hsame⟩ := mem_candidates hmerges hmembers hmodifiers hsize hafter hfirst htypes
  have hplain := isPlainFunction_of_mem_definitionsOf (List.mem_of_head? hfirst)
  have hf : f ∈ l.targetsFor context (.text name) (l.arena.callArguments site).length after :=
    List.mem_filter.2 ⟨hcandidate, isCallTarget_of_isPlainFunction hplain⟩
  obtain ⟨edges, hedges, e, he, hcallee, hbinding⟩ :=
    answers_resolveIn_mem h hkind hhome hlibrary hcall hf fun g hg => hsame g (List.mem_of_mem_filter hg)
  unfold resolve
  rw [if_neg (by simp [hsite])]
  have hcontexts : (l.contexts true site).Answers (some context ∈ ·) := by
    refine .bind_ok hhome (.bind (answers_answer h _ _) fun derived hderived => .pure ?_)
    subst hderived
    by_cases heq : context = home
    · rw [heq]
      exact List.mem_cons_self
    · refine List.mem_cons_of_mem _ (List.mem_map_of_mem (List.mem_filter.2 ⟨hcontext, by simpa using heq⟩))
  refine .bind hcontexts fun contexts hmem => ?_
  obtain ⟨all, hall, -⟩ : (contexts.mapM (l.resolveIn site)).Answers :=
    (Query.Answers.mapM (Q := fun _ => True) fun c _ => (hasEdges_resolveIn coversTargets_true c).answers h).trivial
  refine .bind_ok hall ?_
  have hin : e ∈ all.flatten := (Query.mem_flatten_iff hall).2 ⟨_, hmem, edges, hedges, he⟩
  obtain ⟨e', he', heq⟩ := exists_mem_combine hin (by simpa [CallEdge.isUnresolved] using hbinding)
  exact .pure ⟨e', he', heq.trans hcallee⟩

end Resolve

end Lineage

/--
Whatever contract a call runs in, the first function of its name and arity there is found, if all of them have the same
parameters.
-/
theorem Session.callees_cover_dispatch (a : Arena) (plan : FailurePlan) (settings : Settings)
    (hlegible : a.isLegible = true) (hvirtual : settings.virtualDispatch = true)
    (hmerges : (analyse a plan settings).MergesAll) (hsep : (analyse a plan settings).SeparatesModifiers)
    {site : NodeId} {home context : ContractId} {name : String} {after : Option ContractId} {f : CallableId}
    (hsite : a.kind site = .functionCall)
    (hkind : ((analyse a plan settings).callKind site).outcome = .ok .function)
    (hhome : (analyse a plan settings).home site = .ok (some home))
    (hlibrary : ((analyse a plan settings).contractD home).isLibrary = false)
    (hcall : (analyse a plan settings).CallsFunction site home name after)
    (hcontext : context ∈ (analyse a plan settings).derived home)
    (hfirst : ((analyse a plan settings).definitionsOf context (.text name) (a.callArguments site).length
      after).head? = some f)
    (htypes : ∀ g ∈ (analyse a plan settings).definitionsOf context (.text name)
      (a.callArguments site).length after,
      (analyse a plan settings).parameterTypes g = (analyse a plan settings).parameterTypes f) :
    ∃ callees, ((analyse a plan settings).callees site).outcome = .ok callees ∧ f ∈ callees := by
  have hmembers : (analyse a plan settings).KnowsMembers :=
    fun c g hg => Outline.contract_of_mem_callables hg
  have hlegible' : (analyse a plan settings).IsLegible := Outline.isLegible_ofArena plan hlegible
  have hclassify : ((analyse a plan settings).classify site).outcome = .ok .function := by
    rw [← hkind, Linkage.callKind, Memo.get_eq]
  obtain ⟨edges, hedges, e, he, hcallee⟩ := Lineage.answers_resolve_mem hlegible' hmerges hmembers hsep hsite
    hclassify hhome hlibrary hcall hcontext hfirst htypes
  have hbound : ((analyse a plan settings).edges site).outcome = .ok edges := by
    rw [← hedges, ← hvirtual, Linkage.edges, Memo.get_eq]
    rfl
  refine ⟨edges.filterMap (·.callee), ?_, List.mem_filterMap.2 ⟨e, he, hcallee⟩⟩
  exact Query.outcome_bind_eq_ok.2 ⟨edges, hbound, rfl⟩

/-! A contract `A` with functions `f` and `g`, where `g` calls `f`, and a contract `B` below it with its own `f`. -/

namespace OverrideSample

open Sample

def nodes : Array Node := #[
  unit [1, 9],
  contract "A" [] [2, 4],
  bodied .functionDefinition 1 3 "f",
  block 2 [],
  bodied .functionDefinition 1 5 "g",
  block 4 [6],
  statement 5 7,
  call 6 8 [],
  identifier 7 "expression" "f",
  contract "B" [10] [12],
  base 9 11,
  basePath 10 "A",
  bodied .functionDefinition 9 13 "f",
  block 12 []]

def arena : Arena :=
  arenaOf nodes (by decide +kernel)

def analysis : FlowGraph :=
  Session.analyse arena {} {}

theorem mergesAll : analysis.MergesAll where
  acyclic := by decide +kernel
  merged := by decide +kernel

theorem separatesModifiers : analysis.SeparatesModifiers := by
  unfold Lineage.SeparatesModifiers
  decide +kernel

theorem callsFunction : analysis.CallsFunction 7 0 "f" none := by
  have hdeclaration : analysis.declaration? 8 = some 2 := by decide +kernel
  have hcallable : analysis.callableAt? 2 = some 0 := by decide +kernel
  have hcallee : analysis.arena.callee? 7 = some 8 := by decide +kernel
  refine .plain hcallee rfl rfl (fun d hd => ?_) (fun d hd f hf => ?_)
  · obtain rfl : 2 = d := Option.some.inj (hdeclaration.symm.trans hd)
    decide
  · obtain rfl : 2 = d := Option.some.inj (hdeclaration.symm.trans hd)
    obtain rfl : 0 = f := Option.some.inj (hcallable.symm.trans hf)
    decide +kernel

theorem parameterTypes_eq {g : CallableId} (hg : g ∈ [2, 0]) : analysis.parameterTypes g = [] := by
  rcases List.mem_pair.1 hg with rfl | rfl <;> exact List.isEmpty_iff.1 (by decide +kernel)

end OverrideSample

/-- In `B` the call in `g` runs the `f` of `B`, which is found although `A` has its own. -/
theorem Session.callees_cover_dispatch_sample :
    (OverrideSample.analysis.definitionsOf 1 (.text "f") 0 none) = [2, 0] ∧
    ∃ callees, (OverrideSample.analysis.callees 7).outcome = .ok callees ∧ 2 ∈ callees := by
  have hdefinitions : OverrideSample.analysis.definitionsOf 1 (.text "f") 0 none = [2, 0] := by
    decide +kernel
  have hhome : OverrideSample.analysis.home 7 = .ok (some 0) := by decide +kernel
  have hcontext : 1 ∈ OverrideSample.analysis.derived 0 := by decide +kernel
  refine ⟨hdefinitions, Session.callees_cover_dispatch OverrideSample.arena {} {} (by decide +kernel) rfl
    OverrideSample.mergesAll OverrideSample.separatesModifiers rfl (by decide +kernel)
    hhome (by decide +kernel) OverrideSample.callsFunction hcontext (congrArg List.head? hdefinitions) fun g hg => ?_⟩
  have hsame := OverrideSample.parameterTypes_eq (hdefinitions ▸ hg)
  exact hsame.trans (OverrideSample.parameterTypes_eq List.mem_cons_self).symm

end ContractFlow
