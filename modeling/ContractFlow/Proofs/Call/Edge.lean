import ContractFlow.Proofs.Call.Answer
import ContractFlow.Proofs.Lineage.Dispatch

/-! This module shows where the edges of the call graph start and end. -/

namespace ContractFlow

open Outcome (bind_eq_ok pure_eq_ok)

namespace Lineage

structure CoversTargets (l : Lineage) (P : CallableId → Prop) : Prop where
  members : ∀ c, ∀ f ∈ l.members c, P f
  free : ∀ f ∈ l.free, P f
  declared : ∀ n f, l.callableAt? n = some f → P f

structure IsEdge (site : NodeId) (P : CallableId → Prop) (e : CallEdge) : Prop where
  site : e.site = site
  callee : ∀ f, e.callee = some f → P f

def HasEdges (l : Lineage) (site : NodeId) (P : CallableId → Prop) (q : Query (List CallEdge)) : Prop :=
  q.Settles l.IsLegible fun es => ∀ e ∈ es, IsEdge site P e

variable {l : Lineage} {site : NodeId} {P : CallableId → Prop}

theorem hasEdges_edgesTo {targets : List CallableId} (htargets : ∀ f ∈ targets, P f) (context : Option ContractId)
    (binding : CallableId → Binding) (offset : Nat) :
    l.HasEdges site P (l.edgesTo site context targets binding offset) := by
  refine .bind (fun h => .liftM (succeeds_fitting h targets site offset)) fun found hfound => ?_
  have hsub : ∀ f ∈ found, f ∈ targets := by
    replace hfound : l.fitting targets site offset = .ok found := hfound
    unfold fitting at hfound
    split at hfound
    · rw [← pure_eq_ok.1 hfound]
      exact fun f hf => hf
    · simp only [bind_eq_ok, pure_eq_ok] at hfound
      obtain ⟨types, -, matching, hmatching, rfl⟩ := hfound
      split
      · exact fun f hf => hf
      · exact fun f hf => ((Outcome.mem_of_filterM_eq_ok hmatching f).1 hf).1
  split
  · exact .pure (List.forall_mem_singleton.2 ⟨rfl, by simp [unresolvedEdge]⟩)
  · refine .pure fun e he => ?_
    obtain ⟨f, hf, rfl⟩ := List.mem_map.1 he
    refine ⟨rfl, fun g hg => ?_⟩
    rw [← Option.some.inj hg]
    exact htargets f (hsub f hf)

theorem hasEdges_unresolved (context : Option ContractId) : l.HasEdges site P (pure [l.unresolvedEdge site context]) :=
  .pure (List.forall_mem_singleton.2 ⟨rfl, by simp [unresolvedEdge]⟩)

section Targets

variable (hP : l.CoversTargets P)

include hP

theorem gives_callTargets (c : ContractId) (name : Value) (arity : Nat) (after : Option ContractId) :
    (l.callTargets c name arity after).Gives fun fs => ∀ f ∈ fs, P f := by
  refine .bind fun found hfound => .pure fun f hf => ?_
  have hcandidate : f ∈ l.candidates c ⟨name, some arity, none⟩ after := by
    simp only [candidatesFor, answer, Query.outcome_bind_eq_ok] at hfound
    obtain ⟨-, -, -, -, -, -, hfound⟩ := hfound
    rw [Except.ok.inj hfound]
    exact List.mem_of_mem_filter hf
  obtain ⟨definitions, hdefinitions, hf⟩ := List.mem_flatMap.1 hcandidate
  obtain ⟨group, hgroup, rfl⟩ := List.mem_map.1 hdefinitions
  have hpair := mem_of_mem_groupPairs (List.mem_flatMap.2 ⟨group, hgroup, mem_of_mem_preferred hf⟩)
  rw [List.map_map, List.mem_map] at hpair
  obtain ⟨g, hg, rfl⟩ := hpair
  obtain ⟨d, -, hd⟩ := List.mem_flatMap.1 (List.mem_of_mem_filter hg)
  exact hP.members d g hd

theorem covers_functionsNamed {c : ContractId} {name : Value} {f : CallableId} (hf : f ∈ l.functionsNamed c name) :
    P f :=
  hP.members c f (List.mem_append_left _ (List.mem_of_mem_filter hf))

theorem gives_boundFunctions (member : Value) : (l.boundFunctions site member).Gives fun fs => ∀ f ∈ fs, P f := by
  refine .bind fun home _ => ?_
  split
  · exact .pure (by simp)
  · refine .bind fun base _ => .bind fun order _ => .bind fun bound hbound => .pure fun f hf => ?_
    obtain ⟨directive, -, fs, hdirective, hf⟩ :=
      (Outcome.mem_flatten_of_mapM_eq_ok hbound).1 (mem_distinct_iff.1 hf)
    simp only [boundBy, bind_eq_ok] at hdirective
    obtain ⟨library, -, hdirective⟩ := hdirective
    split at hdirective
    · rw [← pure_eq_ok.1 hdirective] at hf
      cases hf
    · simp only [bind_eq_ok] at hdirective
      obtain ⟨about, -, hdirective⟩ := hdirective
      split at hdirective
      · exact covers_functionsNamed hP ((Outcome.mem_of_filterM_eq_ok hdirective f).1 hf).1
      · rw [← pure_eq_ok.1 hdirective] at hf
        cases hf

theorem hasEdges_resolveName (callee : NodeId) (home context : Option ContractId) :
    l.HasEdges site P (l.resolveName site callee home context) := by
  have hname : l.HasEdges site P (l.edgesByName site (l.arena.text callee) home context) := by
    have hrest (targets : List CallableId) (htargets : ∀ f ∈ targets, P f) :
        l.HasEdges site P (if !targets.isEmpty then l.edgesTo site context targets (l.plainBinding home) 0
          else l.edgesTo site context (l.free.filter fun f => (l.callableD f).name == l.arena.text callee &&
            (l.callableD f).arity == (l.arena.callArguments site).length) (fun _ => .internal) 0) := by
      split
      · exact hasEdges_edgesTo htargets _ _ _
      · exact hasEdges_edgesTo (fun f hf => hP.free f (List.mem_of_mem_filter hf)) _ _ _
    unfold edgesByName
    dsimp only
    split
    · exact hrest [] (by simp)
    · exact .bind (answers_callTargets · _ _ _ _) fun targets htargets =>
        hrest targets (gives_callTargets hP _ _ _ _ targets htargets)
  refine .bind (fun h => .liftM (Program.succeeds_lookUp h.arena callee)) fun decl _ => ?_
  split
  · exact hname
  · split
    · exact hasEdges_unresolved _
    · split
      · next f hf =>
        have hf := hP.declared _ f (Option.filter_eq_some_iff.1 hf).1
        exact hasEdges_edgesTo (List.forall_mem_singleton.2 hf) _ _ _
      · exact hname
    · exact hname

theorem hasEdges_callTargets {c : ContractId} {name : Value} {arity : Nat} {after context : Option ContractId}
    {binding : CallableId → Binding} {offset : Nat} (keep : List CallableId → List CallableId)
    (hkeep : ∀ fs, keep fs ⊆ fs) : l.HasEdges site P (do
      l.edgesTo site context (keep (← l.callTargets c name arity after)) binding offset) := by
  refine .bind (answers_callTargets · _ _ _ _) fun targets htargets => hasEdges_edgesTo (fun f hf => ?_) _ _ _
  exact gives_callTargets hP _ _ _ _ targets htargets f (hkeep targets hf)

theorem hasEdges_resolveStatic (member : Value) (c : ContractId) (home context : Option ContractId) :
    l.HasEdges site P (l.resolveStatic site member c home context) := by
  unfold resolveStatic
  split
  · exact hasEdges_edgesTo (fun f hf => covers_functionsNamed hP (List.mem_of_mem_filter hf)) _ _ _
  · split
    · exact hasEdges_unresolved _
    · refine .bind (answers_answer · _ _) fun _ _ => ?_
      split
      · exact hasEdges_callTargets hP id fun _ => List.Subset.refl _
      · exact hasEdges_unresolved _

theorem hasEdges_resolveValue (base : NodeId) (member : Value) (context : Option ContractId) :
    l.HasEdges site P (l.resolveValue site base member context) := by
  refine .bind (answers_boundFunctions · site member) fun bound hbound => ?_
  split
  · exact hasEdges_edgesTo (gives_boundFunctions hP member bound hbound) _ _ _
  · refine .bind (fun h => .liftM (succeeds_contractOfType h base)) fun found _ => ?_
    split
    · exact hasEdges_unresolved _
    · refine .bind (fun h => .liftM (succeeds_isFromParameter h base)) fun _ _ => ?_
      refine .bind (answers_implementers · _) fun _ _ => ?_
      refine .bind (fun h => .mapM fun d _ => (answers_callTargets h _ _ _ _).trivial) fun targets htargets => ?_
      refine hasEdges_edgesTo (fun f hf => ?_) _ _ _
      obtain ⟨d, -, fs, hd, hf⟩ :=
        (Query.mem_flatten_iff htargets).1 (List.mem_of_mem_filter (mem_distinct_iff.1 hf))
      exact gives_callTargets hP _ _ _ _ fs hd f hf

theorem hasEdges_resolveMember (callee : NodeId) (home context : Option ContractId) :
    l.HasEdges site P (l.resolveMember site callee home context) := by
  unfold resolveMember
  simp only
  split
  · exact hasEdges_unresolved _
  · next base _ =>
    generalize (if l.arena.kind base == .identifier then l.arena.text base else "") = word
    split
    · split
      · exact hasEdges_callTargets hP id fun _ => List.Subset.refl _
      · exact hasEdges_unresolved _
    · split
      · split
        · exact hasEdges_unresolved _
        · exact hasEdges_callTargets hP (List.filter _) fun fs => List.filter_subset_self fs
      · refine .bind (fun h => .liftM (succeeds_namedContract h _)) fun found _ => ?_
        split
        · exact hasEdges_resolveStatic hP _ _ _ _
        · exact hasEdges_resolveValue hP _ _ _

theorem hasEdges_resolveIn (context : Option ContractId) :
    l.HasEdges site (fun f => P f ∧ (l.classify site).outcome = .ok .function) (l.resolveIn site context) := by
  refine .bind (answers_classify · site) fun kind hkind => ?_
  split
  · exact hasEdges_unresolved _
  · have hsite {q : Query (List CallEdge)} (hq : l.HasEdges site P q) :
        l.HasEdges site (fun f => P f ∧ (l.classify site).outcome = .ok .function) q := by
      refine ⟨fun es hes e he => ?_, hq.answers⟩
      have hedge := hq.gives es hes e he
      exact ⟨hedge.site, fun f hf => ⟨hedge.callee f hf, hkind⟩⟩
    refine .bind (fun h => .liftM (Program.succeeds_home h.arena site)) fun home _ => ?_
    split
    · exact hsite (hasEdges_unresolved _)
    · split
      · exact hsite (hasEdges_resolveName hP _ _ _)
      · exact hsite (hasEdges_resolveMember hP _ _ _)
      · exact hsite (hasEdges_unresolved _)
  · exact .pure (by simp)

end Targets

theorem mem_of_mem_combine {edges : List CallEdge} {e : CallEdge} (he : e ∈ combine edges) : e ∈ edges := by
  have hkept (es kept : List CallEdge)
      (he : e ∈ es.foldl (fun kept e => if kept.any fun k => k.key == e.key then kept else kept ++ [e]) kept) :
      e ∈ kept ∨ e ∈ es := by
    induction es generalizing kept with
    | nil => exact .inl he
    | cons x es ih =>
      rw [List.foldl_cons] at he
      rcases ih _ he with he | he
      · split at he
        · exact .inl he
        · rcases List.mem_append.1 he with he | he
          · exact .inl he
          · exact .inr (List.mem_cons.2 (.inl (List.mem_singleton.1 he)))
      · exact .inr (List.mem_cons_of_mem x he)
  have hdiffering : e ∈ edges.foldl
      (fun kept e => if kept.any fun k => k.key == e.key then kept else kept ++ [e]) [] := by
    unfold combine at he
    simp only at he
    split at he
    · exact List.mem_of_mem_take he
    · exact List.mem_of_mem_filter he
  exact (hkept edges [] hdiffering).resolve_left (by simp)

theorem hasEdges_resolve (hP : l.CoversTargets P) (virtualDispatch : Bool) :
    l.HasEdges site (fun f => P f ∧ (l.classify site).outcome = .ok .function) (l.resolve virtualDispatch site) := by
  unfold resolve
  split
  · exact .pure (by simp)
  · refine .bind (answers_contexts · virtualDispatch site) fun contexts _ => ?_
    refine .bind (fun h => .mapM fun c _ => (hasEdges_resolveIn hP c).answers h) fun all hall => .pure fun e he => ?_
    obtain ⟨context, -, es, hcontext, he⟩ := (Query.mem_flatten_iff hall).1 (mem_of_mem_combine he)
    exact (hasEdges_resolveIn hP context).gives es hcontext e he

theorem coversTargets_true : l.CoversTargets fun _ => True :=
  ⟨fun _ _ _ => trivial, fun _ _ => trivial, fun _ _ _ => trivial⟩

end Lineage

namespace Linkage

variable {l : Linkage} {site : NodeId}

theorem hasEdges_edges {P : CallableId → Prop} (hP : l.CoversTargets P) :
    l.HasEdges site (fun f => P f ∧ (l.callKind site).outcome = .ok .function) (l.edges site) := by
  unfold edges callKind
  rw [Memo.get_eq, Memo.get_eq]
  exact Lineage.hasEdges_resolve hP l.virtualDispatch

theorem site_of_mem_edges {es : List CallEdge} {e : CallEdge} (hes : (l.edges site).outcome = .ok es) (he : e ∈ es) :
    e.site = site ∧ (e.callee.isSome = true → (l.callKind site).outcome = .ok .function) := by
  have hedge := (hasEdges_edges Lineage.coversTargets_true).gives es hes e he
  refine ⟨hedge.site, fun hsome => ?_⟩
  obtain ⟨f, hf⟩ := Option.isSome_iff_exists.1 hsome
  exact (hedge.callee f hf).2

section Answers

variable (h : l.IsLegible)

include h

theorem answers_callKind (site : NodeId) : (l.callKind site).Answers := by
  unfold callKind
  rw [Memo.get_eq]
  exact Lineage.answers_classify h site

theorem answers_edges (site : NodeId) : (l.edges site).Answers :=
  (hasEdges_edges Lineage.coversTargets_true).answers h

theorem answers_callees (site : NodeId) : (l.callees site).Answers :=
  .bind (answers_edges h site) fun _ _ => .pure trivial

theorem answers_isExternalCall (site : NodeId) : (l.isExternalCall site).Answers := by
  refine .bind (answers_callKind h site) fun kind _ => ?_
  split
  · exact .pure trivial
  · exact .pure trivial
  · refine .bind (answers_edges h site) fun edges _ => ?_
    split
    · exact .pure trivial
    · split
      · split
        · exact .pure trivial
        · exact .bind (.liftM (Lineage.succeeds_isStaticReceiver h _)) fun _ _ => .pure trivial
      · exact .pure trivial
  · exact .pure trivial

end Answers

end Linkage

end ContractFlow
