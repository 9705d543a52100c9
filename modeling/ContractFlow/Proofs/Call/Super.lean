import ContractFlow.Proofs.Call.Dispatch
import ContractFlow.Proofs.Lineage.Candidate

/-! This module shows what a call by way of `super` is bound to. -/

namespace ContractFlow

namespace Lineage

variable {l : Lineage} {site : NodeId} {home context : ContractId} {name : String} {arity : Nat} {f : CallableId}

def superEdge (l : Lineage) (site : NodeId) (context : ContractId) (f : CallableId) : CallEdge :=
  ⟨site, l.owner? site, some f, .super, some context, 0⟩

theorem filter_eq_singleton_iff {α : Type} {x : α} {xs : List α} {p : α → Bool} (hfirst : xs.head? = some x)
    (hx : p x = true) (hnodup : xs.Nodup) : xs.filter p = [x] ↔ ∀ y ∈ xs, y ≠ x → p y = false := by
  rw [List.eq_cons_of_mem_head? hfirst] at hnodup ⊢
  rw [List.filter_cons_of_pos hx, List.cons.injEq, List.filter_eq_nil_iff]
  have hrest := (List.nodup_cons.1 hnodup).1
  constructor
  · rintro ⟨-, hfalse⟩ y hy hne
    exact Bool.eq_false_iff.2 (hfalse y ((List.mem_cons.1 hy).resolve_left hne))
  · intro hfalse
    refine ⟨rfl, fun y hy => ?_⟩
    have hne : y ≠ x := fun heq => hrest (heq ▸ hy)
    rw [hfalse y (List.mem_cons_of_mem x hy) hne]
    exact Bool.false_ne_true

section Merged

variable {after : Option ContractId} (hmerges : l.Merges context) (hcontext : context < l.contracts.size)

include hmerges hcontext

theorem not_mem_orderAfter : context ∉ l.orderAfter context (some home) := by
  have horder := hmerges.isOrder hcontext
  obtain ⟨rest, hrest⟩ : ∃ rest, l.order context = context :: rest :=
    ⟨_, order_eq ▸ List.eq_cons_of_mem_head? horder.head⟩
  have hbehind : (l.orderAfter context (some home)).Sublist rest := by
    rw [orderAfter, hrest, List.dropWhile_cons]
    split
    · exact (List.tail_sublist _).trans (List.dropWhile_sublist _)
    · exact List.Sublist.refl _
  intro hmem
  have hnodup : (context :: rest).Nodup := hrest ▸ order_eq ▸ horder.nodup
  exact (List.nodup_cons.1 hnodup).1 (hbehind.subset hmem)

variable (hmembers : l.SortsMembers) (hmodifiers : l.NamesNoModifier name)
  (hafter : ∀ s, after = some s → s ∈ l.order context)

include hmembers hmodifiers hafter

open Classical in
theorem maximal_definitionsOf_eq : l.maximal (l.definitionsOf context (.text name) arity after) =
    (l.definitionsOf context (.text name) arity after).filter fun g =>
      ∀ h ∈ l.definitionsOf context (.text name) arity after, ¬ l.IsBelow h g := by
  rw [← filter_matches_eq hmembers.knowsMembers hmodifiers hafter]
  apply List.filter_congr
  intro g hg
  obtain ⟨d, hd, -⟩ := exists_contract_of_mem_found hmembers hcontext hmerges hg
  rw [hd, Option.isSome_some, Bool.true_and, Bool.eq_iff_iff, decide_eq_true_iff, Bool.not_eq_true',
    List.any_eq_false]
  apply forall₂_congr
  intro h hh
  rw [isDominatedBy_iff_of_mem_found hmembers hcontext hmerges hh]

theorem nodup_definitionsOf (hnodup : ∀ d, (l.members d).Nodup) :
    (l.definitionsOf context (.text name) arity after).Nodup := by
  rw [← filter_matches_eq hmembers.knowsMembers hmodifiers hafter]
  exact nodup_found hmembers hcontext hmerges hnodup

theorem maximal_eq_singleton_iff (hnodup : ∀ d, (l.members d).Nodup)
    (hfirst : (l.definitionsOf context (.text name) arity after).head? = some f) :
    l.maximal (l.definitionsOf context (.text name) arity after) = [f] ↔
      ∀ g ∈ l.definitionsOf context (.text name) arity after, g ≠ f →
        ∃ h ∈ l.definitionsOf context (.text name) arity after, l.IsBelow h g := by
  have hmaximal := mem_maximal_of_head? hmerges hmembers.knowsMembers hcontext orderAfter_sublist hfirst
  rw [← definitionsOf, maximal_definitionsOf_eq hmerges hcontext hmembers hmodifiers hafter] at hmaximal
  rw [maximal_definitionsOf_eq hmerges hcontext hmembers hmodifiers hafter,
    filter_eq_singleton_iff hfirst (List.mem_filter.1 hmaximal).2
      (nodup_definitionsOf hmerges hcontext hmembers hmodifiers hafter hnodup)]
  simp

end Merged

section Resolve

variable (hmerges : l.Merges context) (hcontext : context < l.contracts.size) (hmembers : l.SortsMembers)
  (hmodifiers : l.NamesNoModifier name) (hafter : ∀ s, some home = some s → s ∈ l.order context)
  (hfirst : (l.definitionsOf context (.text name) arity (some home)).head? = some f)

include hmerges hcontext hmembers hfirst

theorem head?_maximal_definitionsOf :
    (l.maximal (l.definitionsOf context (.text name) arity (some home))).head? = some f := by
  have hmaximal := mem_maximal_of_head? hmerges hmembers.knowsMembers hcontext orderAfter_sublist hfirst
  rw [maximal, List.eq_cons_of_mem_head? hfirst, List.filter_cons_of_pos]
  · rfl
  · rw [← List.eq_cons_of_mem_head? hfirst]
    exact (List.mem_filter.1 hmaximal).2

include hmodifiers hafter

theorem callTargets_super_eq
    (htypes : ∀ g ∈ l.definitionsOf context (.text name) arity (some home),
      l.parameterTypes g = l.parameterTypes f) :
    l.targetsFor context (.text name) arity (some home)
      = l.maximal (l.definitionsOf context (.text name) arity (some home)) := by
  have hknows := hmembers.knowsMembers
  rw [targetsFor, candidates_eq_flatMap, matching_eq hknows hmodifiers hafter hfirst htypes, List.flatMap_singleton]
  have hmaximal := mem_maximal_of_head? hmerges hknows hcontext orderAfter_sublist hfirst
  rw [preferred_eq_maximal hfirst hmaximal]
  · apply List.filter_eq_self.2
    intro g hg
    apply isCallTarget_of_isPlainFunction
    exact isPlainFunction_of_mem_definitionsOf (mem_maximal_iff.1 hg).1
  · -- The contract itself is first in its order, so that none of its own definitions is behind another contract.
    intro hown
    obtain ⟨d, hd, hfd⟩ := List.mem_flatMap.1 (List.mem_of_mem_filter (List.mem_of_head? hfirst))
    obtain rfl := Option.some.inj (((hmembers d f).1 hfd).symm.trans hown)
    exact absurd hd (not_mem_orderAfter hmerges hcontext)

end Resolve

theorem resolveIn_super_eq (hl : l.IsLegible) (hmerges : l.Merges context) (hcontext : context < l.contracts.size)
    (hmembers : l.SortsMembers) (hmodifiers : l.NamesNoModifier name)
    (hafter : ∀ s, some home = some s → s ∈ l.order context) (hkind : (l.classify site).outcome = .ok .function)
    (hhome : l.home site = .ok (some home)) (hcall : l.CallsFunction site home name (some home))
    (hfirst : (l.definitionsOf context (.text name) (l.arena.callArguments site).length (some home)).head? = some f)
    (htypes : ∀ g ∈ l.definitionsOf context (.text name) (l.arena.callArguments site).length (some home),
      l.parameterTypes g = l.parameterTypes f) :
    (l.resolveIn site (some context)).outcome = .ok ((l.maximal
      (l.definitionsOf context (.text name) (l.arena.callArguments site).length (some home))).map
        (l.superEdge site context)) := by
  have htargets := callTargets_super_eq hmerges hcontext hmembers hmodifiers hafter hfirst htypes
  have hf := List.mem_of_head? (head?_maximal_definitionsOf hmerges hcontext hmembers hfirst)
  have hedges := answers_edgesTo_eq hl site (some context) (fun _ => .super) 0 hf
    fun g hg => htypes g (mem_maximal_iff.1 hg).1
  rw [← htargets] at hedges
  obtain ⟨_, hresult, rfl⟩ := answers_resolveIn_super hl hkind hhome hcall hedges
  rw [hresult, htargets]
  rfl

end Lineage

open Classical in
/--
A call by way of `super` is bound to the functions behind the contract of the call that no other one of them overrides.
The next function is the first of them, and the only one just if each other one is overridden by one of them: where two
bases compete, both are listed.
-/
theorem Session.super_runs_undominated_definitions (a : Arena) (plan : FailurePlan) (settings : Settings)
    (hlegible : a.isLegible = true) (hmerges : (analyse a plan settings).MergesAll) {site : NodeId}
    {home context : ContractId} {name : String} {f : CallableId} (hsite : a.kind site = .functionCall)
    (hkind : ((analyse a plan settings).callKind site).outcome = .ok .function)
    (hhome : (analyse a plan settings).home site = .ok (some home))
    (hcall : (analyse a plan settings).CallsFunction site home name (some home))
    (hcontext : context ∈ (analyse a plan settings).derived home)
    (hmodifiers : (analyse a plan settings).NamesNoModifier name)
    (hfirst : ((analyse a plan settings).definitionsOf context (.text name) (a.callArguments site).length
      (some home)).head? = some f)
    (htypes : ∀ g ∈ (analyse a plan settings).definitionsOf context (.text name) (a.callArguments site).length
      (some home), (analyse a plan settings).parameterTypes g = (analyse a plan settings).parameterTypes f) :
    let l := (analyse a plan settings).toLineage
    let definitions := l.definitionsOf context (.text name) (a.callArguments site).length (some home)
    ∃ edges, ((analyse a plan settings).edgesIn site (some context)).outcome = .ok edges ∧
      edges = (definitions.filter fun g => ∀ h ∈ definitions, ¬ l.IsBelow h g).map (l.superEdge site context) ∧
      edges.head? = some (l.superEdge site context f) ∧
      (edges = [l.superEdge site context f] ↔ ∀ g ∈ definitions, g ≠ f → ∃ h ∈ definitions, l.IsBelow h g) := by
  intro l definitions
  have hl : l.IsLegible := Outline.isLegible_ofArena plan hlegible
  have hmembers : l.SortsMembers := Lineage.sortsMembers_analyse a plan settings
  have hnodup : ∀ d, (l.members d).Nodup := Outline.nodup_callables a plan
  have hclassify : (l.classify site).outcome = .ok .function := by
    rw [← hkind, Linkage.callKind, Memo.get_eq]
  obtain ⟨hid, horder⟩ := List.mem_filter.1 hcontext
  have hsize : context < l.contracts.size := List.mem_range.1 hid
  have hafter : ∀ s, some home = some s → s ∈ l.order context := by
    rintro s ⟨⟩
    exact List.contains_iff_mem.1 horder
  have hmerges : l.Merges context := hmerges.merges context
  have hresult := Lineage.resolveIn_super_eq hl hmerges hsize hmembers hmodifiers hafter hclassify hhome hcall
    hfirst htypes
  have hinj : Function.Injective (l.superEdge site context) := by
    intro g h heq
    simpa [Lineage.superEdge] using heq
  refine ⟨(l.maximal definitions).map (l.superEdge site context), ?_, ?_, ?_, ?_⟩
  · rw [Linkage.edgesIn, if_pos]
    · exact hresult
    · exact beq_iff_eq.2 hsite
  · rw [Lineage.maximal_definitionsOf_eq hmerges hsize hmembers hmodifiers hafter]
  · rw [List.head?_map, Lineage.head?_maximal_definitionsOf hmerges hsize hmembers hfirst]
    rfl
  · rw [← List.map_singleton, (List.map_injective_iff.2 hinj).eq_iff]
    exact Lineage.maximal_eq_singleton_iff hmerges hsize hmembers hmodifiers hafter hnodup hfirst

namespace Siblings

open Sample

/-- A contract `D` with two unrelated bases, and with a function that calls that of `super`. -/
def nodes : Array Node := #[
  unit [1, 3, 5],
  contract "B" [] [2],
  named .functionDefinition 1 "nodes" "f",
  contract "C" [] [4],
  named .functionDefinition 3 "nodes" "f",
  contract "D" [6, 8] [10],
  base 5 7,
  basePath 6 "B",
  base 5 9,
  basePath 8 "C",
  bodied .functionDefinition 5 11 "f",
  block 10 [12],
  statement 11 13,
  call 12 14 [],
  node .memberAccess (some 13) "expression" [("expression", .one 15)] [("memberName", .text "f")],
  identifier 14 "expression" "super"]

def arena : Arena :=
  arenaOf nodes (by decide +kernel)

def analysis : FlowGraph :=
  Session.analyse arena {} {}

theorem mergesAll : analysis.MergesAll where
  acyclic := by decide +kernel
  merged := by decide +kernel

theorem namesNoModifier : analysis.NamesNoModifier "f" := by
  have hall : ∀ m < 3, (analysis.callableD m).kind ≠ .modifier := by decide +kernel
  intro m hm hkind
  exact absurd hkind (hall m hm)

theorem callsFunction : analysis.CallsFunction 13 2 "f" (some 2) := by
  have hcallee : analysis.arena.callee? 13 = some 14 := by decide +kernel
  have hbase : analysis.arena.child? 14 "expression" = some 15 := by decide +kernel
  exact .super hcallee rfl rfl hbase rfl rfl

theorem parameterTypes_eq {g : CallableId} (hg : g ∈ [1, 0]) : analysis.parameterTypes g = [] := by
  rcases List.mem_pair.1 hg with rfl | rfl <;> exact List.isEmpty_iff.1 (by decide +kernel)

theorem super_runs_both_bases :
    analysis.definitionsOf 2 (.text "f") 0 (some 2) = [1, 0] ∧
    (analysis.edgesIn 13 (some 2)).outcome
      = .ok [analysis.superEdge 13 2 1, analysis.superEdge 13 2 0] ∧
    ¬ ∃ h ∈ [1, 0], analysis.IsBelow h 0 := by
  have hdefinitions : analysis.definitionsOf 2 (.text "f") 0 (some 2) = [1, 0] := by
    decide +kernel
  have hcontext : 2 ∈ analysis.derived 2 := by decide +kernel
  obtain ⟨edges, hedges, -, -, hsingle⟩ := Session.super_runs_undominated_definitions arena {} {}
    (by decide +kernel) mergesAll rfl (by decide +kernel) (by decide +kernel) callsFunction hcontext namesNoModifier
    (congrArg List.head? hdefinitions) fun g hg =>
      (parameterTypes_eq (hdefinitions ▸ hg)).trans (parameterTypes_eq List.mem_cons_self).symm
  have hboth : (analysis.edgesIn 13 (some 2)).outcome
      = .ok [analysis.superEdge 13 2 1, analysis.superEdge 13 2 0] := by
    decide +kernel
  obtain rfl := Except.ok.inj (hboth.symm.trans hedges)
  refine ⟨hdefinitions, hboth, fun hbelow => ?_⟩
  have hone := hsingle.2 fun g hg hne => by
    rcases List.mem_pair.1 (hdefinitions ▸ hg) with rfl | rfl
    · exact absurd rfl hne
    · exact hdefinitions ▸ hbelow
  exact absurd (congrArg List.length hone) (by decide)

end Siblings

end ContractFlow
