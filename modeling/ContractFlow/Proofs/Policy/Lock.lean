import ContractFlow.Proofs.Control.Wrap
import ContractFlow.Proofs.Flow.Confined
import ContractFlow.Proofs.Policy.Reentrancy

/-! This module shows what a lock is good for, and that modifiers wrap the bodies of callables. -/

namespace ContractFlow

namespace FlowGraph

variable {g : FlowGraph} {options : PolicyOptions} {mode : FlowMode} {limit : Int} {f : CallableId}
  {call : NodeId} {x : FlowNode}

theorem exists_staleWrite_of_reports (hp : g.IsPlanted) (howner : g.owner? call = some f)
    (hguard : (g.isGuarded f).outcome = .ok true) (h : g.Reports options mode limit call x) :
    ∃ c site decl, (g.controlGraph? g.spliceModifiers f).outcome = .ok (some c) ∧
      g.IsStaleWrite f c call site decl ∧ g.owner? site ≠ some f := by
  obtain ⟨nodes, hnodes, hstart, -⟩ := h.listed
  have hcall := FlowModel.kind_of_callResult_mem hnodes hstart
  obtain ⟨depth, hleads⟩ := h.leads
  rcases hleads.cases_head with rfl | ⟨y, steps, change, hsteps, hmem, hbarrier⟩
  · exact absurd h.write (by simp [FlowNode.kind])
  -- The search asks for the callable of the node that it enters, so the first step has to leave `f`.
  have hleaves : g.reachedOwner? y ≠ some f := by
    intro heq
    change (g.isInGuarded (g.reachedOwner? y)).outcome = .ok false at hbarrier
    rw [heq] at hbarrier
    exact absurd (hguard.symm.trans hbarrier) (by simp)
  cases (mem_steps_iff hsteps).1 hmem with
  | inside hy =>
    have hnear : g.Near call y := (FlowModel.localRule_of_mem hy).keeps (by simp [FlowModel.IsProper, hcall])
    exact absurd ((hnear.reachedOwner? hp).trans howner) hleaves
  | jump hy | taint hy | addedTaint hy => exact absurd hy List.not_mem_nil
  | added hy =>
    obtain ⟨ys, hys, hy⟩ := Query.mem_getD_nil_iff.1 hy
    obtain ⟨isSource, -, hys⟩ := Query.outcome_bind_eq_ok.1 hys
    split at hys
    · obtain ⟨k, hk, c, hgraph, site, decl, rfl, hstale⟩ := (mem_writesAfter_iff hys).1 hy
      obtain rfl := Option.some.inj (howner.symm.trans hk)
      obtain ⟨_, -, zs, hzs, hwrite⟩ := hstale.write
      refine ⟨c, site, decl, hgraph, hstale, fun hsite => hleaves ?_⟩
      exact (if_neg (FlowModel.ne_of_stateWrite_mem hzs hwrite)).trans hsite
    · exact absurd (Except.ok.inj hys ▸ hy) List.not_mem_nil

end FlowGraph

/--
A lock silences all reports for the calls in a callable that it guards, if every stale write behind them is one
of the callable itself and none of another modifier.
-/
theorem Session.lock_silences_reports (a : Arena) (plan : FailurePlan) (settings : Settings)
    (options : PolicyOptions) (mode : FlowMode) (limits : PathLimits) (limit : Int)
    (hrooted : a.IsRooted) (hlegible : a.isLegible = true) (hlabel : a.isLabelled = true)
    (hlimit : options.maxCallDepth = .int limit) {f : CallableId}
    (hguard : ((analyse a plan settings).isGuarded f).outcome = .ok true)
    (hwrites : ∀ call c site decl, (analyse a plan settings).owner? call = some f →
      ((analyse a plan settings).controlGraph? settings.spliceModifiers f).outcome = .ok (some c) →
      (analyse a plan settings).IsStaleWrite f c call site decl →
      (analyse a plan settings).owner? site = some f) :
    ∃ paths, ((analyse a plan settings).flowPaths limits
        (Weakness.reentrancy.policy (analyse a plan settings) options) mode none).outcome = .ok paths ∧
      ∀ path ∈ paths, ∀ call, path.source.call? = some call → (analyse a plan settings).owner? call ≠ some f := by
  have hl : (analyse a plan settings).IsLegible := Outline.isLegible_ofArena plan hlegible
  have hp : (analyse a plan settings).IsPlanted := .ofArena plan hrooted
  obtain ⟨paths, hpaths, hreports, -⟩ := FlowGraph.answers_reports hl hp hlabel hlimit mode limits
  refine ⟨paths, hpaths, fun path hpath call hcall howner => ?_⟩
  obtain ⟨call', hsource, hreport⟩ := hreports path hpath
  obtain rfl : call' = call := by simpa [hsource, FlowNode.call?] using hcall
  obtain ⟨c, site, decl, hgraph, hstale, hother⟩ :=
    FlowGraph.exists_staleWrite_of_reports hp howner hguard hreport
  exact hother (hwrites call' c site decl howner hgraph hstale)

namespace Vault

theorem eq_of_runsWith_guarded {k : CallableId} (h : analysis.RunsWith 1 k) : k = 1 := by
  have hfacts : ((analysis.modifiersOf 1).getD []).map (·.2) = [2] ∧ (analysis.isLock 2).outcome = .ok true := by
    decide +kernel
  cases h with
  | own => rfl
  | modifier hmodifiers hm hlock =>
    rw [Query.getD_eq_of_outcome hmodifiers] at hfacts
    obtain rfl := List.mem_singleton.1 (hfacts.1 ▸ List.mem_map_of_mem hm)
    exact absurd (hfacts.2.symm.trans hlock) (by simp)

end Vault

theorem Session.lock_silences_reports_sample :
    Vault.analysis.owner? 15 = some 1 ∧ (Vault.analysis.isExternalCall 15).outcome = .ok true ∧
    ∃ paths, (Vault.analysis.flowPaths ⟨500, 100⟩
        (Weakness.reentrancy.policy Vault.analysis ⟨.int 20, .bool true⟩) .data none).outcome = .ok paths ∧
      ∀ path ∈ paths, path.source.call? ≠ some 15 := by
  obtain ⟨hrooted, hlegible, hlabel⟩ := Vault.isWellFormed
  have hfacts : Vault.analysis.owner? 15 = some 1 ∧ (Vault.analysis.isExternalCall 15).outcome = .ok true ∧
      (Vault.analysis.isGuarded 1).outcome = .ok true := by
    decide +kernel
  obtain ⟨howner, hexternal, hguard⟩ := hfacts
  obtain ⟨paths, hpaths, hsilent⟩ := Session.lock_silences_reports Vault.arena {} {} ⟨.int 20, .bool true⟩ .data
    ⟨500, 100⟩ 20 hrooted hlegible hlabel rfl hguard (by
      intro call c site decl _ _ hstale
      obtain ⟨k, hk, hsite⟩ := FlowGraph.owner?_of_isAround
        (Outline.isLegible_ofArena {} hlegible) (.ofArena {} hrooted) hstale.write
      rwa [Vault.eq_of_runsWith_guarded hk] at hsite)
  exact ⟨howner, hexternal, paths, hpaths, fun path hpath hcall => hsilent path hpath 15 hcall howner⟩

section Wrapping

variable {l : Lineage} {f m : CallableId} {modifiers : List (Invocation × CallableId)}

theorem Lineage.ne_of_mem_modifiersOf (h : (l.modifiersOf f).outcome = .ok modifiers)
    {i : Invocation} (hm : (i, m) ∈ modifiers) : m ≠ f := by
  rintro rfl
  have hmodifier := isModifier_of_mem_modifiersOf h hm
  have hnil : (l.callableD m).invocations = [] := Outline.invocations_eq_nil (by simpa [isModifier] using hmodifier)
  rw [modifiersOf, hnil] at h
  obtain rfl := Except.ok.inj h
  simp at hm

theorem Lineage.outcome_wrappers (h : (l.modifiersOf f).outcome = .ok modifiers) :
    (l.wrappers f).outcome = .ok
      (((modifiers.map (·.2)).filter fun m => (l.callableD m).isImplemented).map fun m => ⟨m, l.control m⟩) := by
  apply Query.outcome_bind_eq_ok.2
  refine ⟨modifiers, h, ?_⟩
  rw [List.filter_map, List.map_map]
  rfl

/--
A run that comes to a point of the body of a callable has come through a placeholder of each modifier that has a body,
in the order in which they are applied.
-/
theorem ControlFlow.modifiers_wrap_body (c : ControlFlow) (f : CallableId)
    {modifiers : List (Invocation × CallableId)}
    (hplan : c.plan.control.contains (c.qualifiedName f) = false)
    (hmodifiers : (c.modifiersOf f).outcome = .ok modifiers) :
    ∃ g, (c.controlGraph? true f).outcome = .ok (some g) ∧
      ∀ path i, g.Run path i → (g.point i).owner = f →
        ((g.point i).kind = .join ∨ ∃ n, (g.point i).kind = .visit n) →
        ∃ marks, marks.Sublist path ∧
          List.Forall₂ (fun q m => (g.point q).owner = m ∧
              ∃ n, g.node? q = some n ∧ c.arena.kind n = .placeholderStatement)
            marks ((modifiers.map (·.2)).filter fun m => (c.callableD m).isImplemented) := by
  refine ⟨_, outcome_controlGraph? hplan (Lineage.outcome_wrappers hmodifiers), ?_⟩
  intro path i hrun howner hkind
  have hlayers : ∀ k ∈ ((modifiers.map (·.2)).filter fun m => (c.callableD m).isImplemented).map
      fun m => (⟨m, c.control m⟩ : Layer), k.owner ≠ f ∧ k.body.Marked c.arena := by
    intro k hk
    obtain ⟨m, hm, rfl⟩ := List.mem_map.1 hk
    obtain ⟨⟨i, m⟩, hi, rfl⟩ := List.mem_map.1 (List.mem_filter.1 hm).1
    exact ⟨Lineage.ne_of_mem_modifiersOf hmodifiers hi, c.arena.marked_bodyControl _⟩
  obtain ⟨marks, hsub, hmarks⟩ := hrun.exists_placeholders hlayers howner (by
    rcases hkind with hkind | ⟨n, hkind⟩ <;> simp [hkind])
  rw [List.map_map] at hmarks
  refine ⟨marks, hsub, ?_⟩
  simpa using hmarks

end Wrapping

/-! A contract with a function `f` whose body is `x;`. To it are applied a modifier `outer` and a modifier `inner`. -/

namespace Layered

def modifier (name : String) : Value :=
  Vault.tree "ModifierDefinition" name [Vault.body [Vault.tree "PlaceholderStatement" "" []]]

def invocation (name : String) : Value :=
  Vault.tree "ModifierInvocation" "" [("modifierName", Vault.tree "IdentifierPath" name [])]

def source : Fields :=
  [("nodeType", .text "SourceUnit"), ("nodes", .list [Vault.tree "ContractDefinition" "C" [("nodes", .list [
    modifier "outer", modifier "inner",
    Vault.tree "FunctionDefinition" "f" [Vault.body [Vault.statement (Vault.identifier "x")],
      ("modifiers", .list [invocation "outer", invocation "inner"])]])]])]

def arena : Arena :=
  .plant .empty source (.text "layered.sol") ""

def analysis : FlowGraph :=
  Session.analyse arena {} {}

def graph : ControlGraph :=
  .ofLayers 0 [⟨1, analysis.control 1⟩, ⟨2, analysis.control 2⟩] (analysis.control 0)

def IsPlaceholder (q : Nat) (m : CallableId) : Prop :=
  (graph.point q).owner = m ∧ ∃ n, graph.node? q = some n ∧ arena.kind n = .placeholderStatement

/-- A run to the body comes through the placeholder of `outer` and then through that of `inner`. -/
theorem modifiers_wrap_body_layered : (analysis.controlGraph? true 0).outcome = .ok (some graph) ∧
    ∃ path i, graph.Run path i ∧ graph.node? i = some 9 ∧
      ∃ q r, [q, r].Sublist path ∧ IsPlaceholder q 1 ∧ IsPlaceholder r 2 := by
  have hfacts : ((analysis.modifiersOf 0).getD []).map (·.2) = [1, 2] ∧
      (analysis.modifiersOf 0).outcome.isOk = true ∧
      (analysis.callableD 1).isImplemented = true ∧ (analysis.callableD 2).isImplemented = true ∧
      ∃ i ∈ graph.indices, graph.isLive i = true ∧ graph.point i = ⟨.visit 9, 0⟩ := by
    decide +kernel
  obtain ⟨hlayers, hok, houter, hinner, i, -, hlive, hi⟩ := hfacts
  obtain ⟨modifiers, hmodifiers⟩ := Outcome.exists_of_isOk hok
  rw [Query.getD_eq_of_outcome hmodifiers] at hlayers
  obtain ⟨g, hg, h⟩ := analysis.modifiers_wrap_body 0 rfl hmodifiers
  have hwrappers : (analysis.wrappers 0).outcome =
      .ok [⟨1, analysis.control 1⟩, ⟨2, analysis.control 2⟩] := by
    rw [Lineage.outcome_wrappers hmodifiers, hlayers]
    simp [houter, hinner]
  have hgraph : (analysis.controlGraph? true 0).outcome = .ok (some graph) :=
    ControlFlow.outcome_controlGraph? rfl hwrappers
  obtain rfl : g = graph := Option.some.inj (Except.ok.inj (hg.symm.trans hgraph))
  simp only [hlayers, List.filter_cons, houter, hinner, List.filter_nil, if_true] at h
  obtain ⟨path, hrun⟩ := (ControlGraph.exists_run_iff (ControlGraph.sound_ofLayers _ _ _)).2 hlive
  obtain ⟨marks, hsub, hmarks⟩ := h path i hrun (by rw [hi]) (.inr ⟨9, by rw [hi]⟩)
  rcases hmarks with _ | ⟨hq, _ | ⟨hr, ⟨⟩⟩⟩
  exact ⟨hg, path, i, hrun, by rw [ControlGraph.node?, hi]; rfl, _, _, hsub, hq, hr⟩

end Layered

end ContractFlow
