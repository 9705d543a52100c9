import ContractFlow.Policy.Weakness
import ContractFlow.Proofs.Flow.Near
import ContractFlow.Proofs.Flow.Path
import ContractFlow.Proofs.Policy.StaleWrite

/-! This module shows that the stale writes behind an external call are reported for reentrancy. -/

namespace ContractFlow

theorem Arena.slots_ne_nil {a : Arena} {n t : NodeId} (h : a.container? n = some t)
    (htry : a.kind t ≠ .tryStatement) : a.slots t ≠ [] := by
  obtain ⟨-, hkind | ⟨hcount, -⟩⟩ := of_container? h
  · exact absurd hkind htry
  · exact List.ne_nil_of_length_pos (Nat.zero_lt_of_lt hcount)

theorem FlowModel.answers_resultArity_pos {m : FlowModel} (h : m.IsLegible) {call : NodeId}
    (hvalues : ∀ t, m.arena.container? call = some t → m.arena.kind t = .tryStatement → m.arena.slots t ≠ []) :
    (m.resultArity call).Answers (0 < ·) := by
  unfold resultArity
  split
  · next t ht =>
    have hslots : m.arena.slots t ≠ [] := by
      by_cases htry : m.arena.kind t = .tryStatement
      · exact hvalues t ht htry
      · exact Arena.slots_ne_nil ht htry
    exact .pure (List.length_pos_iff.2 hslots)
  · refine .bind (Linkage.answers_callees h call) fun callees _ => .pure ?_
    exact List.foldlRecOn _ max Nat.zero_lt_one fun k hk _ _ => Nat.lt_of_lt_of_le hk (Nat.le_max_left k _)

namespace FlowGraph

variable {g : FlowGraph} {options : PolicyOptions} {mode : FlowMode} {limits : PathLimits} {limit : Int}
  {f : CallableId} {call site decl : NodeId} {x : FlowNode}

structure Reports (g : FlowGraph) (options : PolicyOptions) (mode : FlowMode) (limit : Int) (call : NodeId)
    (x : FlowNode) : Prop where
  listed : ∃ nodes, g.listNodes.outcome = .ok nodes ∧ .callResult call 0 ∈ nodes ∧ x ∈ nodes
  external : (g.isExternalCall call).outcome = .ok true
  write : x.kind = .stateWrite
  leads : ∃ depth, (g.rules (Weakness.reentrancy.policy g options) mode).Leads limit (.callResult call 0) x depth

theorem isSource_eq (hx : x.position = 0) :
    (Weakness.reentrancy.policy g options).isSource x = g.isExternalResult x := by
  show (if _ then _ else _) = _
  rw [if_neg (by simp [hx])]
  rfl

theorem isSource_eq_true (h : ((Weakness.reentrancy.policy g options).isSource x).outcome = .ok true) :
    ∃ call, x = .callResult call 0 ∧ (g.isExternalCall call).outcome = .ok true := by
  by_cases hx : x.position = 0
  · rw [isSource_eq hx] at h
    unfold isExternalResult at h
    split at h
    · next call i =>
      obtain rfl : i = 0 := hx
      exact ⟨call, rfl, h⟩
    · simp at h
  · change (if _ then _ else _ : Query Bool).outcome = _ at h
    rw [if_pos (by simp [hx])] at h
    simp at h

section Legible

variable (hl : g.IsLegible)

include hl

theorem answers_isSource (options : PolicyOptions) (x : FlowNode) :
    ((Weakness.reentrancy.policy g options).isSource x).Answers := by
  by_cases hx : x.position = 0
  · rw [isSource_eq hx]
    unfold isExternalResult
    split
    · exact Linkage.answers_isExternalCall hl _
    · exact .pure trivial
  · show Query.Answers (if _ then _ else _)
    rw [if_pos (by simp [hx])]
    exact .pure trivial

theorem isTotal_reentrancy (options : PolicyOptions) : (Weakness.reentrancy.policy g options).IsTotal where
  barrier owner x := by
    have hanswer : (g.isInGuarded owner).Answers := by
      unfold isInGuarded
      split
      · exact Linkage.answers_isGuarded hl _
      · exact .pure trivial
    obtain ⟨b, hb, -⟩ := hanswer
    exact ⟨b, hb⟩
  flow x := by
    have hanswer : (Weakness.stepsToWrites g .reentrancy x).Answers := by
      unfold Weakness.stepsToWrites
      split
      · refine .bind (answers_isSource hl options _) fun isSource _ => ?_
        split
        · exact answers_writesAfter hl _
        · exact .pure trivial
      · exact .pure trivial
    obtain ⟨ys, hys, -⟩ := hanswer
    exact ⟨ys, hys⟩
  taint x := ⟨[], rfl⟩

variable (hp : g.IsPlanted)

include hp

theorem owner?_of_isAround (h : g.IsAround f (.stateWrite site decl)) :
    ∃ k, g.RunsWith f k ∧ g.owner? site = some k := by
  obtain ⟨k, hk, xs, hxs, hx⟩ := h
  rw [Program.owner?_eq hl]
  exact ⟨k, hk, (FlowModel.holder?_of_stateWrite_mem hp hxs hx).1⟩

end Legible

theorem keepsPlaces_reentrancy {b : Nat} (hp : g.IsPlanted) (hb : g.Bounds b) (options : PolicyOptions) :
    g.KeepsPlaces (Weakness.reentrancy.policy g options) b where
  flow x _ := by
    show (Weakness.stepsToWrites g .reentrancy x).Gives _
    unfold Weakness.stepsToWrites
    split
    · refine .bind fun isSource _ => ?_
      split
      · intro writes hwrites y hy
        obtain ⟨f, -, c, -, site, decl, rfl, hstale⟩ := (mem_writesAfter_iff hwrites).1 hy
        obtain ⟨k, -, xs, hxs, hx⟩ := hstale.write
        obtain ⟨-, hsite, hdecl⟩ := FlowModel.holder?_of_stateWrite_mem hp hxs hx
        exact ⟨Nat.lt_of_lt_of_le hsite hb.nodes, Nat.lt_of_lt_of_le hdecl hb.nodes⟩
      · exact .pure .nil
    · exact .pure .nil
  taint _ _ := .pure .nil

section Report

variable (hl : g.IsLegible) (hp : g.IsPlanted) (hlabel : g.arena.isLabelled = true)
  (hlimit : options.maxCallDepth = .int limit)

include hl hp hlabel hlimit

theorem exists_reach (mode : FlowMode) (hcall : g.arena.kind call = .functionCall) :
    ∃ r, (g.reach (Weakness.reentrancy.policy g options) mode (.callResult call 0)).outcome = .ok r ∧
      ∀ x, x ∈ r.nodes ↔ ∃ depth,
        (g.rules (Weakness.reentrancy.policy g options) mode).Leads limit (.callResult call 0) x depth := by
  have hlt := Arena.lt_size_of_kind hcall (by decide)
  obtain ⟨b, hcall, hb⟩ := g.exists_bounds call
  have hplace : g.IsPlace b (.callResult call 0) := ⟨hcall, FlowModel.zero_lt hb⟩
  obtain ⟨hnotes, hreached⟩ := run_eq_reached hlimit (isTotal_reentrancy hl options)
    (finite_reachable hb (keepsPlaces_reentrancy hp hb options) hplace) rfl
  obtain ⟨text, htext, -⟩ := Arena.succeeds_expressionText hl.arena hlabel hlt
  have hsource : ∃ text, g.describeFlow (.callResult call 0) = .ok text :=
    ⟨_, Outcome.bind_eq_ok.2 ⟨text, htext, Outcome.pure_eq_ok.2 rfl⟩⟩
  exact ⟨_, outcome_reach rfl hlimit hsource rfl hnotes, hreached⟩

theorem answers_reports (mode : FlowMode) (limits : PathLimits) :
    (g.flowPaths limits (Weakness.reentrancy.policy g options) mode none).Answers fun paths =>
      (∀ path ∈ paths, ∃ call, path.source = .callResult call 0 ∧ g.Reports options mode limit call path.sink) ∧
      ((paths.length : Int) < limits.count → ∀ call x, g.Reports options mode limit call x →
        ∃ path ∈ paths, path.source = .callResult call 0 ∧ path.sink = x) := by
  obtain ⟨nodes, hnodes, -⟩ := FlowModel.answers_listNodes hl
  have hreach : ∀ x ∈ nodes, ((Weakness.reentrancy.policy g options).isSource x).outcome = .ok true →
      (g.reach (Weakness.reentrancy.policy g options) mode x).Answers := by
    intro x hx hsource
    obtain ⟨call, rfl, -⟩ := isSource_eq_true hsource
    obtain ⟨r, hr, -⟩ := exists_reach hl hp hlabel hlimit mode (FlowModel.kind_of_callResult_mem hnodes hx)
    exact ⟨r, hr, trivial⟩
  obtain ⟨paths, hpaths, hall⟩ := answers_flowPaths limits hnodes (answers_isSource hl options)
    (fun _ => .pure trivial) hreach
  refine ⟨paths, hpaths, fun path hpath => ?_, fun hcount call x h => ?_⟩
  · obtain ⟨⟨nodes', hnodes', hstart, hend⟩, hsource, hsink, r, hr, hreached⟩ :=
      exists_of_mem_flowPaths hpaths hpath
    obtain ⟨call, heq, hexternal⟩ := isSource_eq_true hsource
    rw [heq] at hstart hr
    obtain ⟨r', hr', hleads⟩ := exists_reach hl hp hlabel hlimit mode
      (FlowModel.kind_of_callResult_mem hnodes' hstart)
    obtain rfl := Except.ok.inj (hr.symm.trans hr')
    refine ⟨call, heq, ⟨nodes', hnodes', hstart, hend⟩, hexternal, ?_, (hleads _).1 hreached⟩
    exact eq_of_beq (Except.ok.inj hsink)
  · obtain ⟨nodes', hnodes', hstart, hend⟩ := h.listed
    obtain rfl := Except.ok.inj (hnodes.symm.trans hnodes')
    obtain ⟨r, hr, hleads⟩ := exists_reach hl hp hlabel hlimit mode
      (FlowModel.kind_of_callResult_mem hnodes hstart)
    refine hall hcount _ hstart ?_ r hr x hend ((hleads x).2 h.leads) ?_
    · exact h.external
    · exact congrArg Except.ok (beq_iff_eq.2 h.write)

end Report

theorem reports_of_isStaleWrite (hl : g.IsLegible) (hp : g.IsPlanted) (hpos : 0 ≤ limit) {c : ControlGraph}
    (howner : g.owner? call = some f) {xs : List FlowNode} (hnodes : (g.nodesIn f).outcome = .ok xs)
    (hresult : .callResult call 0 ∈ xs) (hexternal : (g.isExternalCall call).outcome = .ok true)
    (hguard : (g.isGuarded f).outcome = .ok false)
    (hgraph : (g.controlGraph? g.spliceModifiers f).outcome = .ok (some c))
    (hstale : g.IsStaleWrite f c call site decl) :
    g.Reports options mode limit call (.stateWrite site decl) := by
  have hreached : g.reachedOwner? (.stateWrite site decl) = g.owner? site := by
    obtain ⟨_, -, ys, hys, hwrite⟩ := hstale.write
    exact if_neg (FlowModel.ne_of_stateWrite_mem hys hwrite)
  have hbarrier : (g.isInGuarded (g.reachedOwner? (.stateWrite site decl))).outcome = .ok false := by
    obtain ⟨k, hk, howner⟩ := owner?_of_isAround hl hp hstale.write
    rw [hreached, howner]
    cases hk with
    | own => exact hguard
    | modifier hmodifiers hm _ =>
      exact Linkage.outcome_isGuarded_of_isModifier (Lineage.isModifier_of_mem_modifiersOf hmodifiers hm)
  refine ⟨?_, hexternal, rfl, 0, ?_⟩
  · obtain ⟨nodes, hlisted, hall⟩ := FlowModel.answers_listNodes hl
    obtain ⟨k, -, ys, hys, hwrite⟩ := hstale.write
    have hk := (Program.IsPlanted.below_of_holder? (FlowModel.holder?_of_stateWrite_mem hp hys hwrite).1).1
    exact ⟨nodes, hlisted, hall f (Program.lt_size_of_owner? howner) xs hnodes hresult, hall k hk ys hys hwrite⟩
  · obtain ⟨steps, hsteps⟩ := exists_steps (isTotal_reentrancy hl options) mode (.callResult call 0)
    obtain ⟨writes, hwrites, -⟩ := answers_writesAfter hl call
    have hmem := (mem_writesAfter_iff hwrites).2 ⟨f, howner, c, hgraph, site, decl, rfl, hstale⟩
    have hflow : ((Weakness.reentrancy.policy g options).flowSteps (.callResult call 0)).outcome = .ok writes := by
      refine Query.outcome_bind_eq_ok.2 ⟨true, ?_, hwrites⟩
      exact hexternal
    refine .step .start hsteps ((mem_steps_iff hsteps).2 (.added ?_)) hbarrier rfl hpos
    rw [Query.getD_eq_of_outcome hflow]
    exact hmem

end FlowGraph

/--
Every stale write is reported where a callable that no lock guards reads state before an external call, and it or one of
its modifiers writes that state behind it, unless the call is tried and its values ignored.
-/
theorem Session.stale_writes_are_reported (a : Arena) (plan : FailurePlan) (settings : Settings)
    (options : PolicyOptions) (mode : FlowMode) (limits : PathLimits) (limit : Int)
    (hrooted : a.IsRooted) (hlegible : a.isLegible = true) (hlabel : a.isLabelled = true)
    (hlimit : options.maxCallDepth = .int limit) (hpos : 0 ≤ limit)
    {f : CallableId} {body call site decl : NodeId} {c : ControlGraph}
    (hbody : ((analyse a plan settings).callableD f).body = some body)
    (hguard : ((analyse a plan settings).isGuarded f).outcome = .ok false)
    (hcall : call ∈ a.walk body) (hkind : a.kind call = .functionCall)
    (hexternal : ((analyse a plan settings).isExternalCall call).outcome = .ok true)
    (hvalues : ∀ t, a.container? call = some t → a.kind t = .tryStatement → a.slots t ≠ [])
    (hgraph : ((analyse a plan settings).controlGraph? settings.spliceModifiers f).outcome = .ok (some c))
    (hstale : (analyse a plan settings).IsStaleWrite f c call site decl) :
    ∃ paths, ((analyse a plan settings).flowPaths limits
        (Weakness.reentrancy.policy (analyse a plan settings) options) mode none).outcome = .ok paths ∧
      ((paths.length : Int) < limits.count →
        ∃ path ∈ paths, path.source = .callResult call 0 ∧ path.sink = .stateWrite site decl) := by
  have hl : (analyse a plan settings).IsLegible := Outline.isLegible_ofArena plan hlegible
  have hp : (analyse a plan settings).IsPlanted := .ofArena plan hrooted
  obtain ⟨paths, hpaths, -, hall⟩ := FlowGraph.answers_reports hl hp hlabel hlimit mode limits
  refine ⟨paths, hpaths, fun hcount => hall hcount call _ ?_⟩
  have hroot : body ∈ (analyse a plan settings).rootsOf f := by
    rw [FlowModel.rootsOf, hbody]
    simp
  have howner : (analyse a plan settings).owner? call = some f := by
    rw [Program.owner?_eq hl]
    exact FlowModel.holder?_of_mem_rootsOf hp hroot hcall
  obtain ⟨xs, hxs, -⟩ := FlowModel.answers_nodesIn hl f
  obtain ⟨ys, hys, -⟩ := FlowModel.answers_nodesAt hl call
  obtain ⟨arity, harity, hsome⟩ := FlowModel.answers_resultArity_pos hl hvalues
  have hresult := FlowModel.callResult_mem_nodesAt hys hkind hexternal harity hsome
  exact FlowGraph.reports_of_isStaleWrite hl hp hpos howner hxs
    ((FlowModel.mem_nodesIn_iff hxs (.inl rfl)).2 ⟨body, hroot, call, hcall, ys, hys, hresult⟩) hexternal hguard
    hgraph hstale

/-!
A contract `Vault` with two functions that do the same, `balance; target.call(); balance = 0;`. One of them is
`open`, the other one is `guarded` by a modifier `lock` that checks a flag and sets it.
-/

namespace Vault

def tree (kind name : String) (fields : Fields) : Value :=
  .object ([("nodeType", .text kind), ("name", .text name)] ++ fields)

def identifier (name : String) : Value :=
  tree "Identifier" name []

def statement (expression : Value) : Value :=
  tree "ExpressionStatement" "" [("expression", expression)]

def assign (name : String) : Value :=
  statement (tree "Assignment" "" [("operator", .text "="), ("leftHandSide", identifier name),
    ("rightHandSide", tree "Literal" "" [])])

def body (statements : List Value) : String × Value :=
  ("body", tree "Block" "" [("statements", .list statements)])

def withdraw : String × Value :=
  body [
    statement (identifier "balance"),
    statement (tree "FunctionCall" "" [("expression",
      tree "MemberAccess" "" [("memberName", .text "call"), ("expression", identifier "target")])]),
    assign "balance"]

def source : Fields :=
  [("nodeType", .text "SourceUnit"), ("nodes", .list [tree "ContractDefinition" "Vault" [("nodes", .list [
    tree "VariableDeclaration" "balance" [],
    tree "VariableDeclaration" "locked" [],
    tree "ModifierDefinition" "lock" [body [
      tree "IfStatement" "" [("condition", identifier "locked")],
      assign "locked",
      tree "PlaceholderStatement" "" []]],
    tree "FunctionDefinition" "open" [withdraw],
    tree "FunctionDefinition" "guarded" [withdraw, ("modifiers", .list [
      tree "ModifierInvocation" "" [("modifierName", tree "IdentifierPath" "lock" [])]])]])]])]

def arena : Arena :=
  .plant .empty source (.text "vault.sol") ""

def analysis : FlowGraph :=
  Session.analyse arena {} {}

def openGraph : ControlGraph :=
  .ofLayers 0 [] (analysis.control 0)

theorem isAround_of_mem {f : CallableId} {x : FlowNode} (h : x ∈ (analysis.nodesIn f).getD []) :
    analysis.IsAround f x :=
  ⟨f, .own, Query.mem_getD_nil_iff.1 h⟩

theorem isWellFormed : arena.IsRooted ∧ arena.isLegible = true ∧ arena.isLabelled = true :=
  ⟨.plant .empty _ _ _, by decide +kernel⟩

theorem isStaleWrite_open : analysis.IsStaleWrite 0 openGraph 27 24 2 := by
  -- All is decided at once: evaluating the arena takes longer than what is asked about it.
  have hfacts : FlowNode.stateWrite 24 2 ∈ (analysis.nodesIn 0).getD [] ∧
      FlowNode.stateRead 30 2 ∈ (analysis.nodesIn 0).getD [] ∧
      (∃ i ∈ openGraph.pointsAt 27, ∃ j ∈ openGraph.pointsAt 24, openGraph.strictlyReaches i j = true) ∧
      (∃ i ∈ openGraph.pointsAt 30, ∃ j ∈ openGraph.pointsAt 27, openGraph.strictlyReaches i j = true) := by
    decide +kernel
  obtain ⟨hwrite, hread, hfollows, hprecedes⟩ := hfacts
  have hsound : openGraph.Sound := ControlGraph.sound_ofLayers _ _ _
  exact ⟨isAround_of_mem hwrite, (ControlGraph.exists_strictlyReaches_iff hsound).1 hfollows, 30,
    isAround_of_mem hread, (ControlGraph.exists_strictlyReaches_iff hsound).1 hprecedes⟩

theorem outcome_controlGraph?_open (h : (analysis.callableD 0).invocations.isEmpty = true) :
    (analysis.controlGraph? true 0).outcome = .ok (some openGraph) := by
  have hmodifiers : (analysis.modifiersOf 0).outcome = .ok [] := by
    rw [Lineage.modifiersOf, List.isEmpty_iff.1 h]
    rfl
  exact ControlFlow.outcome_controlGraph? rfl (Query.outcome_bind_eq_ok.2 ⟨[], hmodifiers, rfl⟩)

end Vault

theorem Session.stale_writes_are_reported_sample :
    ∃ paths, (Vault.analysis.flowPaths ⟨500, 100⟩
        (Weakness.reentrancy.policy Vault.analysis ⟨.int 20, .bool true⟩) .data none).outcome = .ok paths ∧
      ((paths.length : Int) < 100 →
        ∃ path ∈ paths, path.source = .callResult 27 0 ∧ path.sink = .stateWrite 24 2) := by
  obtain ⟨hrooted, hlegible, hlabel⟩ := Vault.isWellFormed
  have hfacts : (Vault.analysis.callableD 0).body = some 20 ∧
      (Vault.analysis.callableD 0).invocations.isEmpty = true ∧
      (Vault.analysis.isGuarded 0).outcome = .ok false ∧ 27 ∈ Vault.arena.walk 20 ∧
      Vault.arena.kind 27 = .functionCall ∧ (Vault.analysis.isExternalCall 27).outcome = .ok true ∧
      Vault.arena.container? 27 = none := by
    decide +kernel
  obtain ⟨hbody, hinvocations, hguard, hcall, hkind, hexternal, hcontainer⟩ := hfacts
  exact Session.stale_writes_are_reported Vault.arena {} {} ⟨.int 20, .bool true⟩ .data ⟨500, 100⟩ 20
    hrooted hlegible hlabel rfl (by decide) hbody hguard hcall hkind hexternal (by simp [hcontainer])
    (Vault.outcome_controlGraph?_open hinvocations) Vault.isStaleWrite_open

end ContractFlow
