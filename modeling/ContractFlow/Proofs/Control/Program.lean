import ContractFlow.Control.Program
import ContractFlow.Proofs.Control.Run
import ContractFlow.Proofs.Control.Visit

/-!
This module contains facts about the control flow graphs of the callables of a program.
-/

namespace ContractFlow

namespace ControlFlow

variable {c : ControlFlow} {spliced : Bool} {f : CallableId} {g : ControlGraph}

theorem controlGraph?_eq (c : ControlFlow) (spliced : Bool) (f : CallableId) :
    c.controlGraph? spliced f = c.toLineage.graph? c.plan spliced f := by
  cases spliced <;> exact Memo.get_eq _ _

theorem exists_of_controlGraph? (h : (c.controlGraph? spliced f).outcome = .ok (some g)) :
    ∃ layers, g = .ofLayers f layers (c.control f) ∧ (spliced = false → layers = []) := by
  rw [controlGraph?_eq, Lineage.graph?, Query.outcome_orReport_eq_some, Lineage.makeGraph] at h
  split at h
  · simp [Query.outcome_bind, Query.fail, Except.bind] at h
  · split at h
    · next hspliced =>
      obtain ⟨layers, -, h⟩ := Query.outcome_bind_eq_ok.1 h
      exact ⟨layers, (Except.ok.inj h).symm, by simp [hspliced]⟩
    · exact ⟨[], (Except.ok.inj h).symm, fun _ => rfl⟩

theorem eq_of_controlGraph? (h : (c.controlGraph? false f).outcome = .ok (some g)) :
    g = .ofLayers f [] (c.control f) := by
  obtain ⟨layers, hg, hlayers⟩ := exists_of_controlGraph? h
  rw [hg, hlayers rfl]

theorem outcome_controlGraph? (h : c.plan.control.contains (c.qualifiedName f) = false) {layers : List Layer}
    (hlayers : (if spliced then c.wrappers f else pure []).outcome = .ok layers) :
    (c.controlGraph? spliced f).outcome = .ok (some (.ofLayers f layers (c.control f))) := by
  rw [controlGraph?_eq, Lineage.graph?, Query.outcome_orReport_eq_some, Lineage.makeGraph, h]
  cases spliced <;> exact Query.outcome_bind_eq_ok.2 ⟨layers, hlayers, rfl⟩

theorem sound_of_controlGraph? (h : (c.controlGraph? spliced f).outcome = .ok (some g)) : g.Sound := by
  obtain ⟨layers, rfl, -⟩ := exists_of_controlGraph? h
  exact ControlGraph.sound_ofLayers f layers _

theorem point_unique (h : (c.controlGraph? false f).outcome = .ok (some g)) {i j : Nat} {n : NodeId}
    (hi : g.node? i = some n) (hj : g.node? j = some n) : i = j := by
  rw [eq_of_controlGraph? h] at hi hj
  exact ControlGraph.eq_of_node?_eq f c.arena (c.callableD f).body hi hj

/--
The control flow graph of every callable is consistent: each point stands at its number, edges join points and are
listed at both ends, no two of them have the same ends, and none goes to the entry or comes from the exit.
-/
theorem graph_is_consistent (c : ControlFlow) (spliced : Bool) (f : CallableId) (g : ControlGraph)
    (h : (c.controlGraph? spliced f).outcome = .ok (some g)) :
    (∀ i ∈ g.indices, g.points[i]? = some (g.point i)) ∧
      (∀ e ∈ g.edges, e.source ∈ g.indices ∧ e.target ∈ g.indices) ∧
      (∀ i j kind, (j, kind) ∈ (g.edgesFrom i).map (fun e => (e.target, e.kind)) ↔
        (i, kind) ∈ (g.edgesTo j).map fun e => (e.source, e.kind)) ∧
      (∀ i, g.next i = (g.edgesFrom i).map (·.target) ∧ (g.next i).Nodup ∧
        g.prior i = (g.edgesTo i).map (·.source) ∧ (g.prior i).Nodup) ∧
      g.prior Draft.entry = [] ∧ g.next Draft.exit = [] := by
  have hsound := sound_of_controlGraph? h
  have hsimple : g.IsSimple := by
    obtain ⟨layers, rfl, -⟩ := exists_of_controlGraph? h
    exact ControlGraph.isSimple_ofLayers f layers _
  have hnext (i : Nat) : g.next i = g.successors i := Memo.get_eq _ _
  have hprior (i : Nat) : g.prior i = g.predecessors i := Memo.get_eq _ _
  refine ⟨fun i hi => ?_, fun e he => ?_, fun i j kind => ?_, fun i => ?_, ?_, ?_⟩
  · rw [ControlGraph.point, Array.getD_eq_getD_getElem?, Array.getElem?_eq_getElem (List.mem_range.1 hi),
      Option.getD_some]
  · have hedge := hsound.isClosed _ _ ⟨e, he, rfl, rfl⟩
    exact ⟨List.mem_range.2 hedge.1, List.mem_range.2 hedge.2⟩
  · simp only [Draft.edgesFrom, Draft.edgesTo, List.mem_map, List.mem_filter, beq_iff_eq, Prod.mk.injEq]
    tauto
  · rw [hnext, hprior]
    exact ⟨rfl, (hsimple.nodup i).1, rfl, (hsimple.nodup i).2⟩
  · refine List.eq_nil_iff_forall_not_mem.2 fun i hi => ?_
    exact (hsound.edge _ _ (ControlGraph.mem_next_iff.1 (ControlGraph.mem_prior_iff.1 hi))).2.2.2 rfl
  · exact List.eq_nil_iff_forall_not_mem.2 fun i hi => (hsound.edge _ _ (ControlGraph.mem_next_iff.1 hi)).2.1 rfl

/--
Questions about ways through the graph of a callable are answered exactly, whatever the table of closures keeps from
earlier questions: a point reaches those to which a path of edges leads, it strictly reaches those to which one with
an edge leads, and the dead points are those to which none leads from the entry.
-/
theorem reachability_is_exact (c : ControlFlow) (spliced : Bool) (f : CallableId) (g : ControlGraph)
    (h : (c.controlGraph? spliced f).outcome = .ok (some g)) (known : Memo (Graph.closure g.nexts.get g.points.size)) :
    let k : ControlGraph := { g with closures := known }
    (∀ i j, k.reaches i j = true ↔ Relation.ReflTransGen g.HasEdge i j) ∧
      (∀ i j, k.strictlyReaches i j = true ↔ Relation.TransGen g.HasEdge i j) ∧
      ∀ i, i ∈ k.dead ↔ i ∈ g.indices ∧ ¬Relation.ReflTransGen g.HasEdge Draft.entry i := by
  intro k
  have hsound : k.Sound := show g.Sound from sound_of_controlGraph? h
  have hedges : (fun i j => j ∈ k.next i) = g.HasEdge := by
    funext i j
    exact propext ControlGraph.mem_next_iff
  rw [← hedges]
  exact ⟨fun _ _ => ControlGraph.reaches_iff_reflTransGen hsound.isClosed,
    fun _ _ => ControlGraph.strictlyReaches_iff hsound, fun _ => ControlGraph.mem_dead_iff hsound.isClosed⟩

end ControlFlow

/-! Samples are put together from the following nodes. -/

namespace Sample

def node (kind : Kind) (parent : Option NodeId) (role : String) (slots : List (String × Slot))
    (fields : Fields) : Node where
  unit := 0
  kind := kind
  fields := fields
  parent := parent
  role := role
  position := none
  slots := slots

def held (role : String) : List NodeId → List (String × Slot)
  | [] => []
  | children => [(role, .many (children.map some))]

def named (kind : Kind) (parent : NodeId) (role name : String) : Node :=
  node kind (some parent) role [] [("name", .text name)]

def unit (declarations : List NodeId) : Node :=
  node .sourceUnit none "" (held "nodes" declarations) []

def contract (name : String) (bases declarations : List NodeId) : Node :=
  { named .contractDefinition 0 "nodes" name with
    slots := held "baseContracts" bases ++ held "nodes" declarations }

def base (contract path : NodeId) : Node :=
  node .inheritanceSpecifier (some contract) "baseContracts" [("baseName", .one path)] []

def basePath (base : NodeId) (name : String) : Node :=
  named .identifierPath base "baseName" name

def function (parent parameters body : NodeId) (name : String) : Node :=
  { named .functionDefinition parent "nodes" name with
    slots := [("parameters", .one parameters), ("body", .one body)] }

def bodied (kind : Kind) (parent body : NodeId) (name : String) : Node :=
  { named kind parent "nodes" name with slots := [("body", .one body)] }

def parameterList (parent : NodeId) (parameters : List NodeId) : Node :=
  node .parameterList (some parent) "parameters" (held "parameters" parameters) []

def parameter (parent : NodeId) (name : String) : Node :=
  named .variableDeclaration parent "parameters" name

def block (parent : NodeId) (statements : List NodeId) : Node :=
  node .block (some parent) "body" (held "statements" statements) []

def statement (block expression : NodeId) : Node :=
  node .expressionStatement (some block) "statements" [("expression", .one expression)] []

def call (parent callee : NodeId) (arguments : List NodeId) : Node :=
  node .functionCall (some parent) "expression" (("expression", .one callee) :: held "arguments" arguments) []

def assign (parent target value : NodeId) : Node :=
  node .assignment (some parent) "expression" [("leftHandSide", .one target), ("rightHandSide", .one value)]
    [("operator", .text "=")]

def index (parent : NodeId) (role : String) (container position : NodeId) : Node :=
  node .indexAccess (some parent) role [("baseExpression", .one container), ("indexExpression", .one position)] []

def identifier (parent : NodeId) (role name : String) : Node :=
  named .identifier parent role name

def literal (parent : NodeId) (role value : String) : Node :=
  node .literal (some parent) role [] [("value", .text value)]

def arenaOf (nodes : Array Node) (ordered : Arena.Ordered nodes) : Arena :=
  ⟨nodes, #[⟨.text "sample.sol", [], 0⟩], ordered⟩

def mention (parent : NodeId) (role : String) (decl : NodeId) : Node :=
  node .identifier (some parent) role [] [("referencedDeclaration", .int decl)]

/-! A small program: a function with one parameter `a` whose body is `while (a) a = a; return a;`. -/

def nodes : Array Node := #[
  node .functionDefinition none "" [("parameters", .one 1), ("body", .one 3)] [],
  parameterList 0 [2],
  node .variableDeclaration (some 1) "parameters" [] [("id", .int 2)],
  block 0 [4, 10],
  node .whileStatement (some 3) "statements" [("condition", .one 5), ("body", .one 6)] [],
  mention 4 "condition" 2,
  node .expressionStatement (some 4) "body" [("expression", .one 7)] [],
  assign 6 8 9,
  mention 7 "leftHandSide" 2,
  mention 7 "rightHandSide" 2,
  node .returnStatement (some 3) "statements" [("expression", .one 11)] [],
  mention 10 "expression" 2]

def arena : Arena :=
  arenaOf nodes (by decide +kernel)

def callable : Callable where
  name := .text "f"
  kind := .freeFunction
  form := .function .pure .null []
  visibility := .internally
  isVirtual := false
  hasOverride := false
  overrideNames := []
  parameters := [⟨.text "a", .text "uint256", 0, 2, .text "", false⟩]
  returns := []
  body := some 3
  node := 0
  contract := none

def outline : Outline where
  arena := arena
  contracts := #[]
  callables := #[callable]
  free := [0]
  issues := []

def program : ControlFlow :=
  let lineage := Lineage.ofProgram (.ofOutline outline)
  .ofCallGraph (.ofLinkage (.ofLineage lineage true)) {}

def condition : Control :=
  .seq .skip (.visit 5)

def assignment : Control :=
  .seq (.seq (.seq (.seq .skip (.visit 8)) (.seq (.seq .skip (.visit 9)) .skip)) (.visit 7))
    (.seq (.visit 6) .skip)

def result : Control :=
  .seq (.seq .skip (.visit 11)) (.seq (.visit 10) (.leave .returns))

def body : Control :=
  .seq (.seq (.visit 4) (.seq .skip (.loop condition assignment .skip))) (.seq result .skip)

theorem mentionControl_eq {n : NodeId} (h : n = 5 ∨ n = 8 ∨ n = 9 ∨ n = 11) :
    arena.expressionControl n = .seq .skip (.visit n) := by
  rw [Arena.expressionControl_eq]
  rcases h with rfl | rfl | rfl | rfl <;> rfl

theorem assignmentControl_eq : arena.statementControl true 6 = assignment := by
  have hwhole : arena.expressionControl 7
      = .seq (.all [arena.expressionControl 8, arena.expressionControl 9]) (.visit 7) := by
    rw [Arena.expressionControl_eq]
    rfl
  have hstatement : arena.statementControl true 6
      = .seq (arena.expressionControl 7) (.seq (.visit 6) .skip) := by
    rw [Arena.statementControl_eq]
    rfl
  rw [hstatement, hwhole, mentionControl_eq (by simp), mentionControl_eq (by simp)]
  rfl

theorem control_eq : program.control 0 = body := by
  have hblock : program.control 0
      = .all [arena.statementControl false 4, arena.statementControl false 10] := by
    show arena.statementControl false 3 = _
    rw [Arena.statementControl_eq]
    rfl
  have hloop : arena.statementControl false 4 = .seq (.visit 4) (.seq .skip
      (.loop (arena.expressionControl 5) (arena.statementControl true 6) .skip)) := by
    rw [Arena.statementControl_eq]
    rfl
  have hresult : arena.statementControl false 10
      = .seq (arena.expressionControl 11) (.seq (.visit 10) (.leave .returns)) := by
    rw [Arena.statementControl_eq]
    rfl
  rw [hblock, hloop, hresult, assignmentControl_eq, mentionControl_eq (by simp),
    mentionControl_eq (by simp)]
  rfl

def graph : ControlGraph :=
  .ofLayers 0 [] body

theorem controlGraph?_eq : (program.controlGraph? false 0).outcome = .ok (some graph) := by
  rw [graph, ← control_eq]
  rfl

theorem condition_leaves_loop_once : (program.controlGraph? false 0).outcome = .ok (some graph) ∧
    graph.next 4 = [5, 9] ∧ (graph.next 4).Nodup ∧ (graph.prior 3).Nodup :=
  have h := ControlFlow.graph_is_consistent program false 0 graph controlGraph?_eq
  ⟨controlGraph?_eq, by decide +kernel, (h.2.2.2.1 4).2.1, (h.2.2.2.1 3).2.2.2⟩

/-- The condition of the loop comes round to itself, the loop does not, and the exit is not dead. -/
theorem condition_reaches_itself : (program.controlGraph? false 0).outcome = .ok (some graph) ∧
    Relation.TransGen graph.HasEdge 4 4 ∧ ¬Relation.TransGen graph.HasEdge 2 2 ∧
    Relation.ReflTransGen graph.HasEdge Draft.entry Draft.exit := by
  have h := ControlFlow.reachability_is_exact program false 0 graph controlGraph?_eq (.upTo _ 3)
  refine ⟨controlGraph?_eq, (h.2.1 4 4).1 (by decide +kernel), fun hpath => ?_, (h.1 0 1).1 (by decide +kernel)⟩
  exact absurd ((h.2.1 2 2).2 hpath) (by decide +kernel)

theorem run_result : graph.Run [0, 2, 3, 4, 9] 9 := by
  have h2 := ControlGraph.Run.entry.step (g := graph) (j := 2) (by decide +kernel)
  have h3 := h2.step (j := 3) (by decide +kernel)
  have h4 := h3.step (j := 4) (by decide +kernel)
  exact h4.step (by decide +kernel)

theorem run_exit : graph.Run [0, 2, 3, 4, 9, 10, 1] 1 := by
  have h10 := run_result.step (j := 10) (by decide +kernel)
  exact h10.step (by decide +kernel)

end Sample

end ContractFlow
