import ContractFlow.Proofs.Flow.Step
import ContractFlow.Proofs.Flow.Target
import ContractFlow.Proofs.Ssa.Site
import ContractFlow.Session

/-! This module shows where an assigned value goes. -/

namespace ContractFlow

namespace Arena

variable {a : Arena} {t n : NodeId}

inductive InParentheses (a : Arena) (t : NodeId) : NodeId → Prop
  | bare : InParentheses a t t
  | parentheses {n inner : NodeId} : a.kind n = .tupleExpression → a.entries n "components" = [some inner] →
      InParentheses a t inner → InParentheses a t n

theorem InParentheses.kind_eq_iff (h : a.InParentheses t n) (ht : a.kind t ≠ .tupleExpression) :
    a.kind n = .tupleExpression ↔ n ≠ t := by
  cases h with
  | bare => simp [ht]
  | parentheses hkind _ _ => exact ⟨fun _ heq => ht (heq ▸ hkind), fun _ => hkind⟩

end Arena

namespace Program

variable {p : Program} {t n x : NodeId}

theorem isState_or_isLocal (hkind : p.arena.kind x = .variableDeclaration) :
    p.isState x = true ∨ p.isLocal x = true := by
  have hscope : p.scope? x ≠ none := by
    unfold scope?
    simp only [hkind]
    split
    · simp_all
    · split
      · simp
      · split <;> simp
  obtain ⟨scope, hscope⟩ := Option.ne_none_iff_exists'.1 hscope
  rw [isState, isLocal, hscope]
  cases scope <;> simp

theorem assignedLocals_of_inParentheses (h : p.arena.InParentheses t n) : p.assignedLocals n = p.assignedLocals t := by
  induction h with
  | bare => rfl
  | @parentheses n inner hkind hentries _ ih =>
    have hitems : p.arena.items n "components" = [inner] := by simp [Arena.items, hentries]
    rw [assignedLocals, if_pos (by simp [hkind]), List.flatMap_subtype (g := p.assignedLocals) (by simp),
      hitems]
    simpa using ih

theorem writesAt_of_inParentheses {target : NodeId} (hkind : p.arena.kind n = .assignment)
    (htarget : p.arena.child? n "leftHandSide" = some target) (h : p.arena.InParentheses t target)
    (hx : p.localOf? t = some x) : p.writesAt n = [⟨x, .assignment, n⟩] := by
  have ht : p.arena.kind t ≠ .tupleExpression := by
    intro htuple
    simp [localOf?, variableOf?, htuple] at hx
  have hlocals : p.assignedLocals t = [x] := by
    rw [assignedLocals, if_neg (by simpa using ht), hx]
    rfl
  unfold writesAt
  simp only [hkind, htarget]
  rw [assignedLocals_of_inParentheses h, hlocals]
  rfl

end Program

namespace FlowModel

variable {m : FlowModel} {s : SsaForm} {site n target t root decl x : NodeId} {y : FlowNode} {i : Nat}

/-- What an assignment at `site` to the path `t` changes, where `s` is the form around it. -/
inductive Changes (m : FlowModel) (s : SsaForm) (site t : NodeId) : FlowNode → Prop
  | whole {x : NodeId} {d : Nat} (hx : m.findVariable t = .ok (some x)) (hlocal : m.isLocal x = true)
      (hd : s.definitionAt? site x = some d) : Changes m s site t (definitionNode s d)
  | state {root decl : NodeId} (hpath : m.arena.IsPath root t) (hdecl : m.findVariable root = .ok (some decl))
      (hstate : m.isState decl = true) : Changes m s site t (.stateWrite site decl)
  | element {root decl : NodeId} (hpath : m.arena.IsPath root t) (hne : t ≠ root)
      (hdecl : m.findVariable root = .ok (some decl)) (hlocal : m.isLocal decl = true) :
      Changes m s site t (.postUpdate root site)

theorem outcome_definitionTarget {d : Nat} (hs : (m.formAround site).outcome = .ok (some s))
    (hd : s.definitionAt? site x = some d) : (m.definitionTarget site x).outcome = .ok [definitionNode s d] := by
  unfold definitionTarget
  rw [Query.outcome_bind_ok hs]
  simp [hd]

theorem outcome_assignmentTargets (hs : (m.formAround site).outcome = .ok (some s))
    (ht : m.arena.kind t ≠ .tupleExpression) (hy : m.Changes s site t y) :
    (m.assignmentTargets t site).outcome = .ok [y] := by
  have hfound {root decl : NodeId} (hdecl : m.findVariable root = .ok (some decl)) :
      (liftM (m.findVariable root) : Query _).outcome = .ok (some decl) := hdecl
  unfold assignmentTargets
  rw [if_neg (by simpa using ht)]
  cases hy with
  | whole hx hlocal hd =>
    have hroot := (Arena.IsPath.name (Program.kind_of_findVariable hx)).rootExpression?
    simp only [hroot]
    rw [Query.outcome_bind_ok (hfound hx)]
    simp [Program.isState_of_isLocal hlocal, hlocal, outcome_definitionTarget hs hd]
  | state hpath hdecl hstate =>
    simp only [hpath.rootExpression?]
    rw [Query.outcome_bind_ok (hfound hdecl)]
    simp [hstate]
  | element hpath hne hdecl hlocal =>
    simp only [hpath.rootExpression?]
    rw [Query.outcome_bind_ok (hfound hdecl)]
    simp [Program.isState_of_isLocal hlocal, hlocal, hne.symm]

theorem exists_changes (hs : (m.formAround n).outcome = .ok (some s)) (hn : s.graph.node? i = some n)
    (hi : s.graph.isLive i = true) (hkind : m.arena.kind n = .assignment)
    (htarget : m.arena.child? n "leftHandSide" = some target) (ht : m.arena.InParentheses t target)
    (hpath : m.arena.IsPath root t) (hroot : m.findVariable root = .ok (some decl)) : ∃ y, m.Changes s n t y := by
  have hdecl := Program.kind_of_findVariable_eq hroot
  rcases Program.isState_or_isLocal hdecl with hstate | hlocal
  · exact ⟨_, .state hpath hroot hstate⟩
  · by_cases hne : t = root
    · subst hne
      obtain ⟨f, -, hform⟩ := owner?_of_formAround hs
      obtain ⟨hgraph, -, -, heq⟩ := ValueFlow.outcome_form?_eq_some.1 hform
      have hx : m.localOf? t = some decl := by
        rw [Program.localOf?, Program.findVariable_eq hroot, Option.filter_some, if_pos hlocal]
      have hone : (m.writesAt n).filter (·.variableNode == decl) = [⟨decl, .assignment, n⟩] := by
        rw [Program.writesAt_of_inParentheses hkind htarget ht hx]
        simp
      have hne : n ≠ decl := fun heq => by simp [heq, hdecl] at hkind
      obtain ⟨d, hd, -⟩ := SsaForm.exists_definitionAt?_eq (ControlFlow.sound_of_controlGraph? hgraph)
        (fun j hj => ControlFlow.point_unique hgraph hj hn) hi hn hne hone
      rw [← heq] at hd
      exact ⟨_, .whole hroot hlocal hd⟩
    · exact ⟨_, .element hpath hne hroot hlocal⟩

end FlowModel

/--
The value of a plain assignment goes to the assignment as a whole and to what it changes: a local definition, a state
variable, or the container at the root of a path. If the target stands in parentheses, it only goes to the assignment.
-/
theorem FlowGraph.assigned_value_steps (g : FlowGraph) (s : SsaForm) {n rhs target t root decl : NodeId} {i : Nat}
    (hs : (g.formAround n).outcome = .ok (some s)) (hn : s.graph.node? i = some n) (hi : s.graph.isLive i = true)
    (hkind : g.arena.kind n = .assignment) (hoperator : g.arena.text n = "=")
    (hrhs : g.arena.child? n "rightHandSide" = some rhs) (htarget : g.arena.child? n "leftHandSide" = some target)
    (ht : g.arena.InParentheses t target) (htuple : g.arena.kind t ≠ .tupleExpression)
    (hpath : g.arena.IsPath root t) (hroot : g.findVariable root = .ok (some decl)) :
    (∃ y, g.Changes s n t y) ∧ ∀ y, g.Changes s n t y →
      (g.localSteps (.expression rhs)).outcome =
        .ok (if target = t then [.expression n, y] else [.expression n]) := by
  refine ⟨FlowModel.exists_changes hs hn hi hkind htarget ht hpath hroot, fun y hy => ?_⟩
  obtain ⟨hparent, hrole⟩ := Arena.parent?_of_child? hrhs
  have hflows : (g.localFlows (.expression rhs)).outcome =
      .ok (if target = t then [.expression n, y] else [.expression n]) := by
    show (g.expressionFlows rhs).outcome = _
    unfold FlowModel.expressionFlows
    simp only [hparent, hrole, hkind, hoperator, htarget]
    rw [if_pos (by decide)]
    by_cases heq : target = t
    · subst heq
      rw [if_neg (by simpa using htuple), if_pos rfl,
        Query.outcome_bind_ok (FlowModel.outcome_assignmentTargets hs htuple hy)]
      rfl
    · rw [if_pos (by simpa using (ht.kind_eq_iff htuple).2 heq), if_neg heq]
      rfl
  have hne : y ≠ .expression n := by
    cases hy <;> simp [FlowModel.definitionNode]
  rw [outcome_localSteps, Query.getD_eq_of_outcome hflows]
  split
  · simp [distinct, hne]
  · rfl

/-! A function with the parameters `x` and `y` and the body `x = y; (x) = y;`. -/

namespace Assigning

open Sample

def nodes : Array Node := #[
  unit [1],
  function 0 2 5 "f",
  parameterList 1 [3, 4],
  parameter 2 "x",
  parameter 2 "y",
  block 1 [6, 7],
  statement 5 8,
  statement 5 9,
  assign 6 10 11,
  assign 7 12 13,
  identifier 8 "leftHandSide" "x",
  identifier 8 "rightHandSide" "y",
  node .tupleExpression (some 9) "leftHandSide" [("components", .many [some 14])] [],
  identifier 9 "rightHandSide" "y",
  identifier 12 "components" "x"]

def arena : Arena :=
  arenaOf nodes (by decide +kernel)

def analysis : FlowGraph :=
  Session.analyse arena {} {}

def form : SsaForm :=
  .ofGraph analysis.toProgram (.ofLayers 0 [] (analysis.control 0))

theorem form?_eq : (analysis.form? 0).outcome = .ok (some form) :=
  ValueFlow.outcome_form?_ofLayers (by decide +kernel) (by decide +kernel) (by decide +kernel)

/-- The value reaches the variable, and not if the variable stands in parentheses. -/
theorem value_stops_at_parentheses :
    (analysis.localSteps (.expression 11)).outcome = .ok [.expression 8, .definition 0 2] ∧
      form.definitionAt? 9 3 = some 3 ∧ (analysis.localSteps (.expression 13)).outcome = .ok [.expression 9] := by
  have hs (n : NodeId) (hn : analysis.owner? n = some 0) : (analysis.formAround n).outcome = .ok (some form) := by
    rw [FlowModel.formAround, hn]
    exact form?_eq
  have hbare : analysis.findVariable 10 = .ok (some 3) := by decide +kernel
  have hinner : analysis.findVariable 14 = .ok (some 3) := by decide +kernel
  have hlocal : analysis.isLocal 3 = true := by decide +kernel
  have hpoints : form.graph.node? 4 = some 8 ∧ form.graph.node? 9 = some 9 := by decide +kernel
  have hlive : form.graph.isLive 4 = true ∧ form.graph.isLive 9 = true := by decide +kernel
  have hfirst : form.definitionAt? 8 3 = some 2 := by decide +kernel
  have hsecond : form.definitionAt? 9 3 = some 3 := by decide +kernel
  have hparentheses : analysis.arena.InParentheses 14 12 := .parentheses rfl rfl .bare
  refine ⟨?_, hsecond, ?_⟩
  · exact (analysis.assigned_value_steps form (hs 8 (by decide +kernel)) hpoints.1 hlive.1 rfl rfl rfl rfl .bare
      (by decide) (.name rfl) hbare).2 _ (.whole hbare hlocal hfirst)
  · exact (analysis.assigned_value_steps form (hs 9 (by decide +kernel)) hpoints.2 hlive.2 rfl rfl rfl rfl hparentheses
      (by decide) (.name rfl) hinner).2 _ (.whole hinner hlocal hsecond)

end Assigning

end ContractFlow
