import ContractFlow.Proofs.Flow.Monotone
import ContractFlow.Proofs.Flow.Near

/-! This module shows that no step leads to a comparison, to the logic of truth values or to a deletion. -/

namespace ContractFlow

namespace FlowModel

variable {m : FlowModel} {f : CallableId} {n q : NodeId} {x y : FlowNode}

theorem Inside.isComparison (h : m.Inside f (.expression n)) : m.arena.isComparison n = false := by
  cases h with
  | read _ _ hkind => simp [Arena.isComparison, hkind]

theorem Near.isComparison (h : m.Near q (.expression n)) : m.arena.isComparison n = false := by
  cases h with
  | expression _ _ hcarries => exact hcarries
  | inside _ _ hx => exact hx.isComparison

theorem Keeps.isComparison (h : m.Keeps x (.expression n)) : m.arena.isComparison n = false := by
  cases x with
  | expression k =>
    rcases h with hnear | ⟨decl, heq, -⟩
    · exact hnear.isComparison
    · simp at heq
  | parameter | definition => exact Inside.isComparison h
  | callResult | argument | postUpdate | stateRead => exact Near.isComparison h
  | result | stateWrite => exact h.elim

structure IsCarried (m : FlowModel) (x : FlowNode) : Prop where
  proper : m.IsProper x
  plain : ∀ n, x = .expression n → m.arena.isComparison n = false

theorem Keeps.isCarried (h : m.Keeps x y) : m.IsCarried y :=
  ⟨h.isProper, fun _ heq => Keeps.isComparison (heq ▸ h)⟩

theorem JumpRule.isCarried (h : m.JumpRule x y) : m.IsCarried y := by
  obtain ⟨hproper, hnone⟩ := h.isProper
  refine ⟨hproper, ?_⟩
  rintro n rfl
  simp [FlowNode.expression?] at hnone

theorem IsListed.exists_isPlace (h : m.IsListed x) : ∃ b, m.Bounds b ∧ m.IsPlace b x := by
  cases x with
  | expression n =>
    obtain ⟨b, hlt, hb⟩ := m.exists_bounds n
    exact ⟨b, hb, hlt⟩
  | parameter f i =>
    obtain ⟨b, hlt, hb⟩ := m.exists_bounds i
    cases h with
    | parameter hf => exact ⟨b, hb, hf, hlt⟩
    | below _ hx => exact hx.isAt.elim
  | definition f d =>
    obtain ⟨b, hlt, hb⟩ := m.exists_bounds d
    cases h with
    | definition hf => exact ⟨b, hb, hf, hlt⟩
    | below _ hx => exact hx.isAt.elim
  | result f i =>
    obtain ⟨b, hlt, hb⟩ := m.exists_bounds i.natAbs
    cases h with
    | result hf => exact ⟨b, hb, hf, hlt⟩
    | below _ hx => exact hx.isAt.elim
  | callResult n i | argument n i =>
    obtain ⟨b, hlt, hb⟩ := m.exists_bounds (max n i.natAbs)
    exact ⟨b, hb, max_lt_iff.1 hlt⟩
  | postUpdate n d | stateRead n d | stateWrite n d =>
    obtain ⟨b, hlt, hb⟩ := m.exists_bounds (max n d)
    exact ⟨b, hb, max_lt_iff.1 hlt⟩

end FlowModel

namespace FlowGraph

variable {g : FlowGraph} {x y : FlowNode} {n : NodeId} {o : Option CallableId}

theorem Occurs.exists_isPlace (h : g.Occurs x o) : ∃ b, g.Bounds b ∧ g.IsPlace b x := by
  -- the bound of the listed flow node that the steps start from does for all of them
  induction h with
  | listed hx => exact (isListed_of_mem_nodes hx).exists_isPlace
  | inner _ hy ih =>
    obtain ⟨b, hb, hx⟩ := ih
    refine ⟨b, hb, ?_⟩
    rcases hy.mem_flows with hy | hy
    · exact (FlowModel.localRule_of_mem hy).isPlace hb hx
    · exact (FlowModel.taintRule_of_mem hy).isPlace hb hx
  | jump _ hy ih =>
    obtain ⟨b, hb, hx⟩ := ih
    exact ⟨b, hb, (FlowModel.jumpRule_of_mem (mem_jumpFlows hy)).isPlace hb hx⟩

section Plain

variable {p : Policy} {mode : FlowMode} {change : Int} {b : Nat}
  (hp : ∀ x, (p.flowSteps x).getD [] = [] ∧ (p.taintSteps x).getD [] = [])

include hp

theorem keepsPlaces_of_plain (b : Nat) : g.KeepsPlaces p b where
  flow x _ ys hys := by
    obtain rfl := (Query.getD_eq_of_outcome hys).symm.trans (hp x).1
    exact .nil
  taint x _ ys hys := by
    obtain rfl := (Query.getD_eq_of_outcome hys).symm.trans (hp x).2
    exact .nil

theorem StepsTo.isCarried (h : g.StepsTo p mode x y change) (hx : g.IsProper x) : g.IsCarried y := by
  cases h with
  | inside hy => exact ((FlowModel.localRule_of_mem hy).keeps hx).isCarried
  | jump hy => exact (FlowModel.jumpRule_of_mem hy).isCarried
  | taint hy => exact ((FlowModel.taintRule_of_mem hy).keeps hx).isCarried
  | added hy => exact absurd ((hp x).1 ▸ hy) List.not_mem_nil
  | addedTaint hy => exact absurd ((hp x).2 ▸ hy) List.not_mem_nil

theorem isCarried_of_reaches {source : FlowNode} {r : FlowReach} (hsource : g.Occurs source o)
    (hr : (g.reach p mode source).outcome = .ok r) (hx : r.reaches x = true) : x = source ∨ g.IsCarried x := by
  obtain ⟨b, hb, hplace⟩ := hsource.exists_isPlace
  -- the source may be a comparison itself, so that it has to be let through
  have hfinite : {x | g.IsPlace b x ∧ (x = source ∨ g.IsCarried x)}.Finite :=
    (g.finite_isPlace b).subset fun _ hx => hx.1
  have hmem : x ∈ {x | g.IsPlace b x ∧ (x = source ∨ g.IsCarried x)} := by
    refine mem_of_reaches hfinite ⟨hplace, .inl rfl⟩ ?_ hr hx
    rintro x ⟨hplace, hx⟩ y change hstep
    have hproper : g.IsProper x := by
      rcases hx with rfl | hx
      · exact hsource.isProper
      · exact hx.proper
    exact ⟨hstep.isPlace hb (keepsPlaces_of_plain hp b) hplace, .inr (hstep.isCarried hp hproper)⟩
  exact hmem.2

end Plain

/--
No step leads from a flow node that occurs in a program to a comparison, a logical operation or a deletion. Unless a
policy adds steps, a search reaches one of them only as its source.
-/
theorem comparisons_carry_no_value (g : FlowGraph) :
    (∀ x o, g.Occurs x o → ∀ steps ∈ [g.localSteps, g.jumpSteps, g.taintSteps],
      ∃ ys, (steps x).outcome = .ok ys ∧ ∀ n, .expression n ∈ ys → g.arena.isComparison n = false) ∧
    ∀ (p : Policy) (mode : FlowMode) (source : FlowNode) (o : Option CallableId) (r : FlowReach),
      (∀ x, (p.flowSteps x).getD [] = [] ∧ (p.taintSteps x).getD [] = []) → g.Occurs source o →
      (g.reach p mode source).outcome = .ok r →
      ∀ n, g.arena.isComparison n = true → r.reaches (.expression n) = true → source = .expression n := by
  refine ⟨fun x o hx steps hsteps => ?_, fun p mode source o r hp hsource hr n hn hreaches => ?_⟩
  · have hproper := hx.isProper
    simp only [List.mem_cons, List.not_mem_nil, or_false] at hsteps
    rcases hsteps with rfl | rfl | rfl
    · refine ⟨_, g.outcome_localSteps x, fun n hn => ?_⟩
      exact ((FlowModel.localRule_of_mem (mem_distinct_iff.1 hn)).keeps hproper).isComparison
    · refine ⟨_, g.outcome_jumpSteps x, fun n hn => ?_⟩
      exact (FlowModel.jumpRule_of_mem (mem_distinct_iff.1 hn)).isCarried.plain n rfl
    · refine ⟨_, g.outcome_taintSteps x, fun n hn => ?_⟩
      exact ((FlowModel.taintRule_of_mem (mem_distinct_iff.1 hn)).keeps hproper).isComparison
  · rcases isCarried_of_reaches hp hsource hr hreaches with heq | hcarried
    · exact heq.symm
    · simp [hcarried.plain n rfl] at hn

end FlowGraph

/-! A function `f(x)` with the body `x + x < x;`. -/

namespace Comparing

open Sample

def nodes : Array Node := #[
  unit [1],
  function 0 2 4 "f",
  parameterList 1 [3],
  node .variableDeclaration (some 2) "parameters" [] [("name", .text "x"), ("id", .int 3)],
  block 1 [5],
  statement 4 6,
  node .binaryOperation (some 5) "expression" [("leftExpression", .one 7), ("rightExpression", .one 10)]
    [("operator", .text "<")],
  node .binaryOperation (some 6) "leftExpression" [("leftExpression", .one 8), ("rightExpression", .one 9)]
    [("operator", .text "+")],
  mention 7 "leftExpression" 3,
  mention 7 "rightExpression" 3,
  mention 6 "rightExpression" 3]

def arena : Arena :=
  arenaOf nodes (by decide +kernel)

def analysis : FlowGraph :=
  Session.analyse arena {} {}

theorem occurs_parameter : analysis.Occurs (.parameter 0 0) (some 0) :=
  .listed (x := .parameter 0 0) (by decide +kernel)

theorem leads_sum : (analysis.rules Sample.openPolicy .taint).Leads 2 (.parameter 0 0) (.expression 7) 0 := by
  have hstep {x y : FlowNode}
      (hx : (analysis.rules Sample.openPolicy .taint).Leads 2 (.parameter 0 0) x 0)
      (hy : y ∈ (analysis.localFlows x).getD []) :
      (analysis.rules Sample.openPolicy .taint).Leads 2 (.parameter 0 0) y 0 := by
    obtain ⟨steps, hsteps⟩ := FlowGraph.exists_steps (g := analysis) Sample.isTotal_openPolicy .taint x
    exact .step hx hsteps ((FlowGraph.mem_steps_iff hsteps).2 (.inside hy)) rfl rfl (by decide)
  have hdefinition := hstep (y := .definition 0 0) .start (by decide +kernel)
  have hoperand := hstep (y := .expression 8) hdefinition (by decide +kernel)
  exact hstep hoperand (by decide +kernel)

theorem sum_carries_and_comparison_does_not :
    ∃ r, (analysis.reach Sample.openPolicy .taint (.parameter 0 0)).outcome = .ok r ∧
      r.reaches (.expression 7) = true ∧ r.reaches (.expression 6) = false := by
  obtain ⟨b, hb, hplace⟩ := occurs_parameter.exists_isPlace
  have hfinite : {x | Relation.ReflTransGen (analysis.rules Sample.openPolicy .taint).Step (.parameter 0 0) x}.Finite :=
    FlowGraph.finite_reachable hb ⟨fun _ _ => .pure .nil, fun _ _ => .pure .nil⟩ hplace
  have hends : FlowSearch.Ends ⟨analysis, Sample.openPolicy, .taint⟩ (.parameter 0 0) :=
    FlowGraph.exists_queue_eq_nil (show _ = Value.int 2 from rfl) Sample.isTotal_openPolicy hfinite
  obtain ⟨r, hr, hreaches⟩ := FlowSearch.exists_reach (t := ⟨analysis, Sample.openPolicy, .taint⟩)
    ⟨rfl, rfl, Sample.isTotal_openPolicy, _, rfl⟩ hends
  refine ⟨r, hr, (hreaches _).2 ⟨0, leads_sum⟩, ?_⟩
  rw [Bool.eq_false_iff]
  intro hreaches
  have heq := (FlowGraph.comparisons_carry_no_value analysis).2 Sample.openPolicy .taint (.parameter 0 0) (some 0) r
    (fun _ => ⟨rfl, rfl⟩) occurs_parameter hr 6 (by decide +kernel) hreaches
  simp at heq

end Comparing

end ContractFlow
