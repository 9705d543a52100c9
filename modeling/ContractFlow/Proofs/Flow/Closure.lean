import ContractFlow.Proofs.Call.Edge
import ContractFlow.Proofs.Flow.LocalStep

/-!
This module shows that steps lead from listed flow nodes to listed ones, but for a few kinds that the list leaves out.
-/

namespace ContractFlow

namespace FlowModel

variable {m : FlowModel} {f : CallableId} {n call decl : NodeId} {x y : FlowNode} {i : Int}

theorem le_foldl_max {xs : List Nat} {b k : Nat} (hk : k ≤ b ∨ ∃ x ∈ xs, k ≤ x) : k ≤ xs.foldl max b := by
  rw [List.foldl_max, le_max_iff]
  exact hk.imp_right fun ⟨x, hx, hle⟩ => hle.trans (List.le_max?_getD_of_mem hx)

theorem lt_resultArity {k arity : Nat} (hcontainer : m.arena.container? call = none) {es : List CallEdge}
    (hes : (m.edges call).outcome = .ok es)
    (hk : k = 0 ∨ ∃ e ∈ es, ∃ f, e.callee = some f ∧ k < (m.callableD f).returns.length)
    (harity : (m.resultArity call).outcome = .ok arity) : k < arity := by
  unfold resultArity at harity
  rw [hcontainer] at harity
  obtain ⟨callees, hcallees, harity⟩ := Query.outcome_bind_eq_ok.1 harity
  obtain rfl := Except.ok.inj harity
  obtain ⟨es', hes', hcallees⟩ := Query.outcome_bind_eq_ok.1 hcallees
  obtain rfl := Except.ok.inj (hes.symm.trans hes')
  obtain rfl := Except.ok.inj hcallees
  apply le_foldl_max
  rcases hk with rfl | ⟨e, he, f, hf, hk⟩
  · exact .inl (Nat.le_refl 1)
  · exact .inr ⟨_, List.mem_map_of_mem (List.mem_filterMap.2 ⟨e, he, hf⟩), hk⟩

theorem lands_callResult {kind : CallKind} {k : Nat} (hk : m.arena.kind call = .functionCall)
    (hkind : (m.callKind call).outcome = .ok kind) (hvalue : isValueCall kind = false)
    (hevent : kind ≠ .event ∧ kind ≠ .error) (harity : m.arena.container? call = none →
      ∃ arity, (m.resultArity call).outcome = .ok arity ∧ k < arity) :
    m.IsListed (.callResult call k) ∨ m.Escapes (.callResult call k) := by
  by_cases hplaced : m.IsPlaced call
  · cases hcontainer : m.arena.container? call with
    | none =>
      obtain ⟨arity, harity, hlt⟩ := harity hcontainer
      exact .inl (.below hplaced (.call hk hkind hvalue (.result hevent harity hlt)))
    | some container =>
      by_cases hlt : k < (m.arena.slots container).length
      · refine .inl (.below hplaced (.call hk hkind hvalue (.result hevent ?_ hlt)))
        unfold resultArity
        rw [hcontainer]
        rfl
      · exact .inr (.untaken hcontainer (Int.ofNat_le.2 (Nat.le_of_not_lt hlt)))
  · exact .inr (.outside hplaced)

section Jump

theorem lands_stateRead (hread : m.stateReadOf n = .ok (some decl)) :
    m.IsListed (.stateRead n decl) ∨ m.Escapes (.stateRead n decl) := by
  by_cases hplaced : m.IsPlaced n
  · exact .inl (.below hplaced (.read (Program.kind_of_stateReadOf hread) hread))
  · exact .inr (.read hplaced)

variable (h : m.IsGrounded)

include h

theorem JumpRule.lands (hrule : m.JumpRule x y) (hx : m.IsListed x) : m.IsListed y ∨ m.Escapes y := by
  cases hrule with
  | parameter hf hk => exact .inl (.parameter hf hk)
  | @caller f i site es e hsite hes he hcallee =>
    have hresult : ∃ k < (m.callableD f).returns.length, (k : Int) = i := by
      cases hx with
      | result _ hk => exact ⟨_, hk, rfl⟩
      | below _ hx => exact absurd hx.isAt id
    obtain ⟨k, hk, rfl⟩ := hresult
    obtain ⟨heq, hfunction⟩ := Linkage.site_of_mem_edges hes he
    have hkind := hfunction (by rw [hcallee]; rfl)
    rw [heq]
    refine lands_callResult hsite hkind rfl (by decide) fun hcontainer => ?_
    obtain ⟨arity, harity, -⟩ := answers_resultArity h.legible site
    exact ⟨arity, harity, lt_resultArity hcontainer hes (.inr ⟨e, he, f, hcallee, hk⟩) harity⟩
  | state hread => exact lands_stateRead hread

end Jump

section Taint

theorem eq_of_append_dot {base member : String} (h : base ++ "." ++ member = ".push") :
    base = "" ∧ member = "push" := by
  have hchars : base.toList ++ '.' :: member.toList = ['.', 'p', 'u', 's', 'h'] := by
    simpa using congrArg String.toList h
  cases hbase : base.toList with
  | nil =>
    rw [hbase, List.nil_append, List.cons.injEq] at hchars
    exact ⟨String.toList_inj.1 hbase, String.toList_inj.1 (hchars.2.trans rfl)⟩
  | cons c cs =>
    -- the second dot would be one of the letters
    rw [hbase, List.cons_append, List.cons.injEq] at hchars
    have hdot : '.' ∈ ['p', 'u', 's', 'h'] := hchars.2 ▸ List.mem_append_right _ List.mem_cons_self
    exact absurd hdot (by decide)

variable (h : m.IsGrounded)

include h

theorem memberName_of_push {base : NodeId} (hname : (m.arena.calledName call == ".push") = true)
    (hbase : m.arena.receiver? call = some base) :
    (m.arena.memberName call == "push") = true ∧ m.arena.kind base ≠ .identifier := by
  obtain ⟨callee, hmember, hchild⟩ := Option.bind_eq_some_iff.1 hbase
  obtain ⟨hcallee, haccess⟩ := Option.filter_eq_some_iff.1 hmember
  have haccess : m.arena.kind callee = .memberAccess := eq_of_beq haccess
  have hname := Value.eq_text_of_beq hname
  unfold Arena.calledName at hname
  simp only [hcallee, haccess, hchild] at hname
  obtain ⟨hempty, hpush⟩ := eq_of_append_dot (Value.text.inj hname)
  have htext (n : NodeId) : m.arena.text n = .text (m.arena.text n).display := by
    obtain ⟨t, ht⟩ := Value.exists_eq_text (Arena.isText_text h.legible.arena n)
    rw [ht]
    rfl
  refine ⟨?_, fun hidentifier => ?_⟩
  · rw [Arena.memberName, hmember, Option.map_some, htext, hpush]
    exact BEq.rfl
  · have hlt := (m.arena.lt_of_child? hchild).2
    have hholds := h.shaped.names base hlt hidentifier
    simp only [Option.filter_some, hidentifier, beq_self_eq_true, Bool.true_or, if_true, Option.map_some,
      Option.getD_some] at hempty
    rw [htext, hempty] at hholds
    simp [Value.holds] at hholds

theorem IsListed.isPlaced_of_argument (hx : m.IsListed (.argument call i))
    (hk : m.arena.kind call = .functionCall) : m.IsPlaced call := by
  rcases hx.argument with ⟨-, houter⟩ | ⟨hplaced, -⟩
  · have := houter h
    rw [hk] at this
    simp [Kind.isOuter] at this
  · exact hplaced

theorem TaintRule.lands (hrule : m.TaintRule x y) (hx : m.IsListed x) : m.IsListed y ∨ m.Escapes y := by
  cases hrule with
  | whole hp hk =>
    refine .inl (isListed_parent h hx.expression.1 hp ?_)
    rcases hk with hk | hk <;> rw [hk] <;> rfl
  | assigned hp hk htarget hy =>
    exact hy.lands (IsPlaced.parent h hx.expression.1 hp (by rw [hk]; rfl) (by simp [hk])) hk htarget
  | @stepped n p _ hp hk htext hy =>
    rcases hy with ⟨decl, hy⟩ | hy
    · exact hy.lands
    · have hplaced : m.IsPlaced p := IsPlaced.parent h hx.expression.1 hp (by rw [hk]; rfl) (by simp [hk])
      obtain ⟨ys, hys, hmem⟩ := hy.writes.exists_mem
      have hoperand := h.shaped.operand n (Arena.lt_size_of_parent? hp) p hp hk
      refine .inl (.below hplaced (.stepped hk ?_ hoperand hys hmem))
      revert htext
      cases m.arena.text p <;> simp [Value.isOneOf]
      tauto
  | @mixed call i hk hcallKind =>
    refine lands_callResult (k := 0) hk hcallKind rfl (by decide) fun hcontainer => ?_
    obtain ⟨arity, harity, -⟩ := answers_resultArity h.legible call
    obtain ⟨es, hes, -⟩ := Linkage.answers_edges h.legible call
    exact ⟨arity, harity, lt_resultArity hcontainer hes (.inl rfl) harity⟩
  | result hk hcallKind hmade harity hlt =>
    have hplaced := hx.isPlaced_of_argument h hk
    rcases hmade with rfl | rfl
    · exact .inl (.below hplaced (.call hk hcallKind rfl (.result (by decide) harity hlt)))
    · exact .inl (.below hplaced (.call hk hcallKind rfl (.result (by decide) harity hlt)))
  | pushed hk hcallKind hname hbase hy =>
    obtain ⟨ys, hys, hmem⟩ := hy.exists_mem
    refine .inl (.below (hx.isPlaced_of_argument h hk) (.call hk hcallKind rfl ?_))
    exact .pushed rfl (memberName_of_push h hname hbase).1 hbase hys hmem
  | extended _ hname hbase hdecl =>
    exact absurd (Program.kind_of_findVariable hdecl) (memberName_of_push h hname hbase).2

end Taint

section Flows

variable (h : m.IsGrounded)

include h

theorem gives_land_localFlows (hx : m.IsListed x) : (m.localFlows x).Gives m.AllLand :=
  fun ys hys y hy => (gives_localRule x ys hys y hy).lands h hx

theorem gives_land_jumpFlows (hx : m.IsListed x) : (m.jumpFlows x).Gives m.AllLand :=
  fun ys hys y hy => (gives_jumpRule x ys hys y hy).lands h hx

theorem gives_land_taintFlows (hx : m.IsListed x) : (m.taintFlows x).Gives m.AllLand :=
  fun ys hys y hy => (gives_taintRule x ys hys y hy).lands h hx

end Flows

end FlowModel

theorem Session.isGrounded_analyse {a : Arena} (plan : FailurePlan) (settings : Settings)
    (hlegible : a.isLegible = true) (hshaped : a.IsShaped) : (analyse a plan settings).IsGrounded where
  legible := Outline.isLegible_ofArena plan hlegible
  shaped := hshaped
  callables _ hf := Outline.exists_isModel hf
  contracts _ hc := (Outline.contractD_ofArena hc).1
  stateVariables _ hc := (Outline.contractD_ofArena hc).2.2
  bases _ hc := (Outline.contractD_ofArena hc).2.1

/-- The steps from the listed flow nodes lead to listed ones again, but for those that escape. -/
theorem Session.listed_unless_escapes (a : Arena) (plan : FailurePlan) (settings : Settings)
    (hlegible : a.isLegible = true) (hshaped : a.IsShaped) :
    ∃ nodes, (analyse a plan settings).nodes.outcome = .ok nodes ∧
      ∀ x ∈ nodes, ∀ steps ∈ [(analyse a plan settings).localSteps, (analyse a plan settings).jumpSteps,
        (analyse a plan settings).taintSteps], ∃ ys, (steps x).outcome = .ok ys ∧
          ∀ y ∈ ys, y ∈ nodes ↔ ¬ (analyse a plan settings).Escapes y := by
  have hgrounded := isGrounded_analyse plan settings hlegible hshaped
  obtain ⟨nodes, hnodes, -⟩ := FlowModel.answers_listNodes hgrounded.legible
  have hlisted (y : FlowNode) : y ∈ nodes ↔ (analyse a plan settings).IsListed y :=
    FlowModel.mem_listNodes_iff hgrounded.legible hnodes
  refine ⟨nodes, by rw [FlowGraph.nodes_eq]; exact hnodes, fun x hx steps hsteps => ?_⟩
  have hx := (hlisted x).1 hx
  have hland {q : Query (List FlowNode)} (hq : q.Gives (analyse a plan settings).AllLand) :
      ∀ y ∈ distinct (q.getD []), y ∈ nodes ↔ ¬ (analyse a plan settings).Escapes y := by
    intro y hy
    obtain ⟨ys, hys, hy⟩ := Query.mem_getD_nil_iff.1 (mem_distinct_iff.1 hy)
    rw [hlisted y]
    refine ⟨fun hy hescapes => hescapes.not_isListed hy, fun hescapes => ?_⟩
    exact (hq ys hys y hy).resolve_right hescapes
  simp only [List.mem_cons, List.not_mem_nil, or_false] at hsteps
  rcases hsteps with rfl | rfl | rfl
  · exact ⟨_, FlowGraph.outcome_localSteps _ x, hland (FlowModel.gives_land_localFlows hgrounded hx)⟩
  · exact ⟨_, FlowGraph.outcome_jumpSteps _ x, hland (FlowModel.gives_land_jumpFlows hgrounded hx)⟩
  · exact ⟨_, FlowGraph.outcome_taintSteps _ x, hland (FlowModel.gives_land_taintFlows hgrounded hx)⟩

/-! A contract with a function `f(x)` that has no body and a function `g(y)` with the body `y;`. -/

namespace Bodiless

open Sample

def nodes : Array Node := #[
  unit [1],
  contract "C" [] [2, 5],
  node .functionDefinition (some 1) "nodes" [("parameters", .one 3)] [("name", .text "f")],
  parameterList 2 [4],
  parameter 3 "x",
  function 1 6 8 "g",
  parameterList 5 [7],
  parameter 6 "y",
  block 5 [9],
  statement 8 10,
  identifier 9 "expression" "y"]

def arena : Arena :=
  arenaOf nodes (by decide +kernel)

def analysis : FlowGraph :=
  Session.analyse arena {} {}

theorem isShaped : arena.IsShaped where
  linked := by decide +kernel
  outer := by decide +kernel
  modifiers := by decide +kernel
  bases := by decide +kernel
  expression := by decide +kernel
  operand := by decide +kernel
  arguments := by decide +kernel
  names := by decide +kernel

/-- The definition that the parameter of `f` goes to is not listed; that of the parameter of `g` is. -/
theorem listed_unless_escapes_bodiless : ∃ nodes, analysis.nodes.outcome = .ok nodes ∧
    (∃ ys, (analysis.localSteps (.parameter 0 0)).outcome = .ok ys ∧ .definition 0 0 ∈ ys) ∧
    .definition 0 0 ∉ nodes ∧
    (∃ ys, (analysis.localSteps (.parameter 1 0)).outcome = .ok ys ∧ .definition 1 0 ∈ ys) ∧
    .definition 1 0 ∈ nodes := by
  have hfacts : FlowNode.parameter 0 0 ∈ analysis.nodes.getD [] ∧ FlowNode.parameter 1 0 ∈ analysis.nodes.getD [] ∧
      FlowNode.definition 0 0 ∈ (analysis.localSteps (.parameter 0 0)).getD [] ∧
      FlowNode.definition 1 0 ∈ (analysis.localSteps (.parameter 1 0)).getD [] ∧
      (analysis.callableD 0).isImplemented = false ∧ (analysis.callableD 1).isImplemented = true := by
    decide +kernel
  obtain ⟨hf, hg, hstep, hstep', hbodiless, hbody⟩ := hfacts
  obtain ⟨nodes, hnodes, h⟩ := Session.listed_unless_escapes arena {} {} (by decide +kernel) isShaped
  change analysis.nodes.outcome = .ok nodes at hnodes
  rw [Query.getD_eq_of_outcome hnodes] at hf hg
  obtain ⟨ys, hys, hiff⟩ := h _ hf analysis.localSteps List.mem_cons_self
  obtain ⟨zs, hzs, hiff'⟩ := h _ hg analysis.localSteps List.mem_cons_self
  rw [Query.getD_eq_of_outcome hys] at hstep
  rw [Query.getD_eq_of_outcome hzs] at hstep'
  refine ⟨nodes, hnodes, ⟨ys, hys, hstep⟩, fun hmem => (hiff _ hstep).1 hmem (.definition hbodiless),
    ⟨zs, hzs, hstep'⟩, (hiff' _ hstep').2 fun hescapes => ?_⟩
  cases hescapes with
  | definition hf =>
    change (analysis.callableD 1).isImplemented = false at hf
    simp [hbody] at hf

end Bodiless

end ContractFlow
