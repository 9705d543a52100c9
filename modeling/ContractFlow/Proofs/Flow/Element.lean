import ContractFlow.Proofs.Control.Precedence
import ContractFlow.Proofs.Flow.Monotone
import ContractFlow.Proofs.Ssa.Dominance
import ContractFlow.Session

/-! This module shows which reads of a local container see that an element of it is written. -/

namespace ContractFlow

namespace Arena

variable {a : Arena} {root n base : NodeId}

theorem IsPath.isTypeName_eq_false (h : a.IsPath root n) : (a.kind n).isTypeName = false := by
  cases h with
  | name hkind | member hkind | parentheses hkind => simp [hkind, Kind.isTypeName]
  | index hkind => rcases hkind with hkind | hkind <;> simp [hkind, Kind.isTypeName]

theorem IsPath.isBase (h : a.IsPath root base) (hkind : a.kind n ∈ basedKinds) (hbase : base ∈ a.children n)
    (hrole : a.role base ∈ ["baseExpression", "expression", "components", "leftHandSide"]) : a.IsBase n base := by
  refine ⟨hkind, ?_, hrole⟩
  have hmem : base ∈ (a.children n).filter fun c => !(a.kind c).isTypeName :=
    List.mem_filter.2 ⟨hbase, by simp [h.isTypeName_eq_false]⟩
  simp only [basedKinds, List.mem_cons, List.not_mem_nil, or_false] at hkind
  unfold operands
  rcases hkind with hkind | hkind | hkind | hkind | hkind
  all_goals
    rw [hkind]
    exact hmem

theorem IsPath.bases (h : a.IsPath root n) : Relation.ReflTransGen a.IsBase n root := by
  induction h with
  | name => exact .refl
  | index hkind hbase hpath ih =>
    refine .head (hpath.isBase ?_ (Node.mem_children_of_child? hbase) ?_) ih
    · rcases hkind with hkind | hkind <;> simp [hkind, basedKinds]
    · simp [(parent?_of_child? hbase).2]
  | member hkind hbase hpath ih =>
    refine .head (hpath.isBase ?_ (Node.mem_children_of_child? hbase) ?_) ih
    · simp [hkind, basedKinds]
    · simp [(parent?_of_child? hbase).2]
  | @parentheses n inner hkind hinner hpath ih =>
    have hentry : some inner ∈ a.entries n "components" := by simp [hinner]
    refine .head (hpath.isBase ?_ (Node.mem_children_of_mem_entries hentry) ?_) ih
    · simp [hkind, basedKinds]
    · simp [(parent?_of_mem_entries hentry).2]

end Arena

namespace SsaForm

variable {s : SsaForm} {x : NodeId} {bound : Nat → Option Nat} {d i k : Nat} {front back : List Nat}

theorem Carries.exists_bound (h : s.Carries x bound) (hg : s.graph.Sound) (hrun : s.graph.Run (front ++ i :: back) k)
    (hd : bound i = some d) : ∃ e, bound k = some e ∧
      (e = d ∨ ∃ m ∈ back, s.lastWrite? m x = some e ∨ e ∈ s.phisAt m x) := by
  induction back using List.reverseRecOn generalizing k with
  | nil =>
    obtain ⟨rfl, -⟩ := hrun.of_append_singleton
    exact ⟨d, hd, .inl rfl⟩
  | append_singleton back m ih =>
    have hlive := hrun.isLive hg (List.mem_append_right _ (List.mem_cons_of_mem i (List.mem_append_right back
      (List.mem_singleton_self m))))
    rw [← List.cons_append, ← List.append_assoc] at hrun
    obtain ⟨rfl, ⟨hnil, -⟩ | ⟨j, hj, hnext⟩⟩ := hrun.of_append_singleton
    · simp at hnil
    obtain ⟨e, he, hfrom⟩ := ih hj
    have hhere : k ∈ back ++ [k] := List.mem_append_right _ (List.mem_singleton_self k)
    cases hk : s.lastWrite? k x with
    | some e' => exact ⟨e', h.written k e' hk, .inr ⟨k, hhere, .inl hk⟩⟩
    | none =>
      rcases h.carried j k e ((ControlGraph.exists_run_iff hg).1 ⟨_, hj⟩) hlive hnext hk he with he | ⟨phi, hphi, he⟩
      · refine ⟨e, he, hfrom.imp_right ?_⟩
        rintro ⟨m, hm, hmade⟩
        exact ⟨m, List.mem_append_left _ hm, hmade⟩
      · exact ⟨phi, he, .inr ⟨k, hhere, .inr hphi⟩⟩

theorem exists_definitionOf?_behind (p : Program) {g : ControlGraph} {u v : NodeId} (hg : g.Sound)
    (hone : ∀ i j n, g.node? i = some n → g.node? j = some n → i = j) (hu : g.node? i = some u)
    (hd : (ofGraph p g).definitionOf? u = some d) (hux : p.localOf? u = some x) (hv : g.node? k = some v)
    (hvx : p.localOf? v = some x) (hread : p.isRead v = true) (hrun : g.Run (front ++ i :: back) k) :
    ∃ e, (ofGraph p g).definitionOf? v = some e ∧
      (e = d ∨ ∃ m ∈ back, (ofGraph p g).lastWrite? m x = some e ∨ e ∈ (ofGraph p g).phisAt m x) := by
  obtain ⟨j, y, hi, hj, hy, htracked, hread', -⟩ := exists_of_mem_usesOf hg hone (mem_usesOf_of_definitionOf? hd)
  obtain rfl := hone j i u hj hu
  obtain rfl := Option.some.inj (hy.symm.trans hux)
  obtain ⟨bound, hcarries, hbound⟩ := exists_carries p hg y
  have hk : g.isLive k = true := (ControlGraph.exists_run_iff hg).1 ⟨_, hrun⟩
  have hstart := hbound u j hi hu (fun b hb => hone b j u hb hu) hux htracked hread'
  obtain ⟨e, he, hmade⟩ := hcarries.exists_bound hg hrun (hstart.symm.trans hd)
  exact ⟨e, (hbound v k hk hv (fun b hb => hone b k v hb hv) hvx htracked hread).trans he, hmade⟩

end SsaForm

namespace FlowModel

variable {m : FlowModel} {s : SsaForm} {e site u : NodeId} {d j k : Nat}

theorem mem_postUpdateFlows_iff (hcontainer : m.aliasing = .container) (hs : (m.formAround e).outcome = .ok (some s))
    (hd : s.definitionOf? e = some d) (hsite : s.graph.node? j = some site) (hu : s.graph.node? k = some u)
    (hne : u ≠ e) (hlater : Relation.TransGen (fun i j => j ∈ s.graph.next i) j k) :
    .expression u ∈ (m.postUpdateFlows e site).getD [] ↔ s.definitionOf? u = some d := by
  obtain ⟨f, -, hform⟩ := owner?_of_formAround hs
  obtain ⟨hgraph, -, -, heq⟩ := ValueFlow.outcome_form?_eq_some.1 hform
  have hg := ControlFlow.sound_of_controlGraph? hgraph
  have hone := fun i j n => ControlFlow.point_unique hgraph (i := i) (j := j) (n := n)
  have hpoint {n : NodeId} {i : Nat} (hi : s.graph.node? i = some n) : s.graph.pointAt? n = some i :=
    ControlGraph.pointAt?_eq_some (fun b hb => hone b i n hb hi) hi
  have huses : u ∈ s.usesOf d ↔ s.definitionOf? u = some d := by
    refine ⟨fun hmem => ?_, SsaForm.mem_usesOf_of_definitionOf?⟩
    rw [heq] at hmem ⊢
    obtain ⟨_, _, -, -, -, -, -, hsame⟩ := SsaForm.exists_of_mem_usesOf hg hone hmem
    exact hsame
  have hnear (i i' : Option Value) : m.isApart i i' = false := by simp [isApart, hcontainer]
  have hreaches := (ControlGraph.strictlyReaches_iff hg).2 hlater
  rw [Query.getD_eq_of_outcome (outcome_postUpdateFlows hs hd (hpoint hsite))]
  simp [hnear, hpoint hu, huses, hne, hreaches]

end FlowModel

/--
A write of an element of a local container is seen by a later read just if both are bound to the same definition. If a
run goes on from the write to the read without writing the container, a read that is bound otherwise is bound to a
definition inside of the assignment or to a phi on the way.
-/
theorem FlowGraph.element_write_is_read_unless_redefined (g : FlowGraph) (s : SsaForm) {site target e u x : NodeId}
    {d j k : Nat} {front back : List Nat} (hcontainer : g.aliasing = .container)
    (hs : (g.formAround e).outcome = .ok (some s)) (hd : s.definitionOf? e = some d) (hx : g.localOf? e = some x)
    (hsite : s.graph.node? j = some site) (hkind : g.arena.kind site = .assignment)
    (htarget : g.arena.child? site "leftHandSide" = some target) (hpath : g.arena.IsPath e target)
    (hu : s.graph.node? k = some u) (hlocal : g.localOf? u = some x) (hread : g.isRead u = true) (hne : u ≠ e)
    (hrun : s.graph.Run (front ++ j :: back) k)
    (hclear : ∀ m ∈ back, ∀ w ∈ (SsaSource.ofGraph g.toProgram s.graph).writes m, w.variableNode ≠ x) :
    ∃ before i inside d', front = before ++ i :: inside ∧ s.graph.node? i = some e ∧
      (∀ n ∈ s.graph.trace inside, g.arena.Below site n) ∧ s.definitionOf? u = some d' ∧
      (.expression u ∈ (g.localSteps (.postUpdate e site)).getD [] ↔ d' = d) ∧
      (d' = d ∨ (∃ m ∈ inside ++ [j], s.lastWrite? m x = some d') ∨
        ∃ m ∈ inside ++ j :: back, d' ∈ s.phisAt m x) := by
  obtain ⟨f, -, hform⟩ := FlowModel.owner?_of_formAround hs
  obtain ⟨hgraph, -, -, heq⟩ := ValueFlow.outcome_form?_eq_some.1 hform
  have hg := ControlFlow.sound_of_controlGraph? hgraph
  have hone := fun i j n => ControlFlow.point_unique hgraph (i := i) (j := j) (n := n)
  -- the run has come to the root of the path before the assignment
  have hbase : g.arena.IsBase site target := hpath.isBase (by simp [hkind, Arena.basedKinds])
    (Node.mem_children_of_child? htarget) (by simp [(Arena.parent?_of_child? htarget).2])
  obtain ⟨i, hi⟩ : ∃ i, s.graph.node? i = some e := by
    have huse := SsaForm.mem_usesOf_of_definitionOf? hd
    rw [heq] at huse
    obtain ⟨i, _, -, hi, -⟩ := SsaForm.exists_of_mem_usesOf hg hone huse
    exact ⟨i, hi⟩
  obtain ⟨before, inside, rfl, hbelow⟩ := ControlFlow.exists_base_before hgraph hbase hpath.bases hi hsite hrun.upTo
  have hlater : Relation.TransGen (fun i j => j ∈ s.graph.next i) j k := by
    refine hrun.transGen fun hnil => ?_
    subst hnil
    obtain ⟨rfl, -⟩ := hrun.of_append_singleton
    obtain rfl := Option.some.inj (hu.symm.trans hsite)
    simp [Program.localOf?, Program.variableOf?, hkind] at hlocal
  rw [List.append_assoc, List.cons_append] at hrun
  have hfound := SsaForm.exists_definitionOf?_behind g.toProgram hg hone hi (heq ▸ hd) hx hu hlocal hread hrun
  rw [← heq] at hfound
  obtain ⟨d', hd', hmade⟩ := hfound
  refine ⟨before, i, inside, d', rfl, hi, hbelow, hd', ?_, hmade.imp_right ?_⟩
  · have hstep := FlowModel.mem_postUpdateFlows_iff hcontainer hs hd hsite hu hne hlater
    rw [hd', Option.some.injEq] at hstep
    exact mem_localSteps_iff.trans hstep
  · rintro ⟨m, hm, hwritten | hphi⟩
    · refine .inl ⟨m, ?_, hwritten⟩
      rw [List.append_cons] at hm
      refine (List.mem_append.1 hm).resolve_right fun hback => ?_
      have hlive : s.graph.isLive m = true := hrun.isLive hg (by simp [hback])
      rw [heq, (SsaForm.lastWrite?_eq_none_iff hg hlive).2 (hclear m hback)] at hwritten
      simp at hwritten
    · exact .inr ⟨m, hm, hphi⟩

/-! A function with the parameters `a`, `b` and `x` and the body `a[0] = x; if (a[0]) a = b; return a[0];`. -/

namespace Merging

open Sample

def nodes : Array Node := #[
  unit [1],
  function 0 2 6 "f",
  parameterList 1 [3, 4, 5],
  parameter 2 "a",
  parameter 2 "b",
  parameter 2 "x",
  block 1 [7, 8, 9],
  statement 6 10,
  node .ifStatement (some 6) "statements" [("condition", .one 11), ("trueBody", .one 12)] [],
  node .returnStatement (some 6) "statements" [("expression", .one 13)] [],
  assign 7 14 15,
  index 8 "condition" 16 17,
  node .expressionStatement (some 8) "trueBody" [("expression", .one 18)] [],
  index 9 "expression" 19 20,
  index 10 "leftHandSide" 21 22,
  identifier 10 "rightHandSide" "x",
  identifier 11 "baseExpression" "a",
  literal 11 "indexExpression" "0",
  assign 12 23 24,
  identifier 13 "baseExpression" "a",
  literal 13 "indexExpression" "0",
  identifier 14 "baseExpression" "a",
  literal 14 "indexExpression" "0",
  identifier 18 "leftHandSide" "a",
  identifier 18 "rightHandSide" "b"]

def arena : Arena :=
  arenaOf nodes (by decide +kernel)

def analysis : FlowGraph :=
  Session.analyse arena {} {}

def form : SsaForm :=
  .ofGraph analysis.toProgram (.ofLayers 0 [] (analysis.control 0))

theorem form?_eq : (analysis.form? 0).outcome = .ok (some form) :=
  ValueFlow.outcome_form?_ofLayers (by decide +kernel) (by decide +kernel) (by decide +kernel)

theorem write_is_missed_behind_merge :
    form.definitionOf? 21 = some 1 ∧ form.definitionOf? 16 = some 1 ∧ form.definitionOf? 19 = some 0 ∧
      0 ∈ form.phisAt 16 3 ∧ .expression 16 ∈ (analysis.localSteps (.postUpdate 21 10)).getD [] ∧
      .expression 19 ∉ (analysis.localSteps (.postUpdate 21 10)).getD [] := by
  have hs : (analysis.formAround 21).outcome = .ok (some form) := by
    rw [FlowModel.formAround, show analysis.owner? 21 = some 0 by decide +kernel]
    exact form?_eq
  have hbound : form.definitionOf? 21 = some 1 ∧ form.definitionOf? 16 = some 1 ∧ form.definitionOf? 19 = some 0 ∧
      0 ∈ form.phisAt 16 3 := by decide +kernel
  have hnames : analysis.localOf? 21 = some 3 ∧ analysis.localOf? 16 = some 3 ∧ analysis.localOf? 19 = some 3 := by
    decide +kernel
  have hpoints : form.graph.node? 6 = some 10 ∧ form.graph.node? 9 = some 16 ∧ form.graph.node? 17 = some 19 := by
    decide +kernel
  have hpath : analysis.arena.IsPath 21 14 := .index (.inl rfl) rfl (.name rfl)
  have hchain : [Draft.entry, 2, 3, 4, 5, 6, 7, 8, 9, 10, 11, 16, 17].IsChain fun i j => j ∈ form.graph.next i := by
    decide +kernel
  have hbehind : form.graph.Run ([0, 2, 3, 4, 5] ++ 6 :: [7, 8, 9, 10, 11, 16, 17]) 17 :=
    ControlGraph.Run.entry.follow hchain rfl
  have hfront : form.graph.Run ([0, 2, 3, 4, 5] ++ 6 :: [7, 8, 9]) 9 :=
    ControlGraph.Run.entry.follow (List.IsChain.take hchain 9) rfl
  have hclear : ∀ m ∈ [7, 8, 9, 10, 11, 16, 17], ∀ w ∈ (SsaSource.ofGraph analysis.toProgram form.graph).writes m,
      w.variableNode ≠ 3 := by decide +kernel
  obtain ⟨_, _, _, d, -, -, -, hd, hseen, -⟩ := analysis.element_write_is_read_unless_redefined form rfl hs hbound.1
    hnames.1 hpoints.1 rfl rfl hpath hpoints.2.1 hnames.2.1 (by decide +kernel) (by decide) hfront
    fun m hm => hclear m (List.mem_of_mem_take (i := 3) hm)
  obtain ⟨_, _, _, d', -, -, -, hd', hmissed, -⟩ := analysis.element_write_is_read_unless_redefined form rfl hs
    hbound.1 hnames.1 hpoints.1 rfl rfl hpath hpoints.2.2 hnames.2.2 (by decide +kernel) (by decide) hbehind hclear
  rw [hbound.2.1] at hd
  rw [hbound.2.2.1] at hd'
  refine ⟨hbound.1, hbound.2.1, hbound.2.2.1, hbound.2.2.2, hseen.2 (Option.some.inj hd).symm, fun hmem => ?_⟩
  exact absurd (hmissed.1 hmem) (Option.some.inj hd' ▸ by decide)

end Merging

end ContractFlow
