import ContractFlow.Proofs.Control.Program
import ContractFlow.Proofs.Ssa.Bound
import ContractFlow.Ssa.Program

/-! This module shows that the static single assignment forms of a program are exact. -/

namespace ContractFlow

namespace SsaForm

variable {p : Program} {g : ControlGraph} {x : NodeId} {i : Nat}

theorem exists_found_ofGraph (p : Program) (hg : g.Sound) :
    (RenamingPlan.ofSource (.ofGraph p g)).Fits ∧
      ∃ env start, (RenamingPlan.ofSource (.ofGraph p g)).Found
        ((RenamingPlan.ofSource (.ofGraph p g)).rename 0 []
          { definitions := (RenamingPlan.ofSource (.ofGraph p g)).phis }) env start :=
  have hfits := SsaSource.fits_ofGraph p hg
  ⟨RenamingPlan.fits_ofSource hfits, RenamingPlan.exists_found hfits.tree⟩

theorem definitions_ofGraph (hg : g.Sound) (hi : g.isLive i = true) :
    (ofGraph p g).definitions.toList.filter (fun d => !d.isPhi && d.point == i)
      = ((SsaSource.ofGraph p g).writes i).map fun w => ⟨w.kind, w.variableNode, i, some w.site⟩ := by
  obtain ⟨hp, env, start, h⟩ := exists_found_ofGraph p hg
  exact RenamingPlan.filter_definitions_eq hp h hi

section Read

variable {u : NodeId} (hg : g.Sound) (hone : ∀ i j, g.node? i = some u → g.node? j = some u → i = j)
  (hi : g.isLive i = true) (hu : g.node? i = some u) (hx : p.localOf? u = some x)
  (htracked : x ∈ (SsaSource.ofGraph p g).tracked) (hread : p.isRead u = true)

include hg hone hi hu hx htracked hread

theorem reaching_definitionOf? : (ofGraph p g).Reaching x i ((ofGraph p g).definitionOf? u) := by
  obtain ⟨hp, env, start, h⟩ := exists_found_ofGraph p hg
  have hreads : (u, x) ∈ (RenamingPlan.ofSource (.ofGraph p g)).readsAt i :=
    RenamingPlan.mem_readsAt_iff.2 ⟨hu, hx, htracked, hread⟩
  have heq := RenamingPlan.definitionOf?_finish hp h hi (fun j hj => hone j i hj hu) hreads
  exact heq ▸ RenamingPlan.reaching_finish hp h x hi

theorem mem_undefined_iff : u ∈ (ofGraph p g).undefined ↔ (ofGraph p g).definitionOf? u = none := by
  obtain ⟨hp, env, start, h⟩ := exists_found_ofGraph p hg
  have hreads : (u, x) ∈ (RenamingPlan.ofSource (.ofGraph p g)).readsAt i :=
    RenamingPlan.mem_readsAt_iff.2 ⟨hu, hx, htracked, hread⟩
  have hone' := fun j hj => hone j i hj hu
  have heq := RenamingPlan.definitionOf?_finish hp h hi hone' hreads
  have hiff := RenamingPlan.mem_undefined_finish_iff hp h hi hone' hreads
  rw [← heq] at hiff
  exact hiff

end Read

theorem reaching_exitDefinition? (hg : g.Sound) (hexit : g.isLive Draft.exit = true)
    (htracked : x ∈ (SsaSource.ofGraph p g).tracked) :
    (ofGraph p g).Reaching x Draft.exit ((ofGraph p g).exitDefinition? x) := by
  obtain ⟨hp, env, start, h⟩ := exists_found_ofGraph p hg
  have heq := RenamingPlan.exitDefinition?_finish hp h hexit htracked
  exact heq ▸ RenamingPlan.reaching_finish hp h x hexit

end SsaForm

theorem ControlFlow.outcome_makeForm_eq_ok {c : ControlFlow} {g : ControlGraph} {f : CallableId}
    {s : SsaForm} :
    (c.makeForm g f).outcome = .ok s ↔ c.plan.ssa.contains (c.qualifiedName f) = false ∧
      c.lookUpNames g = .ok () ∧ s = .ofGraph c.toProgram g := by
  unfold makeForm
  cases hplan : c.plan.ssa.contains (c.qualifiedName f) with
  | true => simp [Query.outcome_bind, Query.fail, Except.bind]
  | false =>
    cases hnames : c.lookUpNames g with
    | error e => simp [Query.outcome_bind, Except.bind]
    | ok _ => simp [Query.outcome_bind, Except.bind, eq_comm]

namespace ValueFlow

variable {v : ValueFlow} {f : CallableId} {s : SsaForm}

theorem outcome_form?_eq_some :
    (v.form? f).outcome = .ok (some s) ↔ (v.controlGraph? false f).outcome = .ok (some s.graph) ∧
      v.plan.ssa.contains (v.qualifiedName f) = false ∧ v.lookUpNames s.graph = .ok () ∧
      s = .ofGraph v.toProgram s.graph := by
  rw [form?, Memo.get_eq, ControlFlow.formOf?, Query.outcome_bind]
  cases hg : (v.controlGraph? false f).outcome with
  | error e => simp [Except.bind]
  | ok o =>
    cases o with
    | none => simp [Except.bind]
    | some g =>
      simp only [Except.bind, Query.outcome_orReport_eq_some, ControlFlow.outcome_makeForm_eq_ok,
        Except.ok.injEq, Option.some.injEq]
      constructor
      · rintro ⟨hplan, hnames, rfl⟩
        exact ⟨rfl, hplan, hnames, rfl⟩
      · rintro ⟨rfl, hplan, hnames, hs⟩
        exact ⟨hplan, hnames, hs⟩

theorem outcome_form?_ofLayers (hcontrol : v.plan.control.contains (v.qualifiedName f) = false)
    (hssa : v.plan.ssa.contains (v.qualifiedName f) = false)
    (hnames : v.lookUpNames (.ofLayers f [] (v.control f)) = .ok ()) :
    (v.form? f).outcome = .ok (some (.ofGraph v.toProgram (.ofLayers f [] (v.control f)))) := by
  have hgraph : (v.controlGraph? false f).outcome = .ok (some (.ofLayers f [] (v.control f))) :=
    ControlFlow.outcome_controlGraph? hcontrol rfl
  exact outcome_form?_eq_some.2 ⟨hgraph, hssa, hnames, rfl⟩

/--
The definitions of a form that are no phis are the writes at the points that a run can come to. A read is bound to a
definition that stands for just those writes that are the last ones on a run to it, and counts as undefined if no run to
it writes its variable. The same holds of what is bound at the exit.
-/
theorem form_binds_reaching_definitions (v : ValueFlow) (f : CallableId) (s : SsaForm)
    (hs : (v.form? f).outcome = .ok (some s)) :
    (v.controlGraph? false f).outcome = .ok (some s.graph) ∧
    (∀ i, s.graph.isLive i = true →
      s.definitions.toList.filter (fun d => !d.isPhi && d.point == i)
        = ((SsaSource.ofGraph v.toProgram s.graph).writes i).map fun w =>
            ⟨w.kind, w.variableNode, i, some w.site⟩) ∧
    ∀ x ∈ (SsaSource.ofGraph v.toProgram s.graph).tracked,
      (∀ u i, s.graph.node? i = some u → s.graph.isLive i = true →
        v.localOf? u = some x → v.isRead u = true →
          (u ∈ s.undefined ∧ s.definitionOf? u = none ∧ s.Reaching x i none) ∨
          (u ∉ s.undefined ∧ ∃ d, s.definitionOf? u = some d ∧ s.Reaching x i (some d))) ∧
      (s.graph.isLive Draft.exit = true → s.Reaching x Draft.exit (s.exitDefinition? x)) := by
  obtain ⟨hgraph, -, -, heq⟩ := outcome_form?_eq_some.1 hs
  have hg := ControlFlow.sound_of_controlGraph? hgraph
  refine ⟨hgraph, fun i hi => ?_, fun x hx => ⟨fun u i hu hi hlocal hread => ?_, fun hexit => ?_⟩⟩
  · have := SsaForm.definitions_ofGraph (p := v.toProgram) hg hi
    rwa [← heq] at this
  · have hone := fun i j => ControlFlow.point_unique hgraph (i := i) (j := j) (n := u)
    have hreaching := SsaForm.reaching_definitionOf? hg hone hi hu hlocal hx hread
    have hundefined := SsaForm.mem_undefined_iff hg hone hi hu hlocal hx hread
    rw [← heq] at hreaching hundefined
    cases hd : s.definitionOf? u with
    | none => exact .inl ⟨hundefined.2 hd, rfl, hd ▸ hreaching⟩
    | some d =>
      refine .inr ⟨fun hmem => ?_, d, rfl, hd ▸ hreaching⟩
      rw [hundefined, hd] at hmem
      simp at hmem
  · have := SsaForm.reaching_exitDefinition? (p := v.toProgram) hg hexit hx
    rwa [← heq] at this

end ValueFlow

namespace Sample

def valueFlow : ValueFlow :=
  .ofControlFlow program

theorem lookUp_mention {n : NodeId} (h : n = 5 ∨ n = 8 ∨ n = 9 ∨ n = 11) : program.lookUp n = .ok (some 2) := by
  rcases h with rfl | rfl | rfl | rfl <;> rfl

theorem mention_of_kind {n : NodeId} (h : arena.kind n = .identifier) : n = 5 ∨ n = 8 ∨ n = 9 ∨ n = 11 := by
  by_cases hn : n < 12
  · have hall : ∀ n < 12, arena.kind n = .identifier → n = 5 ∨ n = 8 ∨ n = 9 ∨ n = 11 := by decide
    exact hall n hn h
  · have hdefault : arena.kind n = default := by
      rw [Arena.kind, Arena.node_of_not_lt hn]
      rfl
    exact absurd (hdefault.symm.trans h) (by decide)

theorem findVariable_eq (n : NodeId) : ∃ d, program.findVariable n = .ok d := by
  unfold Program.findVariable
  split
  · next hkind =>
    rw [lookUp_mention (mention_of_kind (eq_of_beq hkind))]
    exact ⟨_, rfl⟩
  · exact ⟨none, rfl⟩

theorem lookUpNames_eq (g : ControlGraph) : program.lookUpNames g = .ok () := by
  unfold ControlFlow.lookUpNames
  induction g.live.filterMap g.node? with
  | nil => rfl
  | cons n rest ih =>
    obtain ⟨d, hd⟩ := findVariable_eq n
    simp only [List.forM, hd]
    exact ih

def form : SsaForm :=
  .ofGraph program.toProgram graph

theorem form?_eq : (valueFlow.form? 0).outcome = .ok (some form) :=
  ValueFlow.outcome_form?_eq_some.2 ⟨controlGraph?_eq, rfl, lookUpNames_eq _, rfl⟩

theorem localOf?_mention {n : NodeId} (h : n = 5 ∨ n = 8 ∨ n = 9 ∨ n = 11) : program.localOf? n = some 2 := by
  have hdeclaration : program.declaration? n = some 2 := by
    rw [Program.declaration?, lookUp_mention h]
  have hkind : program.arena.kind n = .identifier := by
    rcases h with rfl | rfl | rfl | rfl <;> rfl
  rw [Program.localOf?, Program.variableOf?, hkind, hdeclaration]
  rfl

theorem mem_tracked : 2 ∈ (SsaSource.ofGraph program.toProgram graph).tracked := by
  unfold SsaSource.tracked
  rw [mem_distinct_iff, List.mem_append]
  exact .inl (by decide)

theorem result_is_bound :
    (valueFlow.form? 0).outcome = .ok (some form) ∧ graph.node? 9 = some 11 ∧
      graph.isLive 9 = true ∧ valueFlow.localOf? 11 = some 2 ∧ valueFlow.isRead 11 = true ∧
      ((11 ∈ form.undefined ∧ form.definitionOf? 11 = none ∧ form.Reaching 2 9 none) ∨
        (11 ∉ form.undefined ∧ ∃ d, form.definitionOf? 11 = some d ∧ form.Reaching 2 9 (some d))) := by
  have hlive : graph.isLive 9 = true :=
    (ControlGraph.exists_run_iff (ControlFlow.sound_of_controlGraph? controlGraph?_eq)).1
      ⟨_, run_result⟩
  have hlocal : valueFlow.localOf? 11 = some 2 := localOf?_mention (by simp)
  obtain ⟨-, -, hreads⟩ := ValueFlow.form_binds_reaching_definitions valueFlow 0 form form?_eq
  exact ⟨form?_eq, by decide +kernel, hlive, hlocal, rfl,
    (hreads 2 mem_tracked).1 11 9 (by decide +kernel) hlive hlocal rfl⟩

end Sample

end ContractFlow
