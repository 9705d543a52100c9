import ContractFlow.Policy.Criterion
import ContractFlow.Proofs.Flow.Element
import ContractFlow.Proofs.Modifier.Lock

/-! This module shows what is known of a read that counts as validated. -/

namespace ContractFlow

open Outcome (bind_eq_ok pure_eq_ok)

namespace Arena

variable {a : Arena} {n call : NodeId}

def IsTested (a : Arena) (n : NodeId) : Prop :=
  ∃ q p, a.Below q n ∧ a.parent? q = some p ∧
    (a.kind p = .functionCall ∧ a.role q = "arguments" ∧ a.roleIndex q = 0 ∧ a.IsRequirement p ∨
      hasCondition (a.kind p) = true ∧ a.role q = "condition")

theorem isTested_of_isChecked (h : a.isChecked n = .ok true) : a.IsTested n := by
  induction n using Nat.strong_induction_on with
  | _ n ih =>
    rw [isChecked] at h
    split at h
    · cases h
    · next p hp =>
      obtain ⟨isRequired, hrequired, h⟩ := bind_eq_ok.1 h
      cases isRequired with
      | true =>
        unfold isRequiredBy at hrequired
        split at hrequired
        · next hargument =>
          simp only [Bool.and_eq_true, beq_iff_eq, decide_eq_true_eq] at hargument
          unfold isRequirement at hrequired
          split at hrequired
          · cases hrequired
          · next callee hcallee =>
            exact ⟨n, p, .refl, hp, .inl ⟨hargument.1.1, hargument.1.2, hargument.2,
              isRequirement_of_isAmong hcallee hrequired⟩⟩
        · cases hrequired
      | false =>
        simp only [Bool.false_eq_true, if_false] at h
        split at h
        · next hcondition =>
          rw [Bool.and_eq_true, beq_iff_eq] at hcondition
          exact ⟨n, p, .refl, hp, .inr hcondition⟩
        · split at h
          · cases h
          · obtain ⟨q, p', hq, hp', htest⟩ := ih p (a.lt_of_parent? hp) h
            exact ⟨q, p', hq.tail hp, hp', htest⟩

end Arena

theorem SsaForm.exists_definitionOf?_of_writes (p : Program) {g : ControlGraph} {v x : NodeId} {path : List Nat}
    {i j : Nat} (hg : g.Sound) (hone : ∀ i j n, g.node? i = some n → g.node? j = some n → i = j)
    (hv : g.node? i = some v) (hvx : p.localOf? v = some x) (htracked : x ∈ (SsaSource.ofGraph p g).tracked)
    (hread : p.isRead v = true) (hrun : g.Run path i) (hj : j ∈ path) {w : Write}
    (hw : w ∈ (SsaSource.ofGraph p g).writes j) (hwx : w.variableNode = x) :
    ∃ d, (ofGraph p g).definitionOf? v = some d := by
  obtain ⟨bound, hcarries, hbound⟩ := exists_carries p hg x
  have hlast : (ofGraph p g).lastWrite? j x ≠ none :=
    fun hnone => (lastWrite?_eq_none_iff hg (hrun.isLive hg hj)).1 hnone w hw hwx
  obtain ⟨d, hd, -⟩ := hcarries.exists_point_mem hg hrun hj hlast
  have hi : g.isLive i = true := (ControlGraph.exists_run_iff hg).1 ⟨_, hrun⟩
  exact ⟨d, (hbound v i hi hv (fun b hb => hone b i v hb hv) hvx htracked hread).trans hd⟩

namespace FlowGraph

variable {g : FlowGraph} {s : SsaForm} {x u c : NodeId}

/-- Another mention `c` of the variable `x` of `u`, in a check from which the control reaches `u`. -/
structure IsCheckBefore (g : FlowGraph) (s : SsaForm) (x u c : NodeId) : Prop where
  identifier : g.arena.kind c = .identifier
  other : c ≠ u
  mentioned : g.findVariable c = .ok (some x)
  tested : g.arena.IsTested c
  before : ∃ i k, s.graph.pointAt? c = some i ∧ s.graph.pointAt? u = some k ∧ s.graph.strictlyReaches i k = true

theorem exists_of_isCheckedBefore {cfg : ControlGraph} {read : Nat} {ms : List NodeId}
    (h : g.isCheckedBefore cfg u x read ms = .ok true) :
    ∃ c check, g.checkPoint? cfg u x c = .ok (some check) ∧ cfg.strictlyReaches check read = true := by
  induction ms with
  | nil => cases h
  | cons m ms ih =>
    obtain ⟨point, hpoint, h⟩ := bind_eq_ok.1 h
    split at h
    · next hany =>
      obtain ⟨check, hcheck, hreaches⟩ := (Option.any_eq_true _ _).1 hany
      exact ⟨m, check, hcheck ▸ hpoint, hreaches⟩
    · exact ih h

theorem of_checkPoint? {cfg : ControlGraph} {check : Nat} (h : g.checkPoint? cfg u x c = .ok (some check)) :
    g.arena.kind c = .identifier ∧ c ≠ u ∧ g.findVariable c = .ok (some x) ∧ g.arena.IsTested c ∧
      cfg.pointAt? c = some check := by
  unfold checkPoint? at h
  split at h
  · cases h
  · next hother =>
    simp only [Bool.or_eq_true, bne_iff_ne, beq_iff_eq, not_or, not_not] at hother
    obtain ⟨found, hfound, h⟩ := bind_eq_ok.1 h
    split at h
    · cases h
    · next hsame =>
      rw [bne_iff_ne, not_not] at hsame
      obtain ⟨isChecked, hchecked, h⟩ := bind_eq_ok.1 h
      cases isChecked with
      | false => cases h
      | true =>
        exact ⟨hother.1, hother.2, hsame ▸ hfound, Arena.isTested_of_isChecked hchecked, pure_eq_ok.1 h⟩

theorem exists_isCheckBefore_of_followsCheck {f : CallableId}
    (hgraph : (g.controlGraph? false f).outcome = .ok (some s.graph))
    (h : (g.followsCheck f u x).outcome = .ok true) : ∃ c, g.IsCheckBefore s x u c := by
  obtain ⟨found, hfound, h⟩ := Query.outcome_bind_eq_ok.1 h
  obtain rfl := Except.ok.inj (hgraph.symm.trans hfound)
  split at h
  · next hnone => cases hnone
  · next cfg hcfg =>
    obtain rfl := Option.some.inj hcfg
    split at h
    · cases h
    · next k hk =>
      obtain ⟨c, i, hcheck, hreaches⟩ := exists_of_isCheckedBefore h
      obtain ⟨hidentifier, hother, hmentioned, htested, hi⟩ := of_checkPoint? hcheck
      exact ⟨c, hidentifier, hother, hmentioned, htested, i, k, hi, hk, hreaches⟩

theorem followsCheck_of_isValidated {owner : Option CallableId} (h : (g.isValidated owner u).outcome = .ok true) :
    ∃ f x, owner = some f ∧ g.findVariable u = .ok (some x) ∧ g.isLocal x = true ∧
      (g.followsCheck f u x).outcome = .ok true := by
  unfold isValidated at h
  split at h
  · cases h
  · obtain ⟨isChecked, -, h⟩ := Query.outcome_bind_eq_ok.1 h
    split at h
    · cases h
    · obtain ⟨found, hfound, h⟩ := Query.outcome_bind_eq_ok.1 h
      cases owner with
      | none => cases h
      | some f =>
        cases hx : found.filter fun d => g.scope? d == some .locally || g.scope? d == some .parameter with
        | none =>
          simp only [hx] at h
          cases h
        | some x =>
          simp only [hx] at h
          obtain ⟨rfl, hscope⟩ := Option.filter_eq_some_iff.1 hx
          refine ⟨f, x, rfl, hfound, ?_, h⟩
          rw [Bool.or_eq_true, beq_iff_eq, beq_iff_eq] at hscope
          rcases hscope with hscope | hscope
          · simp [Program.isLocal, hscope]
          · simp [Program.isLocal, hscope]

end FlowGraph

/--
A read that counts as validated has a check of its variable before it, which is bound to a definition if it reads the
variable on a run that has written it. If that is not the definition of the validated read, then on every run from the
check to the read the latter is made behind the check, by a write or as a phi.
-/
theorem FlowGraph.validated_read_is_checked_unless_redefined (g : FlowGraph) {u : NodeId} {s : SsaForm} {d : Nat}
    (hvalid : (g.meets .validated (.expression u)).outcome = .ok true)
    (hs : (g.formAround u).outcome = .ok (some s)) (hd : s.definitionOf? u = some d) :
    ∃ x, g.findVariable u = .ok (some x) ∧ (∃ c, g.IsCheckBefore s x u c) ∧
      ∀ c, g.IsCheckBefore s x u c → ∀ i, s.graph.node? i = some c →
        (g.isRead c = true → ∀ path, s.graph.Run path i →
          (∃ j ∈ path, ∃ w ∈ (SsaSource.ofGraph g.toProgram s.graph).writes j, w.variableNode = x) →
          ∃ d', s.definitionOf? c = some d') ∧
        ∀ d', s.definitionOf? c = some d' → d' ≠ d → ∀ front back k, s.graph.node? k = some u →
          s.graph.Run (front ++ i :: back) k → ∃ m ∈ back, s.lastWrite? m x = some d ∨ d ∈ s.phisAt m x := by
  obtain ⟨f, howner, hform⟩ := FlowModel.owner?_of_formAround hs
  obtain ⟨hgraph, -, -, heq⟩ := ValueFlow.outcome_form?_eq_some.1 hform
  have hg := ControlFlow.sound_of_controlGraph? hgraph
  have hone := fun i j n => ControlFlow.point_unique hgraph (i := i) (j := j) (n := n)
  obtain ⟨f', x, hholder, hx, hlocal, hfollows⟩ := followsCheck_of_isValidated hvalid
  obtain rfl : f' = f := Option.some.inj (hholder.symm.trans (Option.filter_eq_some_iff.1 howner).1)
  have localOf {n : NodeId} (hn : g.findVariable n = .ok (some x)) : g.localOf? n = some x := by
    rw [Program.localOf?, Program.findVariable_eq hn, Option.filter_some, if_pos hlocal]
  rw [heq] at hd
  obtain ⟨k, y, -, hk, hy, htracked, hread, -⟩ :=
    SsaForm.exists_of_mem_usesOf hg hone (SsaForm.mem_usesOf_of_definitionOf? hd)
  obtain rfl := Option.some.inj (hy.symm.trans (localOf hx))
  refine ⟨y, hx, exists_isCheckBefore_of_followsCheck hgraph hfollows, fun c hc i hi => ⟨?_, ?_⟩⟩
  · rintro hreadc path hrun ⟨j, hj, w, hw, hwx⟩
    rw [heq]
    exact SsaForm.exists_definitionOf?_of_writes g.toProgram hg hone hi (localOf hc.mentioned) htracked hreadc hrun hj
      hw hwx
  · intro d' hd' hne front back k' hk' hrun
    rw [heq] at hd' ⊢
    obtain ⟨e, he, hmade⟩ := SsaForm.exists_definitionOf?_behind g.toProgram hg hone hi hd' (localOf hc.mentioned) hk'
      (localOf hx) hread hrun
    obtain rfl := Option.some.inj (he.symm.trans hd)
    exact hmade.resolve_left hne.symm

/-! A function with the parameters `i` and `j` and the body `require(i); j = i; i = j; return i;`. -/

namespace Reassigning

open Sample

def nodes : Array Node := #[
  unit [1],
  function 0 2 5 "f",
  parameterList 1 [3, 4],
  parameter 2 "i",
  parameter 2 "j",
  block 1 [6, 10, 14, 18],
  statement 5 7,
  call 6 8 [9],
  identifier 7 "expression" "require",
  { identifier 7 "arguments" "i" with position := some 0 },
  statement 5 11,
  assign 10 12 13,
  identifier 11 "leftHandSide" "j",
  identifier 11 "rightHandSide" "i",
  statement 5 15,
  assign 14 16 17,
  identifier 15 "leftHandSide" "i",
  identifier 15 "rightHandSide" "j",
  node .returnStatement (some 5) "statements" [("expression", .one 19)] [],
  identifier 18 "expression" "i"]

def arena : Arena :=
  arenaOf nodes (by decide +kernel)

def analysis : FlowGraph :=
  Session.analyse arena {} {}

def form : SsaForm :=
  .ofGraph analysis.toProgram (.ofLayers 0 [] (analysis.control 0))

theorem form?_eq : (analysis.form? 0).outcome = .ok (some form) :=
  ValueFlow.outcome_form?_ofLayers (by decide +kernel) (by decide +kernel) (by decide +kernel)

theorem formAround_eq {n : NodeId} (h : analysis.owner? n = some 0) :
    (analysis.formAround n).outcome = .ok (some form) := by
  rw [FlowModel.formAround, h]
  exact form?_eq

/-- The read in the end counts as validated, but what it is bound to was not checked. -/
theorem not_all_validated_reads_are_checked :
    ¬ ∀ u s d, (analysis.meets .validated (.expression u)).outcome = .ok true →
      (analysis.formAround u).outcome = .ok (some s) → s.definitionOf? u = some d →
      ∃ x c, analysis.findVariable u = .ok (some x) ∧ analysis.IsCheckBefore s x u c ∧ s.definitionOf? c = some d := by
  have hvalues : (analysis.meets .validated (.expression 19)).outcome = .ok true ∧ analysis.owner? 19 = some 0 ∧
      form.definitionOf? 19 = some 3 ∧ ∀ c < 20, form.definitionOf? c = some 3 → c = 19 := by
    decide +kernel
  obtain ⟨hvalid, howner, hd, honly⟩ := hvalues
  intro hall
  obtain ⟨x, c, -, hcheck, hc⟩ := hall 19 form 3 hvalid (formAround_eq howner) hd
  have hlt : c < 20 := Arena.lt_size_of_kind hcheck.identifier (by decide)
  exact hcheck.other (honly c hlt hc)

theorem validated_read_is_bound_behind_check :
    form.definitionOf? 9 = some 0 ∧ form.definitionOf? 19 = some 3 ∧ analysis.IsCheckBefore form 3 19 9 ∧
      ∃ m ∈ [4, 5, 6, 7, 8, 9, 10, 11, 12, 13, 14], form.lastWrite? m 3 = some 3 ∨ 3 ∈ form.phisAt m 3 := by
  have hvalues : (analysis.meets .validated (.expression 19)).outcome = .ok true ∧ analysis.owner? 19 = some 0 ∧
      form.definitionOf? 9 = some 0 ∧ form.definitionOf? 19 = some 3 := by
    decide +kernel
  obtain ⟨hvalid, howner, hchecked, hread⟩ := hvalues
  have hnames : analysis.findVariable 9 = .ok (some 3) ∧ analysis.findVariable 19 = .ok (some 3) ∧
      analysis.arena.callee? 7 = some 8 := by
    decide +kernel
  have hpoints : form.graph.pointAt? 9 = some 3 ∧ form.graph.pointAt? 19 = some 14 ∧
      form.graph.strictlyReaches 3 14 = true := by
    decide +kernel
  have hcheck : analysis.IsCheckBefore form 3 19 9 := by
    refine ⟨rfl, by decide, hnames.1, ⟨9, 7, .refl, rfl, .inl ⟨rfl, rfl, rfl, 8, hnames.2.2, rfl, .inl rfl⟩⟩, ?_⟩
    exact ⟨3, 14, hpoints⟩
  have hrun : form.graph.Run ([0, 2] ++ 3 :: [4, 5, 6, 7, 8, 9, 10, 11, 12, 13, 14]) 14 :=
    ControlGraph.Run.entry.follow (by decide +kernel) rfl
  obtain ⟨x, hx, -, hall⟩ := analysis.validated_read_is_checked_unless_redefined hvalid (formAround_eq howner) hread
  obtain rfl : 3 = x := Option.some.inj (Except.ok.inj (hnames.2.1.symm.trans hx))
  obtain ⟨-, hmade⟩ := hall 9 hcheck 3 (ControlGraph.node?_of_pointAt? hpoints.1)
  refine ⟨hchecked, hread, hcheck, hmade 0 hchecked (by decide) [0, 2] _ 14 ?_ hrun⟩
  exact ControlGraph.node?_of_pointAt? hpoints.2.1

end Reassigning

end ContractFlow
