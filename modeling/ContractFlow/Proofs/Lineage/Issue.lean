import ContractFlow.Proofs.Control.Program
import ContractFlow.Proofs.Flow.Answer

/-!
This module shows when the issues about inheritance are complete. Merges that fail are met on the way to other answers,
and looking for conflicts meets all of them.
-/

namespace ContractFlow

open Outcome (Succeeds)

namespace Outline

def IsMergeFailure (o : Outline) (i : Incident) : Prop :=
  ∃ c, o.HasNoMerge c ∧ i = .linearization c

end Outline

namespace Lineage

variable {l : Lineage}
variable {c : ContractId} {issues : List Issue}

theorem reports_consult (cs : List ContractId) : (l.consult cs).Reports l.IsMergeFailure := by
  refine .forM fun c => ?_
  unfold consultOne
  split
  · intro i hi
    obtain ⟨d, hd, rfl⟩ := List.mem_map.1 hi
    rw [l.failures.get_eq] at hd
    exact ⟨d, Outline.hasNoMerge_of_mem_mergeFailures hd, rfl⟩
  · exact .liftM (e := .error _)

theorem reports_answer {α : Type} (cs : List ContractId) (x : α) : (l.answer cs x).Reports l.IsMergeFailure :=
  .bind (reports_consult cs) fun _ => .pure

theorem reports_isAbstractContract (c : ContractId) : (l.isAbstractContract c).Reports l.IsMergeFailure := by
  unfold isAbstractContract
  simp only
  split
  · exact .pure
  · exact .bind (reports_consult _) fun _ => .bind .liftM fun _ => .pure

theorem reports_candidatesFor (c : ContractId) (w : Wanted) (after : Option ContractId) :
    (l.candidatesFor c w after).Reports l.IsMergeFailure :=
  .bind (reports_consult _) fun _ => .bind .liftM fun _ => reports_answer _ _

theorem reports_conflictsOf (c : ContractId) : (l.conflictsOf c).Reports l.IsMergeFailure :=
  .bind .liftM fun _ => .bind (reports_consult _) fun _ => .bind .liftM fun _ => reports_answer _ _

theorem reports_conflictIssues : l.conflictIssues.Reports l.IsMergeFailure :=
  .bind (.mapM fun _ => .bind (reports_conflictsOf _) fun _ => .mapM fun _ => .liftM) fun _ => .pure

theorem mem_incidents_consult {cs : List ContractId} (h : (l.consult cs).outcome = .ok ()) (hc : c ∈ cs)
    (hmerge : l.HasNoMerge c) : .linearization c ∈ (l.consult cs).incidents := by
  obtain ⟨hok, hsub⟩ := Query.of_forM_ok h hc
  refine hsub ?_
  unfold consultOne at hok ⊢
  split at hok
  · next hknown =>
    rw [if_pos hknown, l.failures.get_eq]
    exact List.mem_map_of_mem hmerge.mem_mergeFailures
  · cases hok

theorem mem_incidents_conflictsOf {xs : List Conflict} (h : (l.conflictsOf c).outcome = .ok xs)
    (hc : l.HasNoMerge c) : .linearization c ∈ (l.conflictsOf c).incidents := by
  unfold conflictsOf at h ⊢
  obtain ⟨_, hkeys, h⟩ := Query.outcome_bind_eq_ok.1 h
  obtain ⟨_, hconsult, h⟩ := Query.outcome_bind_eq_ok.1 h
  rw [Query.incidents_bind_ok hkeys, Query.incidents_bind_ok hconsult]
  exact List.mem_append_right _ (List.mem_append_left _ (mem_incidents_consult hconsult (by simp) hc))

theorem mem_incidents_conflictIssues (h : l.conflictIssues.outcome = .ok issues) (hc : l.HasNoMerge c) :
    .linearization c ∈ l.conflictIssues.incidents := by
  unfold conflictIssues at h ⊢
  obtain ⟨_, hall, -⟩ := Query.outcome_bind_eq_ok.1 h
  obtain ⟨_, hone, hsub⟩ := Query.exists_of_mapM_ok hall (x := c) (List.mem_range.2 hc.lt_size)
  obtain ⟨_, hconflicts, -⟩ := Query.outcome_bind_eq_ok.1 hone
  rw [Query.incidents_bind_ok hconflicts] at hsub
  rw [Query.incidents_bind_ok hall]
  exact List.mem_append_left _ (hsub (List.mem_append_left _ (mem_incidents_conflictsOf hconflicts hc)))

theorem kind_of_mem_conflictIssues (h : l.conflictIssues.outcome = .ok issues) {i : Issue}
    (hi : i ∈ issues) : i.kind = .diamondConflict := by
  obtain ⟨all, hall, h⟩ := Query.outcome_bind_eq_ok.1 h
  obtain rfl := Except.ok.inj h
  obtain ⟨c, -, found, hfound, hi⟩ := (Query.mem_flatten_iff hall).1 hi
  obtain ⟨xs, -, hfound⟩ := Query.outcome_bind_eq_ok.1 hfound
  rw [Query.outcome_mapM] at hfound
  obtain ⟨x, -, hissue⟩ := (Outcome.mem_of_mapM_eq_ok hfound i).1 hi
  obtain ⟨via, -, hissue⟩ := Outcome.bind_eq_ok.1 hissue
  rw [← Except.ok.inj hissue]

theorem kind_of_mem_baseIssues (h : l.baseIssues = .ok issues) {i : Issue} (hi : i ∈ issues) :
    i.kind ≠ .linearizationFailure := by
  obtain ⟨missing, hmissing, h⟩ := Outcome.bind_eq_ok.1 h
  obtain ⟨cyclic, hcyclic, h⟩ := Outcome.bind_eq_ok.1 h
  obtain rfl := Except.ok.inj h
  obtain hi | hi := List.mem_append.1 hi
  · obtain ⟨c, -, found, hfound, hi⟩ := (Outcome.mem_flatten_of_mapM_eq_ok hmissing).1 hi
    obtain ⟨bases, -, hfound⟩ := Outcome.bind_eq_ok.1 hfound
    obtain rfl := Except.ok.inj hfound
    obtain ⟨b, -, rfl⟩ := List.mem_map.1 hi
    simp [baseIssue]
  · obtain ⟨cycle, -, hissue⟩ := (Outcome.mem_of_mapM_eq_ok hcyclic i).1 hi
    obtain ⟨_, -, hissue⟩ := Outcome.bind_eq_ok.1 hissue
    rw [← Except.ok.inj hissue]
    simp

theorem answers_conflictIssues (h : l.IsLegible)
    (hnames : ∀ f c, (l.callableD f).contract = some c → (l.contractName c).isText = true) :
    l.conflictIssues.Answers := by
  have hissue (x : Conflict) : Succeeds (x.toIssue l) := by
    refine .bind (Value.succeeds_join fun v hv => ?_) fun _ _ => .pure trivial
    obtain ⟨f, -, hname⟩ := List.mem_filterMap.1 hv
    obtain ⟨c, hc, rfl⟩ := Option.map_eq_some_iff.1 hname
    exact hnames f c hc
  refine .bind (.mapM (Q := fun _ => True) fun c _ => ?_) fun _ _ => .pure trivial
  exact .bind (answers_conflictsOf h c) fun xs _ => (Query.Answers.mapM fun x _ => .liftM (hissue x)).trivial

end Lineage

/-- A question about inheritance after which a session can remember more. -/
inductive Inquiry where
  | order (c : ContractId)
  | ancestors (c : ContractId)
  | isAncestor (ancestor c : ContractId)
  | derived (c : ContractId)
  | depth (c : ContractId)
  | isAbstract (c : ContractId)
  | isOverride (f : CallableId)
  | overridden (f : CallableId)
  | overriders (f : CallableId)
  | records
  | candidates (c : ContractId) (w : Lineage.Wanted) (after : Option ContractId)
  | mostDerived (c : ContractId) (name : Value) (arity : Option Int)
  | diamonds (c : ContractId)
  | conflicts (c : ContractId)
  | issues

namespace Session

def after (s : Session) : Inquiry → Session
  | .order c => (s.ask (s.analysis.orderOf c)).2
  | .ancestors c => (s.ask (s.analysis.ancestorsOf c)).2
  | .isAncestor ancestor c => (s.ask (s.analysis.isAncestorOf ancestor c)).2
  | .derived c => (s.ask (s.analysis.derivedFrom c)).2
  | .depth c => (s.askDepths [c]).2
  | .isAbstract c => (s.ask (s.analysis.isAbstractContract c)).2
  | .isOverride f => (s.ask (s.analysis.isOverrideOf f)).2
  | .overridden f => (s.ask (s.analysis.overriddenOf f)).2
  | .overriders f => (s.ask (s.analysis.overridersOf f)).2
  | .records => (s.ask s.analysis.records).2
  | .candidates c w after => (s.ask (s.analysis.candidatesFor c w after)).2
  | .mostDerived c name arity => (s.ask (s.analysis.mostDerivedFor c name arity)).2
  | .diamonds c => (s.ask (s.analysis.diamondsOf c)).2
  | .conflicts c => (s.ask (s.analysis.conflictsOf c)).2
  | .issues => s.lineageIssues.2

def afterAll (s : Session) (questions : List Inquiry) : Session :=
  questions.foldl after s

structure Continues (s t : Session) : Prop where
  analysis : t.analysis = s.analysis
  baseIssues : t.baseIssues = s.baseIssues
  incidents : ∃ met, t.incidents = s.incidents ++ met ∧
    ∀ i ∈ met, i ∉ s.incidents ∧ s.analysis.IsMergeFailure i

variable {s t u : Session}
variable {issues : List Issue}

theorem Continues.refl (s : Session) : s.Continues s :=
  ⟨rfl, rfl, [], by simp⟩

theorem Continues.trans (hst : s.Continues t) (htu : t.Continues u) : s.Continues u := by
  obtain ⟨met, hmet, hnew⟩ := hst.incidents
  obtain ⟨met', hmet', hnew'⟩ := htu.incidents
  refine ⟨htu.analysis.trans hst.analysis, htu.baseIssues.trans hst.baseIssues, met ++ met', ?_, ?_⟩
  · rw [hmet', hmet, List.append_assoc]
  · intro i hi
    obtain hi | hi := List.mem_append.1 hi
    · exact hnew i hi
    · have := hnew' i hi
      rw [hst.analysis, hmet] at this
      exact ⟨fun hknown => this.1 (List.mem_append_left _ hknown), this.2⟩

theorem noteOne_eq (s : Session) (i : Incident) : s.noteOne i = { s with incidents := (s.noteOne i).incidents } := by
  cases i with
  | linearization c =>
    unfold noteOne
    dsimp only
    split <;> rfl
  | control f spliced e | ssa f e => rfl

theorem note_eq (s : Session) (incidents : List Incident) :
    s.note incidents = { s with incidents := (s.note incidents).incidents } := by
  induction incidents generalizing s with
  | nil => rfl
  | cons i incidents ih =>
    refine (ih (s.noteOne i)).trans ?_
    exact congrArg (fun t : Session => { t with incidents := ((s.noteOne i).note incidents).incidents }) (noteOne_eq s i)

theorem depths_meet (s : Session) (incidents : List Incident) : (incidents.foldl meetOne s).depths = s.depths := by
  induction incidents generalizing s with
  | nil => rfl
  | cons i incidents ih =>
    refine (ih _).trans ?_
    unfold meetOne
    split
    · rw [noteOne_eq]
    all_goals split <;> rfl

theorem continues_meetOne {i : Incident} (hi : s.analysis.IsMergeFailure i) : s.Continues (s.meetOne i) := by
  obtain ⟨c, hc, rfl⟩ := hi
  unfold meetOne noteOne
  dsimp only
  split
  · exact .refl s
  · next hknown =>
    refine ⟨rfl, rfl, [.linearization c], rfl, fun j hj => ?_⟩
    obtain rfl := List.mem_singleton.1 hj
    exact ⟨by simpa using hknown, c, hc, rfl⟩

theorem continues_meet {incidents : List Incident} (h : ∀ i ∈ incidents, s.analysis.IsMergeFailure i) :
    s.Continues (incidents.foldl meetOne s) := by
  induction incidents generalizing s with
  | nil => exact .refl s
  | cons i incidents ih =>
    have hone := continues_meetOne (h i List.mem_cons_self)
    refine hone.trans (ih fun j hj => ?_)
    rw [hone.analysis]
    exact h j (List.mem_cons_of_mem _ hj)

theorem continues_after (s : Session) (question : Inquiry) : s.Continues (s.after question) := by
  cases question with
  | isAbstract c => exact continues_meet (Lineage.reports_isAbstractContract c)
  | candidates c w after => exact continues_meet (Lineage.reports_candidatesFor c w after)
  | mostDerived c name arity =>
    exact continues_meet (Query.Reports.bind (Lineage.reports_candidatesFor c _ none) fun _ => .pure)
  | conflicts c => exact continues_meet (Lineage.reports_conflictsOf c)
  | issues => exact continues_meet Lineage.reports_conflictIssues
  | depth c => exact ⟨rfl, rfl, [], by simp [after, askDepths], by simp⟩
  | _ => exact continues_meet (Lineage.reports_answer _ _)

theorem continues_afterAll (s : Session) (questions : List Inquiry) : s.Continues (s.afterAll questions) := by
  induction questions generalizing s with
  | nil => exact .refl s
  | cons question questions ih => exact (continues_after s question).trans (ih _)

theorem incidents_subset_meetOne (s : Session) (i : Incident) : s.incidents ⊆ (s.meetOne i).incidents := by
  unfold meetOne noteOne
  split
  all_goals
    dsimp only
    split <;> simp

theorem mem_incidents_meetOne (s : Session) (c : ContractId) :
    .linearization c ∈ (s.meetOne (.linearization c)).incidents := by
  unfold meetOne noteOne
  dsimp only
  split
  · next hknown => exact List.contains_iff_mem.1 hknown
  · simp

theorem mem_incidents_meet {incidents : List Incident} {c : ContractId}
    (hc : .linearization c ∈ s.incidents ∨ .linearization c ∈ incidents) :
    .linearization c ∈ (incidents.foldl meetOne s).incidents := by
  induction incidents generalizing s with
  | nil => exact hc.resolve_right List.not_mem_nil
  | cons i incidents ih =>
    apply ih
    obtain hc | hc := hc
    · exact .inl (incidents_subset_meetOne s i hc)
    · obtain rfl | hc := List.mem_cons.1 hc
      · exact .inl (mem_incidents_meetOne s c)
      · exact .inr hc

def HasMetFailures (s : Session) : Prop :=
  ∀ c, s.analysis.HasNoMerge c → .linearization c ∈ s.incidents

theorem lineageIssues_eq_ok :
    s.lineageIssues.1 = .ok issues ↔ ∃ conflicts, s.analysis.conflictIssues.outcome = .ok conflicts ∧
      issues = s.baseIssues ++ s.mergeIssues ++ conflicts := by
  show s.analysis.conflictIssues.outcome.map _ = _ ↔ _
  cases s.analysis.conflictIssues.outcome with
  | error e => simp [Except.map]
  | ok conflicts => simp [Except.map, eq_comm]

theorem lineageIssues_eq_error {fault : Fault} :
    s.lineageIssues.1 = .error fault ↔ s.analysis.conflictIssues.outcome = .error fault := by
  show s.analysis.conflictIssues.outcome.map _ = _ ↔ _
  cases s.analysis.conflictIssues.outcome with
  | error e => simp [Except.map]
  | ok conflicts => simp [Except.map]

theorem hasMetFailures_lineageIssues (h : s.lineageIssues.1 = .ok issues) : s.lineageIssues.2.HasMetFailures := by
  obtain ⟨conflicts, hconflicts, -⟩ := lineageIssues_eq_ok.1 h
  have hsame : s.lineageIssues.2.analysis = s.analysis := (continues_after s .issues).analysis
  intro c hc
  rw [hsame] at hc
  exact mem_incidents_meet (.inr (Lineage.mem_incidents_conflictIssues hconflicts hc))

theorem Continues.incidents_eq (h : s.Continues t) (hs : s.HasMetFailures) : t.incidents = s.incidents := by
  obtain ⟨met, hmet, hnew⟩ := h.incidents
  have hnil : met = [] := by
    refine List.eq_nil_iff_forall_not_mem.2 fun i hi => ?_
    obtain ⟨c, hc, rfl⟩ := (hnew i hi).2
    exact (hnew _ hi).1 (hs c hc)
  rw [hmet, hnil, List.append_nil]

theorem Continues.mergeIssues_eq_iff (h : s.Continues t) :
    s.mergeIssues = t.mergeIssues ↔ s.incidents = t.incidents := by
  obtain ⟨met, hmet, hnew⟩ := h.incidents
  unfold mergeIssues
  rw [h.analysis, hmet, List.filterMap_append, List.self_eq_append_right, List.self_eq_append_right]
  refine ⟨fun hnone => ?_, fun hnil => by rw [hnil]; rfl⟩
  refine List.eq_nil_iff_forall_not_mem.2 fun i hi => ?_
  obtain ⟨c, hc, rfl⟩ := (hnew i hi).2
  simpa using List.filterMap_eq_nil_iff.1 hnone _ hi

theorem mem_mergeIssues {x : Issue} :
    x ∈ s.mergeIssues ↔ ∃ c, .linearization c ∈ s.incidents ∧ x = s.analysis.mergeIssue c := by
  unfold mergeIssues
  rw [List.mem_filterMap]
  constructor
  · rintro ⟨i, hi, hx⟩
    cases i with
    | linearization c => exact ⟨c, hi, (Option.some.inj hx).symm⟩
    | control => cases hx
    | ssa => cases hx
  · rintro ⟨c, hc, rfl⟩
    exact ⟨_, hc, rfl⟩

theorem Continues.hasNoMerge (h : s.Continues t) (hs : s.incidents = []) {c : ContractId}
    (hc : .linearization c ∈ t.incidents) : s.analysis.HasNoMerge c := by
  obtain ⟨met, hmet, hnew⟩ := h.incidents
  rw [hmet, hs] at hc
  obtain ⟨d, hd, heq⟩ := (hnew _ hc).2
  exact Incident.linearization.inj heq ▸ hd

theorem mem_issues_iff (hbase : s.analysis.baseIssues = .ok s.baseIssues)
    (h : s.lineageIssues.1 = .ok issues) {x : Issue} :
    x ∈ issues ∧ x.kind = .linearizationFailure ↔
      ∃ c, .linearization c ∈ s.incidents ∧ x = s.analysis.mergeIssue c := by
  obtain ⟨conflicts, hconflicts, rfl⟩ := lineageIssues_eq_ok.1 h
  rw [← mem_mergeIssues]
  -- the other two parts of the issues are of other kinds
  constructor
  · rintro ⟨hx, hkind⟩
    obtain hx | hx := List.mem_append.1 hx
    · obtain hx | hx := List.mem_append.1 hx
      · exact absurd hkind (Lineage.kind_of_mem_baseIssues hbase hx)
      · exact hx
    · rw [Lineage.kind_of_mem_conflictIssues hconflicts hx] at hkind
      cases hkind
  · intro hx
    refine ⟨List.mem_append_left _ (List.mem_append_right _ hx), ?_⟩
    obtain ⟨c, -, rfl⟩ := mem_mergeIssues.1 hx
    rfl

theorem of_start_eq_ok {a : Arena} {plan : FailurePlan} {settings : Settings}
    (h : start a plan settings = .ok s) :
    s.analysis = analyse a plan settings ∧ s.analysis.baseIssues = .ok s.baseIssues ∧ s.incidents = [] := by
  obtain ⟨baseIssues, hbase, h⟩ := Outcome.bind_eq_ok.1 h
  obtain rfl := Except.ok.inj h
  exact ⟨rfl, hbase, rfl⟩

theorem exists_issues {a : Arena} {plan : FailurePlan} {settings : Settings} (hlegible : a.isLegible = true)
    (hs : s.analysis = analyse a plan settings) : ∃ issues, s.lineageIssues.1 = .ok issues := by
  obtain ⟨conflicts, hconflicts, -⟩ := Lineage.answers_conflictIssues
    (l := (analyse a plan settings).toLineage) (Outline.isLegible_ofArena plan hlegible)
    fun f c hc => Outline.isText_contractName hlegible (Outline.lt_size_of_contract hc)
  exact ⟨_, lineageIssues_eq_ok.2 ⟨conflicts, hs ▸ hconflicts, rfl⟩⟩

end Session

/--
The issues of a fresh session name no contract whose merge fails. From the second call on they are always the same and
name exactly those contracts. The first call gives them too just where every failing merge was met before it.
-/
theorem Session.issues_settle_with_first_call (a : Arena) (plan : FailurePlan) (settings : Settings)
    (fresh : Session) (hstart : start a plan settings = .ok fresh) :
    (∀ issues, fresh.lineageIssues.1 = .ok issues → ∀ i ∈ issues, i.kind ≠ .linearizationFailure) ∧
    ∀ history, let s := fresh.afterAll history
      let next := s.lineageIssues.2
      (a.isLegible = true → ∃ first, s.lineageIssues.1 = .ok first) ∧
      (∀ fault, s.lineageIssues.1 = .error fault →
        ∀ between, (next.afterAll between).lineageIssues.1 = .error fault) ∧
      ∀ first, s.lineageIssues.1 = .ok first →
        ∃ settled, (∀ between, (next.afterAll between).lineageIssues.1 = .ok settled) ∧
          (∀ i, i ∈ settled ∧ i.kind = .linearizationFailure ↔
            ∃ c, s.analysis.HasNoMerge c ∧ i = s.analysis.mergeIssue c) ∧
          (first = settled ↔ s.HasMetFailures) := by
  obtain ⟨hanalysis, hbase, hnone⟩ := of_start_eq_ok hstart
  refine ⟨fun issues hissues i hi hkind => ?_, fun history => ?_⟩
  · obtain ⟨c, hc, -⟩ := (mem_issues_iff hbase hissues).1 ⟨hi, hkind⟩
    rw [hnone] at hc
    cases hc
  intro s next
  have hs : fresh.Continues s := continues_afterAll fresh history
  have hnext : s.Continues next := continues_after s .issues
  refine ⟨fun hlegible => ?_, fun fault hfault between => ?_, fun first hfirst => ?_⟩
  · exact exists_issues hlegible (hs.analysis.trans hanalysis)
  · rw [lineageIssues_eq_error, (hnext.trans (continues_afterAll next between)).analysis]
    exact lineageIssues_eq_error.1 hfault
  have hmet : next.HasMetFailures := hasMetFailures_lineageIssues hfirst
  obtain ⟨conflicts, hconflicts, rfl⟩ := lineageIssues_eq_ok.1 hfirst
  -- Nothing is left to be met after the first call, so that no later question adds an incident.
  have hsettled (between : List Inquiry) : (next.afterAll between).lineageIssues.1
      = .ok (s.baseIssues ++ next.mergeIssues ++ conflicts) := by
    have hlater := continues_afterAll next between
    rw [lineageIssues_eq_ok, hlater.analysis, hnext.analysis]
    refine ⟨conflicts, hconflicts, ?_⟩
    rw [hlater.baseIssues, hnext.baseIssues, hlater.mergeIssues_eq_iff.2 (hlater.incidents_eq hmet).symm]
  refine ⟨_, hsettled, fun i => ?_, ?_⟩
  · have hfresh : fresh.Continues next := hs.trans hnext
    have hnow : next.lineageIssues.1 = _ := hsettled []
    rw [mem_issues_iff (by rw [hfresh.analysis, hfresh.baseIssues]; exact hbase) hnow, ← hnext.analysis]
    refine exists_congr fun c => and_congr_left fun _ => ⟨fun hc => ?_, hmet c⟩
    rw [hfresh.analysis]
    exact hfresh.hasNoMerge hnone hc
  · rw [List.append_left_inj, List.append_right_inj, hnext.mergeIssues_eq_iff]
    refine ⟨fun heq => ?_, fun hall => (hnext.incidents_eq hall).symm⟩
    rw [HasMetFailures, heq, ← hnext.analysis]
    exact hmet

namespace Crossed

open Sample

/-- A contract, one derived from it, and one that names the two in an order which that contradicts. -/
def nodes : Array Node := #[
  unit [1, 2, 5],
  contract "A" [] [],
  contract "B" [3] [],
  base 2 4,
  basePath 3 "A",
  contract "C" [6, 8] [],
  base 5 7,
  basePath 6 "B",
  base 5 9,
  basePath 8 "A"]

def arena : Arena :=
  arenaOf nodes (by decide +kernel)

/-- The failing merge comes up with the second call and not with the first. -/
theorem second_call_names_failing_merge : ∃ fresh, Session.start arena {} {} = .ok fresh ∧
    ∃ first settled, fresh.lineageIssues.1 = .ok first ∧
      (∀ between, (fresh.lineageIssues.2.afterAll between).lineageIssues.1 = .ok settled) ∧
      fresh.analysis.mergeIssue 2 ∉ first ∧ fresh.analysis.mergeIssue 2 ∈ settled := by
  have hmerge : (Session.analyse arena {} {}).HasNoMerge 2 := ⟨by decide +kernel, by decide +kernel⟩
  obtain ⟨fresh, hstart⟩ := Outcome.exists_of_isOk (e := Session.start arena {} {}) (by decide +kernel)
  obtain ⟨hnone, hcalls⟩ := Session.issues_settle_with_first_call arena {} {} fresh hstart
  obtain ⟨hreturns, -, hsettles⟩ := hcalls []
  obtain ⟨first, hfirst⟩ := hreturns (by decide +kernel)
  obtain ⟨settled, hlater, hmem, -⟩ := hsettles first hfirst
  rw [← (Session.of_start_eq_ok hstart).1] at hmerge
  refine ⟨fresh, hstart, first, settled, hfirst, hlater, fun hi => ?_, ((hmem _).2 ⟨2, hmerge, rfl⟩).1⟩
  exact hnone first hfirst _ hi rfl

end Crossed

end ContractFlow
