import ContractFlow.Proofs.Call.Dispatch
import ContractFlow.Proofs.Lineage.Issue

/-! This module shows that parts of the analysis that cannot be made are isolated and recorded once. -/

namespace ContractFlow

inductive Part where
  | graph (f : CallableId) (spliced : Bool)
  | form (f : CallableId)
deriving DecidableEq

def Part.incident : Part → Fault → Incident
  | graph f spliced => .control f spliced
  | form f => .ssa f

def Incident.part? : Incident → Option Part
  | linearization _ => none
  | control f spliced _ => some (.graph f spliced)
  | ssa f _ => some (.form f)

namespace Query

variable {α : Type}

def fault? (q : Query α) : Option Fault :=
  match q.outcome with
  | .ok _ => none
  | .error e => some e

theorem incidents_orReport (q : Query α) (incident : Fault → Incident) :
    (q.orReport incident).incidents = q.incidents ++ (q.fault?.map incident).toList := by
  unfold orReport fault?
  cases q.outcome with
  | ok a => simp
  | error e => rfl

theorem getD_orReport (q : Query α) (incident : Fault → Incident) :
    (q.orReport incident).getD none = q.outcome.toOption := by
  unfold orReport getD
  cases q.outcome with
  | ok a => rfl
  | error e => rfl

end Query

namespace Construction

variable (b : Construction)

def graphMade (f : CallableId) (spliced : Bool) : Option ControlGraph :=
  (b.graph spliced f).outcome.toOption

def formMade (f : CallableId) : Option SsaForm :=
  (b.graphMade f false).bind fun g => (b.form g f).outcome.toOption

def fault? : Part → Option Fault
  | .graph f spliced => (b.graph spliced f).fault?
  | .form f => (b.graphMade f false).bind fun g => (b.form g f).fault?

def incident? (p : Part) : Option Incident :=
  (b.fault? p).map p.incident

structure IsSeparate : Prop where
  graph : ∀ spliced f, (b.graph spliced f).Reports (·.part? = none)
  form : ∀ g f, (b.form g f).Reports (·.part? = none)

def failing (faults : Part → Option Fault) : Construction where
  graph spliced f := match faults (.graph f spliced) with
    | some e => .fail e
    | none => b.graph spliced f
  form g f := match faults (.form f) with
    | some e => .fail e
    | none => b.form g f

variable {b}

theorem part?_of_incident? {p : Part} {i : Incident} (h : b.incident? p = some i) : i.part? = some p := by
  obtain ⟨e, -, rfl⟩ := Option.map_eq_some_iff.1 h
  cases p <;> rfl

theorem incidents_graph? (f : CallableId) (spliced : Bool) :
    (b.graph? spliced f).incidents = (b.graph spliced f).incidents ++ (b.incident? (.graph f spliced)).toList :=
  Query.incidents_orReport _ _

theorem getD_graph? (f : CallableId) (spliced : Bool) : (b.graph? spliced f).getD none = b.graphMade f spliced :=
  Query.getD_orReport _ _

theorem getD_form? (f : CallableId) : (b.form? (b.graphMade f false) f).getD none = b.formMade f := by
  unfold form? formMade
  cases b.graphMade f false with
  | none => rfl
  | some g => exact Query.getD_orReport _ _

theorem exists_incidents_form? (hb : b.IsSeparate) (f : CallableId) :
    ∃ others, (b.form? (b.graphMade f false) f).incidents = others ++ (b.incident? (.form f)).toList ∧
      ∀ i ∈ others, i.part? = none := by
  unfold incident? fault?
  dsimp only
  cases b.graphMade f false with
  | none => exact ⟨[], rfl, by simp⟩
  | some g => exact ⟨_, Query.incidents_orReport _ _, hb.form g f⟩

theorem IsSeparate.failing (hb : b.IsSeparate) (faults : Part → Option Fault) : (b.failing faults).IsSeparate := by
  constructor
  · intro spliced f
    unfold Construction.failing
    dsimp only
    split
    · exact .liftM (e := .error _)
    · exact hb.graph spliced f
  · intro g f
    unfold Construction.failing
    dsimp only
    split
    · exact .liftM (e := .error _)
    · exact hb.form g f

end Construction

namespace Lineage

variable {l : Lineage}

theorem reports_modifiersOf (f : CallableId) : (l.modifiersOf f).Reports (·.part? = none) := by
  have hcandidates (c : ContractId) (w : Wanted) : (l.candidatesFor c w none).Reports (·.part? = none) := by
    intro i hi
    obtain ⟨d, -, rfl⟩ := reports_candidatesFor c w none i hi
    rfl
  refine .filterMapM fun i => .bind ?_ fun _ => .pure
  refine .bind .liftM fun namesBase => ?_
  split
  · exact .pure
  · refine .bind .liftM fun home => ?_
    cases home with
    | none => exact .bind .pure fun _ => .pure
    | some c => exact .bind (.bind (hcandidates c _) fun _ => .pure) fun _ => .pure

theorem reports_makeGraph (plan : FailurePlan) (spliced : Bool) (f : CallableId) :
    (l.makeGraph plan spliced f).Reports (·.part? = none) := by
  have hgraph (b : Bool) : (if b then l.wrappers f >>= fun wrappers => pure (.ofLayers f wrappers (l.control f))
      else pure (.ofLayers f [] (l.control f)) : Query ControlGraph).Reports (·.part? = none) := by
    cases b with
    | false => exact .pure
    | true => exact .bind (.bind (reports_modifiersOf f) fun _ => .pure) fun _ => .pure
  unfold makeGraph
  dsimp only
  split
  · exact .bind (.liftM (e := .error _)) fun _ => hgraph spliced
  · exact hgraph spliced

end Lineage

namespace ControlFlow

theorem isSeparate_construction (c : ControlFlow) : c.construction.IsSeparate where
  graph := Lineage.reports_makeGraph c.plan
  form g f := by
    show (c.makeForm g f).Reports _
    unfold makeForm
    split
    · exact .bind (.liftM (e := .error _)) fun _ => .bind .liftM fun _ => .pure
    · exact .bind .liftM fun _ => .pure

end ControlFlow

namespace Session

variable {s t : Session}

theorem note_append (s : Session) (first second : List Incident) :
    s.note (first ++ second) = (s.note first).note second :=
  List.foldl_append

variable (s) (incidents : List Incident)

@[simp]
theorem analysis_note : (s.note incidents).analysis = s.analysis := by rw [note_eq]

@[simp]
theorem settings_note : (s.note incidents).settings = s.settings := by rw [note_eq]

@[simp]
theorem make_note : (s.note incidents).make = s.make := by rw [note_eq]

@[simp]
theorem graphs_note : (s.note incidents).graphs = s.graphs := by rw [note_eq]

@[simp]
theorem forms_note : (s.note incidents).forms = s.forms := by rw [note_eq]

variable {s}

def failed (s : Session) : List Incident :=
  s.incidents.filter (·.part?.isSome)

theorem failed_note_others {others : List Incident} (h : ∀ i ∈ others, i.part? = none) :
    (s.note others).failed = s.failed := by
  induction others generalizing s with
  | nil => rfl
  | cons i others ih =>
    obtain ⟨hi, hothers⟩ := List.forall_mem_cons.1 h
    refine (ih hothers).trans ?_
    unfold noteOne
    split
    · split <;> simp [failed, Incident.part?]
    · simp [failed, hi]

theorem failed_note_part {i : Incident} (hi : i.part?.isSome) : (s.note [i]).failed = s.failed ++ [i] := by
  show (s.noteOne i).failed = _
  cases i with
  | linearization c => cases hi
  | control f spliced e | ssa f e => simp [noteOne, failed, Incident.part?]

def withPart (parts : List Part) (p : Part) : List Part :=
  if parts.contains p then parts else parts ++ [p]

@[simp]
theorem mem_withPart {parts : List Part} {p q : Part} : q ∈ withPart parts p ↔ q ∈ parts ∨ q = p := by
  unfold withPart
  split
  · next hp =>
    refine ⟨.inl, fun h => h.elim id ?_⟩
    rintro rfl
    exact List.contains_iff_mem.1 hp
  · simp

structure Makes (s : Session) (parts : List Part) (t : Session) : Prop where
  analysis : t.analysis = s.analysis
  settings : t.settings = s.settings
  make : t.make = s.make
  graphs : ∀ f spliced, t.graphs.lookup (f, spliced) =
    if .graph f spliced ∈ parts then some (s.make.graphMade f spliced) else none
  forms : ∀ f, t.forms.lookup f = if .form f ∈ parts then some (s.make.formMade f) else none
  graph_of_form : ∀ f, .form f ∈ parts → .graph f false ∈ parts
  failed : t.failed = parts.filterMap s.make.incident?

namespace Makes

variable {parts : List Part} {p : Part}

theorem failed_note (h : s.Makes parts t) {others : List Incident} (hothers : ∀ i ∈ others, i.part? = none) :
    (t.note (others ++ (s.make.incident? p).toList)).failed = (parts ++ [p]).filterMap s.make.incident? := by
  have hsame : (t.note others).failed = parts.filterMap s.make.incident? :=
    (failed_note_others hothers).trans h.failed
  rw [note_append, List.filterMap_append, ← hsame]
  cases hi : s.make.incident? p with
  | none => simp [hi, note]
  | some i =>
    rw [Option.toList_some, failed_note_part (by simp [Construction.part?_of_incident? hi])]
    simp [hi]

theorem addGraph (h : s.Makes parts t) (hs : s.make.IsSeparate) {f : CallableId} {spliced : Bool}
    (hp : .graph f spliced ∉ parts) :
    s.Makes (parts ++ [.graph f spliced])
      { t.note (s.make.graph? spliced f).incidents with
        graphs := ((f, spliced), s.make.graphMade f spliced) :: t.graphs } := by
  refine ⟨by simp [h.analysis], by simp [h.settings], by simp [h.make], fun f' spliced' => ?_, fun f' => ?_,
    fun f' hf' => ?_, ?_⟩
  · simp only [List.lookup_cons, h.graphs]
    by_cases heq : f' = f ∧ spliced' = spliced
    · obtain ⟨rfl, rfl⟩ := heq
      simp
    · have hne : ((f', spliced') == (f, spliced)) = false := by simpa using heq
      simp [hne, heq]
  · simp [h.forms]
  · exact List.mem_append_left _ (h.graph_of_form f' (by simpa using hf'))
  · rw [Construction.incidents_graph?]
    exact h.failed_note (hs.graph spliced f)

theorem addForm (h : s.Makes parts t) (hs : s.make.IsSeparate) {f : CallableId} (hp : .form f ∉ parts)
    (hgraph : .graph f false ∈ parts) :
    s.Makes (parts ++ [.form f])
      { t.note (s.make.form? (s.make.graphMade f false) f).incidents with
        forms := (f, s.make.formMade f) :: t.forms } := by
  obtain ⟨others, hincidents, hothers⟩ := Construction.exists_incidents_form? hs f
  refine ⟨by simp [h.analysis], by simp [h.settings], by simp [h.make], fun f' spliced' => ?_, fun f' => ?_,
    fun f' hf' => ?_, ?_⟩
  · simp [h.graphs]
  · simp only [List.lookup_cons, h.forms]
    by_cases heq : f' = f
    · simp [heq]
    · simp [heq, beq_false_of_ne heq]
  · obtain hf' | hf' := List.mem_append.1 hf'
    · exact List.mem_append_left _ (h.graph_of_form f' hf')
    · obtain rfl := Part.form.inj (List.mem_singleton.1 hf')
      exact List.mem_append_left _ hgraph
  · rw [hincidents]
    exact h.failed_note hothers

theorem graphFor (h : s.Makes parts t) (hs : s.make.IsSeparate) (f : CallableId) (spliced : Bool) :
    (t.graphFor f spliced).1 = s.make.graphMade f spliced ∧
      s.Makes (withPart parts (.graph f spliced)) (t.graphFor f spliced).2 := by
  have hlookup := h.graphs f spliced
  unfold Session.graphFor withPart
  by_cases hp : .graph f spliced ∈ parts
  · rw [if_pos hp] at hlookup
    rw [hlookup, if_pos (List.contains_iff_mem.2 hp)]
    exact ⟨rfl, h⟩
  · rw [if_neg hp] at hlookup
    rw [hlookup, if_neg (mt List.contains_iff_mem.1 hp), h.make]
    simp only [Construction.getD_graph?]
    exact ⟨trivial, h.addGraph hs hp⟩

theorem formFor (h : s.Makes parts t) (hs : s.make.IsSeparate) (f : CallableId) :
    (t.formFor f).1 = s.make.formMade f ∧
      s.Makes (withPart (withPart parts (.graph f false)) (.form f)) (t.formFor f).2 := by
  have hlookup := h.forms f
  unfold Session.formFor
  by_cases hp : .form f ∈ parts
  · have hgraph := h.graph_of_form f hp
    rw [if_pos hp] at hlookup
    rw [hlookup, withPart, withPart, if_pos (List.contains_iff_mem.2 hgraph), if_pos (List.contains_iff_mem.2 hp)]
    exact ⟨rfl, h⟩
  · rw [if_neg hp] at hlookup
    rw [hlookup]
    obtain ⟨hmade, hgraph⟩ := h.graphFor hs f false
    have hp' : .form f ∉ withPart parts (.graph f false) := by simpa using hp
    simp only [hmade, hgraph.make, Construction.getD_form?]
    rw [withPart, if_neg (mt List.contains_iff_mem.1 hp')]
    exact ⟨trivial, hgraph.addForm hs hp' (by simp)⟩

end Makes

end Session

inductive Demand where
  | graph (x : Subject) (spliced : Bool)
  | settledGraph (x : Subject)
  | form (x : Subject)
  | all

inductive Supply where
  | graph (g : Option ControlGraph)
  | form (form : Option SsaForm)
  | done

namespace Session

def serve (s : Session) : Demand → Except Rejection Supply × Session
  | .graph x spliced => ((s.graphOf x spliced).1.map .graph, (s.graphOf x spliced).2)
  | .settledGraph x => ((s.settledGraphOf x).1.map .graph, (s.settledGraphOf x).2)
  | .form x => ((s.formOf x).1.map .form, (s.formOf x).2)
  | .all => (.ok .done, s.buildAll)

def serveAll (s : Session) (demands : List Demand) : Session :=
  demands.foldl (fun s d => (s.serve d).2) s

def foundGraph (s : Session) (spliced : Bool) : Subject → Except Rejection Supply
  | .callable f => .ok (.graph (s.make.graphMade f spliced))
  | .other type _ => .error (.notACallable type)

/-- What there is to be found under a demand, whatever was demanded before. -/
def found (s : Session) : Demand → Except Rejection Supply
  | .graph x spliced => s.foundGraph spliced x
  | .settledGraph x => s.foundGraph s.settings.spliceModifiers x
  | .form (.callable f) => .ok (.form (s.make.formMade f))
  | .form (.other type isKey) => .error (if isKey then .notACallable type else .notAKey)
  | .all => .ok .done

def graphParts (spliced : Bool) : Subject → List Part
  | .callable f => [.graph f spliced]
  | .other _ _ => []

def formParts : Subject → List Part
  | .callable f => [.graph f false, .form f]
  | .other _ _ => []

/-- The parts that a demand needs, in the order in which they are made. -/
def parts (s : Session) : Demand → List Part
  | .graph x spliced => graphParts spliced x
  | .settledGraph x => graphParts s.settings.spliceModifiers x
  | .form x => formParts x
  | .all => s.implemented.flatMap fun f =>
    formParts (.callable f) ++ graphParts s.settings.spliceModifiers (.callable f)

def partIssue (s : Session) : Part → Fault → Issue
  | .graph f _ => s.failureIssue f "CFG"
  | .form f => s.failureIssue f "SSA"

variable {s t : Session} {known : List Part}

theorem Makes.graphOf (h : s.Makes known t) (hs : s.make.IsSeparate) (x : Subject) (spliced : Bool) :
    (t.graphOf x spliced).1.map .graph = s.foundGraph spliced x ∧
      s.Makes ((graphParts spliced x).foldl withPart known) (t.graphOf x spliced).2 := by
  cases x with
  | callable f =>
    obtain ⟨hmade, hmakes⟩ := h.graphFor hs f spliced
    exact ⟨congrArg (fun g => Except.ok (Supply.graph g)) hmade, hmakes⟩
  | other type isKey => exact ⟨rfl, h⟩

theorem Makes.build (h : s.Makes known t) (hs : s.make.IsSeparate) (fs : List CallableId) :
    s.Makes ((fs.flatMap fun f =>
        formParts (.callable f) ++ graphParts s.settings.spliceModifiers (.callable f)).foldl withPart known)
      (fs.foldl (fun s f => ((s.formFor f).2.graphFor f s.settings.spliceModifiers).2) t) := by
  induction fs generalizing known t with
  | nil => exact h
  | cons f fs ih =>
    obtain ⟨-, hform⟩ := h.formFor hs f
    obtain ⟨-, hgraph⟩ := hform.graphFor hs f s.settings.spliceModifiers
    rw [List.foldl_cons, h.settings]
    exact ih hgraph

theorem Makes.buildAll (h : s.Makes known t) (hs : s.make.IsSeparate) :
    s.Makes ((s.parts .all).foldl withPart known) t.buildAll := by
  have hsame : t.implemented = s.implemented := by
    unfold implemented
    rw [h.analysis]
  unfold Session.buildAll
  rw [hsame]
  exact h.build hs s.implemented

theorem Makes.serve (h : s.Makes known t) (hs : s.make.IsSeparate) (d : Demand) :
    (t.serve d).1 = s.found d ∧ s.Makes ((s.parts d).foldl withPart known) (t.serve d).2 := by
  cases d with
  | graph x spliced => exact h.graphOf hs x spliced
  | settledGraph x =>
    show (t.graphOf x t.settings.spliceModifiers).1.map Supply.graph = _ ∧
      s.Makes _ (t.graphOf x t.settings.spliceModifiers).2
    rw [h.settings]
    exact h.graphOf hs x s.settings.spliceModifiers
  | form x =>
    cases x with
    | callable f =>
      obtain ⟨hmade, hmakes⟩ := h.formFor hs f
      exact ⟨congrArg (fun form => Except.ok (Supply.form form)) hmade, hmakes⟩
    | other type isKey => exact ⟨rfl, h⟩
  | all => exact ⟨rfl, h.buildAll hs⟩

theorem Makes.serveAll (h : s.Makes known t) (hs : s.make.IsSeparate) (demands : List Demand) :
    s.Makes ((demands.flatMap s.parts).foldl withPart known) (t.serveAll demands) := by
  induction demands generalizing known t with
  | nil => exact h
  | cons d demands ih =>
    rw [List.flatMap_cons, List.foldl_append]
    exact ih (h.serve hs d).2

theorem Makes.failures (h : s.Makes known t) :
    t.failures = known.filterMap fun p => (s.make.fault? p).map (s.partIssue p) := by
  have hfailed : t.failures = t.failed.filterMap s.failure? := by
    unfold Session.failures Session.failed
    rw [List.filterMap_filter]
    refine congrArg (List.filterMap · _) (funext fun i => ?_)
    cases i with
    | linearization c => rfl
    | control f spliced e => simp [failure?, failureIssue, Incident.part?, h.analysis]
    | ssa f e => simp [failure?, failureIssue, Incident.part?, h.analysis]
  rw [hfailed, h.failed, List.filterMap_filterMap]
  refine congrArg (List.filterMap · _) (funext fun p => ?_)
  unfold Construction.incident?
  cases s.make.fault? p with
  | none => rfl
  | some e => cases p <;> rfl

theorem serve_error (s : Session) (d : Demand) {r : Rejection} (h : (s.serve d).1 = .error r) : (s.serve d).2 = s := by
  cases d with
  | graph x | settledGraph x | form x =>
    cases x with
    | callable f => cases h
    | other type isKey => rfl
  | all => cases h

theorem exists_eq_of_start {a : Arena} {plan : FailurePlan} {settings : Settings}
    (h : start a plan settings = .ok s) :
    ∃ baseIssues, s = { analysis := analyse a plan settings, settings, baseIssues } := by
  obtain ⟨baseIssues, -, h⟩ := Outcome.bind_eq_ok.1 h
  exact ⟨baseIssues, (Except.ok.inj h).symm⟩

def withFaults (s : Session) (faults : Part → Option Fault) : Session :=
  { s with make := s.make.failing faults }

/--
Whatever parts fail in a session, and whatever was demanded in it before, a demand is answered as if it were the first
one. One issue is recorded for each part that fails and was needed, in the order in which they were needed first, and a
demand that is not about a callable is turned down and changes nothing.
-/
theorem failures_are_recorded_once (a : Arena) (plan : FailurePlan) (settings : Settings) (fresh : Session)
    (hstart : start a plan settings = .ok fresh) (faults : Part → Option Fault) (demands : List Demand) :
    let first := fresh.withFaults faults
    let s := first.serveAll demands
    (∀ d, (s.serve d).1 = (first.serve d).1 ∧ (first.serve d).1 = first.found d) ∧
    s.failures = ((distinct (demands.flatMap first.parts)).filterMap fun p =>
      (first.make.fault? p).map (first.partIssue p)) ∧
    ∀ d r, (s.serve d).1 = .error r → (s.serve d).2 = s := by
  obtain ⟨baseIssues, rfl⟩ := exists_eq_of_start hstart
  intro first s
  have hseparate : first.make.IsSeparate := (ControlFlow.isSeparate_construction _).failing faults
  have hfirst : first.Makes [] first :=
    ⟨rfl, rfl, rfl, fun _ _ => rfl, fun _ => rfl, fun _ hform => absurd hform List.not_mem_nil, rfl⟩
  have hs : first.Makes (distinct (demands.flatMap first.parts)) s := hfirst.serveAll hseparate demands
  refine ⟨fun d => ?_, hs.failures, fun d r => s.serve_error d⟩
  rw [(hs.serve hseparate d).1, (hfirst.serve hseparate d).1]
  exact ⟨rfl, rfl⟩

end Session

namespace OverrideSample

def faults : Part → Option Fault
  | .graph 0 false | .form 1 => some .planned
  | _ => none

def demands : List Demand :=
  [.form (.callable 0), .graph (.other "ContractDef" false) false, .form (.callable 0), .all,
    .graph (.callable 0) false, .form (.callable 1)]

def fresh : Session :=
  { analysis := analysis, settings := {} }

theorem start_eq : Session.start arena {} {} = .ok fresh := by
  have hnone : (Session.start arena {} {}).toOption.map (·.baseIssues.length) = some 0 := by decide +kernel
  cases hstart : Session.start arena {} {} with
  | error e => simp [hstart, Except.toOption] at hnone
  | ok s =>
    obtain ⟨baseIssues, rfl⟩ := Session.exists_eq_of_start hstart
    obtain rfl : baseIssues = [] := by simpa [hstart, Except.toOption] using hnone
    rfl

def first : Session :=
  fresh.withFaults faults

theorem distinct_parts : distinct (demands.flatMap first.parts) =
    [.graph 0 false, .form 0, .graph 0 true, .graph 1 false, .form 1, .graph 1 true, .graph 2 false, .form 2,
      .graph 2 true] := by
  decide +kernel

theorem fault?_parts : ∀ p ∈ distinct (demands.flatMap first.parts), first.make.fault? p = faults p := by
  decide +kernel

theorem failures_of_demands :
    (first.serveAll demands).failures = [first.failureIssue 0 "CFG" .planned, first.failureIssue 1 "SSA" .planned] ∧
    ((first.serveAll demands).serve (.form (.callable 0))).1 = .ok (.form none) ∧
    (first.serveAll demands).serve (.graph (.other "ContractDef" false) true) =
      (.error (.notACallable "ContractDef"), first.serveAll demands) := by
  obtain ⟨hanswers, hfailures, hrejected⟩ :=
    Session.failures_are_recorded_once arena {} {} fresh start_eq faults demands
  have hissues : ((distinct (demands.flatMap first.parts)).filterMap fun p =>
      (first.make.fault? p).map (first.partIssue p)) =
        [first.failureIssue 0 "CFG" .planned, first.failureIssue 1 "SSA" .planned] := by
    rw [List.filterMap_congr fun p hp => congrArg (Option.map (first.partIssue p)) (fault?_parts p hp),
      distinct_parts]
    rfl
  exact ⟨hfailures.trans hissues, (hanswers _).1.trans (hanswers _).2, Prod.ext rfl (hrejected _ _ rfl)⟩

end OverrideSample

end ContractFlow
