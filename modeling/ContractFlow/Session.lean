import ContractFlow.Flow.Graph
import ContractFlow.Lineage.Depth

/-!
This module contains a session of questions about one program. It remembers what was found, demanded and turned out to
be impossible.
-/

namespace ContractFlow

inductive Subject where
  | callable (f : CallableId)
  | other (type : String) (isKey : Bool)
deriving DecidableEq, Inhabited

inductive Rejection where
  | notACallable (type : String)
  | notAKey
deriving DecidableEq, Inhabited

def Rejection.message : Rejection → String
  | notACallable type => "expected a callable definition, got " ++ type
  | notAKey => Fault.notAKey.message

structure Construction where
  graph : Bool → CallableId → Query ControlGraph
  form : ControlGraph → CallableId → Query SsaForm

namespace Construction

variable (b : Construction)

def graph? (spliced : Bool) (f : CallableId) : Query (Option ControlGraph) :=
  (b.graph spliced f).orReport (.control f spliced)

def form? (g : Option ControlGraph) (f : CallableId) : Query (Option SsaForm) :=
  match g with
  | none => return none
  | some g => (b.form g f).orReport (.ssa f)

end Construction

def ControlFlow.construction (c : ControlFlow) : Construction where
  graph := c.makeGraph c.plan
  form := c.makeForm

structure Session where
  analysis : FlowGraph
  settings : Settings
  make : Construction := analysis.construction
  baseIssues : List Issue := []
  depths : Depths := []
  graphs : List ((CallableId × Bool) × Option ControlGraph) := []
  forms : List (CallableId × Option SsaForm) := []
  incidents : List Incident := []

namespace Session

def analyse (a : Arena) (plan : FailurePlan) (settings : Settings) : FlowGraph :=
  let lineage := Lineage.ofProgram (.ofArena a plan)
  let calls := CallGraph.ofLinkage (.ofLineage lineage settings.virtualDispatch)
  let values := ValueFlow.ofControlFlow (.ofCallGraph calls plan)
  .ofModel ⟨values, settings.aliasing, settings.spliceModifiers⟩

def start (a : Arena) (plan : FailurePlan) (settings : Settings) : Except Fault Session := do
  let analysis := analyse a plan settings
  let baseIssues ← analysis.baseIssues
  return { analysis, settings, baseIssues }

/-- Records an incident. That a merge fails is found out once for each contract. -/
def noteOne (s : Session) (i : Incident) : Session :=
  match i with
  | .linearization _ => if s.incidents.contains i then s else { s with incidents := s.incidents ++ [i] }
  | _ => { s with incidents := s.incidents ++ [i] }

def note (s : Session) (incidents : List Incident) : Session :=
  incidents.foldl noteOne s

/-- Records an incident that a question meets, unless it is about a part that was demanded before. -/
def meetOne (s : Session) (i : Incident) : Session :=
  match i with
  | .linearization _ => s.noteOne i
  | .control f spliced _ =>
    if (s.graphs.lookup (f, spliced)).isSome then s
    else { s.noteOne i with graphs := ((f, spliced), none) :: s.graphs }
  | .ssa f _ =>
    if (s.forms.lookup f).isSome then s else { s.noteOne i with forms := (f, none) :: s.forms }

def ask (s : Session) (q : Query α) : Except Fault α × Session :=
  (q.outcome, q.incidents.foldl meetOne s)

def askDepths (s : Session) : List ContractId → List Nat × Session
  | [] => ([], s)
  | c :: rest =>
    let (d, depths) := s.analysis.depth s.depths c
    let (ds, s) := askDepths { s with depths } rest
    (d :: ds, s)

def mergeIssues (s : Session) : List Issue :=
  s.incidents.filterMap fun
    | .linearization c => some (s.analysis.mergeIssue c)
    | _ => none

def failureIssue (s : Session) (f : CallableId) (part : String) (fault : Fault) : Issue :=
  let c := s.analysis.callableD f
  { kind := .analysisFailure
    message := part ++ " construction failed: " ++ fault.message
    contract := (c.contract.map s.analysis.contractName).getD ""
    callable := c.name }

def failure? (s : Session) : Incident → Option Issue
  | .control f _ fault => some (s.failureIssue f "CFG" fault)
  | .ssa f fault => some (s.failureIssue f "SSA" fault)
  | .linearization _ => none

def failures (s : Session) : List Issue :=
  s.incidents.filterMap s.failure?

def lineageIssues (s : Session) : Except Fault (List Issue) × Session :=
  let known := s.baseIssues ++ s.mergeIssues
  let (conflicts, s) := s.ask s.analysis.conflictIssues
  (conflicts.map (known ++ ·), s)

def issues (s : Session) : Except Fault (List Issue) × Session :=
  let (found, s) := s.lineageIssues
  (found.map (s.analysis.issues ++ · ++ s.failures), s)

def graphFor (s : Session) (f : CallableId) (spliced : Bool) : Option ControlGraph × Session :=
  match s.graphs.lookup (f, spliced) with
  | some g => (g, s)
  | none =>
    let made := s.make.graph? spliced f
    let g := made.getD none
    (g, { s.note made.incidents with graphs := ((f, spliced), g) :: s.graphs })

def formFor (s : Session) (f : CallableId) : Option SsaForm × Session :=
  match s.forms.lookup f with
  | some x => (x, s)
  | none =>
    let (g, s) := s.graphFor f false
    let made := s.make.form? g f
    let x := made.getD none
    (x, { s.note made.incidents with forms := (f, x) :: s.forms })

def graphOf (s : Session) (x : Subject) (spliced : Bool) :
    Except Rejection (Option ControlGraph) × Session :=
  match x with
  | .callable f =>
    let (g, s) := s.graphFor f spliced
    (.ok g, s)
  | .other type _ => (.error (.notACallable type), s)

def settledGraphOf (s : Session) (x : Subject) : Except Rejection (Option ControlGraph) × Session :=
  s.graphOf x s.settings.spliceModifiers

def formOf (s : Session) (x : Subject) : Except Rejection (Option SsaForm) × Session :=
  match x with
  | .callable f =>
    let (form, s) := s.formFor f
    (.ok form, s)
  | .other type isKey => (.error (if isKey then .notACallable type else .notAKey), s)

def implemented (s : Session) : List CallableId :=
  s.analysis.callableIds.filter fun f => (s.analysis.callableD f).isImplemented

def buildAll (s : Session) : Session :=
  s.implemented.foldl (fun s f => ((s.formFor f).2.graphFor f s.settings.spliceModifiers).2) s

end Session

end ContractFlow
