import ContractFlow.Graph.Dominator
import ContractFlow.Ssa.Form

/-! This module makes the static single assignment form of a callable. -/

namespace ContractFlow

structure SsaSource where
  program : Program
  graph : ControlGraph
  dominators : Graph.Dominators

namespace SsaSource

def ofGraph (p : Program) (g : ControlGraph) : SsaSource where
  program := p
  graph := g
  dominators := .compute g.next g.prior g.size Draft.entry

variable (s : SsaSource)

def writes (i : Nat) : List Write :=
  match (s.graph.point i).kind with
  | .entry => s.program.entryWrites s.graph.callable
  | .visit n => s.program.writesAt n
  | .exit | .join => []

def tracked : List NodeId :=
  let entry := (s.program.entryWrites s.graph.callable).map (·.variableNode)
  distinct (entry ++ s.dominators.order.toList.flatMap fun i => (s.writes i).map (·.variableNode))

def writers (x : NodeId) : List Nat :=
  s.dominators.order.toList.filter fun i => (s.writes i).any (·.variableNode == x)

def phiPoints (x : NodeId) : List Nat :=
  let first := distinct ((s.writers x).flatMap s.dominators.frontier)
  let all := Graph.closureFrom s.dominators.frontier s.graph.size first first
  s.graph.indices.filter all.contains

def phis : List Definition :=
  s.tracked.flatMap fun x => (s.phiPoints x).map fun i => ⟨.phi, x, i, none⟩

end SsaSource

abbrev Bindings := List (NodeId × Nat)

structure Renaming where
  definitions : Array Definition
  uses : List (NodeId × Nat) := []
  undefined : List NodeId := []
  inputs : List (Nat × Nat) := []
  atExit : List (NodeId × Nat) := []
deriving Inhabited

namespace Renaming

def define (r : Renaming) (env : Bindings) (d : Definition) : Renaming × Bindings :=
  ({ r with definitions := r.definitions.push d }, (d.variableNode, r.definitions.size) :: env)

def read (r : Renaming) (env : Bindings) (use x : NodeId) : Renaming :=
  match env.lookup x with
  | some d => { r with uses := r.uses ++ [(use, d)] }
  | none => { r with undefined := r.undefined ++ [use] }

end Renaming

structure RenamingPlan where
  source : SsaSource
  tracked : List NodeId
  phis : Array Definition

namespace RenamingPlan

def ofSource (s : SsaSource) : RenamingPlan :=
  ⟨s, s.tracked, s.phis.toArray⟩

variable (p : RenamingPlan)

def phisAt (i : Nat) : List (NodeId × Nat) :=
  (List.range p.phis.size).filterMap fun d =>
    let phi := p.phis.getD d default
    if phi.point == i then some (phi.variableNode, d) else none

def readAt (i : Nat) (env : Bindings) (r : Renaming) : Renaming :=
  match p.source.graph.node? i with
  | none => r
  | some n =>
    match p.source.program.localOf? n with
    | none => r
    | some x => if p.tracked.contains x && p.source.program.isRead n then r.read env n x else r

def writeAt (i : Nat) (env : Bindings) (r : Renaming) : Renaming × Bindings :=
  (p.source.writes i).foldl
    (fun (r, env) w => r.define env ⟨w.kind, w.variableNode, i, some w.site⟩) (r, env)

def exitAt (i : Nat) (env : Bindings) (r : Renaming) : Renaming :=
  if (p.source.graph.point i).kind == .exit then
    { r with atExit := p.tracked.filterMap fun x => (env.lookup x).map (x, ·) }
  else r

def passOn (i : Nat) (env : Bindings) (r : Renaming) : Renaming :=
  let merged := (p.source.graph.next i).flatMap fun j =>
    (p.phisAt j).filterMap fun (x, phi) => (env.lookup x).map (phi, ·)
  { r with inputs := r.inputs ++ merged }

def renameAt (i : Nat) (env : Bindings) (r : Renaming) : Renaming × Bindings :=
  let env := p.phisAt i ++ env
  let r := p.readAt i env r
  let (r, env) := p.writeAt i env r
  (p.passOn i env (p.exitAt i env r), env)

def rename (q : Nat) (env : Bindings) (r : Renaming) : Renaming :=
  let (r, env) := p.renameAt (p.source.dominators.vertex q) env r
  (p.source.dominators.children q).attach.foldl
    (fun (r : Renaming) (c : { c // c ∈ p.source.dominators.children q }) =>
      have := Graph.Dominators.lt_of_mem_children c.2
      rename c.1 env r) r
termination_by p.source.dominators.size - q

end RenamingPlan

abbrev Removals := List (Nat × Option Nat)

namespace Removals

def resolve (rs : Removals) (d : Nat) : Option Nat :=
  rs.foldl (fun r (phi, other) => if r == some phi then other else r) (some d)

def isRemoved (rs : Removals) (d : Nat) : Bool :=
  rs.any (·.1 == d)

def merged (rs : Removals) (phi : Nat) (inputs : List Nat) : List Nat :=
  distinct ((inputs.filterMap rs.resolve).filter (· != phi))

def consider (rs : Removals) (phi : Nat) (inputs : List Nat) : Removals :=
  if rs.isRemoved phi then rs
  else
    match rs.merged phi inputs with
    | [] => rs ++ [(phi, none)]
    | [d] => rs ++ [(phi, some d)]
    | _ => rs

def round (inputs : List (Nat × List Nat)) (rs : Removals) : Removals :=
  inputs.foldl (fun rs (phi, ds) => rs.consider phi ds) rs

def settle (inputs : List (Nat × List Nat)) (rs : Removals) : Removals :=
  if rs.length < (round inputs rs).length ∧ rs.length < inputs.length then
    settle inputs (round inputs rs)
  else round inputs rs
termination_by inputs.length - rs.length

end Removals

namespace Renaming

def phiInputs (r : Renaming) (count : Nat) : List (Nat × List Nat) :=
  (List.range count).map fun phi => (phi, (r.inputs.filter (·.1 == phi)).map (·.2))

def finishWith (r : Renaming) (g : ControlGraph) (count : Nat) (removals : Removals) : SsaForm :=
  let kept := (List.range r.definitions.size).filter fun d => !removals.isRemoved d
  let final (d : Nat) : Option Nat := (removals.resolve d).map fun d => kept.idxOf d
  let lost := r.uses.filter fun u => (removals.resolve u.2).isNone
  { graph := g
    definitions := (kept.map fun d => r.definitions.getD d default).toArray
    uses := r.uses.filterMap fun (use, d) => (final d).map (use, ·)
    inputs := ((r.phiInputs count).filter fun (phi, _) => !removals.isRemoved phi).map fun (phi, ds) =>
      (kept.idxOf phi, (removals.merged phi ds).map kept.idxOf)
    atExit := r.atExit.filterMap fun (x, d) => (final d).map (x, ·)
    undefined := r.undefined ++ lost.map (·.1) }

def finish (r : Renaming) (g : ControlGraph) (count : Nat) : SsaForm :=
  r.finishWith g count (.settle (r.phiInputs count) [])

end Renaming

def SsaForm.ofGraph (p : Program) (g : ControlGraph) : SsaForm :=
  let plan := RenamingPlan.ofSource (.ofGraph p g)
  let renamed := plan.rename 0 [] { definitions := plan.phis }
  renamed.finish g plan.phis.size

end ContractFlow
