import ContractFlow.Report.Reference
import ContractFlow.Ssa.Form

/-!
This module reports control flow graphs and single assignment forms.
-/

namespace ContractFlow.Report

variable (p : Program)

def number (n : Nat) : Value :=
  .int n

def numbers (ns : List Nat) : Value :=
  .array number ns

def edges (otherEnd : Edge → Nat) (es : List Edge) : Value :=
  .array (fun e => .list [number (otherEnd e), .text e.kind.name]) es

def point (g : ControlGraph) (i : Nat) : Value :=
  .list
    [.text (g.point i).kind.name, nodeRef? p (g.node? i), .text (g.describePoint p.arena i),
     callableRef p (g.point i).owner, .bool (g.node? i).isNone, .bool (g.isLive i)]

def controlGraph (g : ControlGraph) : Value :=
  let statements := g.statements p.arena
  let dead := statements.filter fun s => !s.2
  .object
    [("nodes", .array (point p g) g.indices),
     ("succ", .array (fun i => edges (·.target) (g.edgesFrom i)) g.indices),
     ("pred", .array (fun i => edges (·.source) (g.edgesTo i)) g.indices),
     ("spliced", .bool g.isSpliced), ("count", number g.size),
     ("syntax", number (g.indices.filterMap g.node?).length), ("dead", numbers g.dead),
     ("live", number g.live.length),
     ("statements", .array (fun (n, live) => .list [nodeRef p n, .bool live]) statements),
     ("dead_statements", nodeRefs p (dead.map (·.1))),
     ("repr", .text ("<CFG " ++ p.describeCallable g.callable ++ " nodes=" ++ toString g.size ++ ">"))]

def definition (s : SsaForm) (i : Nat) : Value :=
  let d := s.definition i
  let name := p.arena.name d.variableNode
  .list
    [.text d.kind.name, name, nodeRef p d.variableNode, number d.point, nodeRef? p d.site,
     .text ("<SsaDef#" ++ toString i ++ " " ++ d.kind.name ++ " " ++ name.display ++ ">")]

def perVariable (vars : List NodeId) (f : NodeId → Option Nat) : Value :=
  .array (fun x => .list [nodeRef p x, .option number (f x)]) vars

def form (s : SsaForm) : Value :=
  let vars := distinct (s.definitions.toList.map (·.variableNode))
  let sites := distinct (s.definitions.toList.filterMap (·.site))
  .object
    [("defs", .array (definition p s) s.indices),
     ("phi_inputs", .array (fun d => .list [number d, numbers (s.phiInputs d)]) s.phis),
     ("uses", .array (fun (u, d) => .list [nodeRef p u, number d]) s.uses),
     ("uses_of", .array (fun d => nodeRefs p (s.usesOf d)) s.indices),
     ("at_exit", perVariable p vars s.exitDefinition?),
     ("entry", perVariable p vars s.entryDefinition?),
     ("of_variable", .array (fun x => numbers (s.definitionsOf x)) vars),
     ("at_site", .array (fun n => .list [nodeRef p n, numbers (s.definitionsAt n)]) sites),
     ("undefined", nodeRefs p s.undefined)]

end ContractFlow.Report
