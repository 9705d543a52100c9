import ContractFlow.Flow.Taint

/-!
This module contains the flow graph of a program: its nodes and the steps between them.
-/

namespace ContractFlow

namespace FlowModel

variable (m : FlowModel)

def nextBy (flows : FlowNode → Query (List FlowNode)) (x : FlowNode) : Query (List FlowNode) :=
  return distinct (← (flows x).orElse [])

def localNext : FlowNode → Query (List FlowNode) :=
  nextBy m.localFlows

def jumpNext : FlowNode → Query (List FlowNode) :=
  nextBy m.jumpFlows

def taintNext : FlowNode → Query (List FlowNode) :=
  nextBy m.taintFlows

end FlowModel

structure FlowTable (m : FlowModel) where
  listed : Query (List FlowNode)
  sound : listed = m.listNodes
  known : Array FlowNode
  locals : Memo fun i => m.localNext (known.getD i default)
  jumps : Memo fun i => m.jumpNext (known.getD i default)
  taints : Memo fun i => m.taintNext (known.getD i default)

def FlowTable.ofModel (m : FlowModel) : FlowTable m :=
  let listed := m.listNodes
  let known := (listed.getD []).toArray
  { listed := listed
    sound := rfl
    known := known
    locals := .upTo _ known.size
    jumps := .upTo _ known.size
    taints := .upTo _ known.size }

/-- The steps between flow nodes; nothing is known of them before the first question. -/
structure FlowGraph extends FlowModel where
  table : Thunk (FlowTable toFlowModel)

namespace FlowGraph

def ofModel (m : FlowModel) : FlowGraph where
  toFlowModel := m
  table := .mk fun _ => .ofModel m

instance : Inhabited FlowGraph := ⟨ofModel default⟩

variable (g : FlowGraph)

def nodes : Query (List FlowNode) :=
  g.table.get.listed

theorem nodes_eq : g.nodes = g.listNodes :=
  g.table.get.sound

def localSteps (x : FlowNode) : Query (List FlowNode) :=
  match g.table.get.known.idxOf? x with
  | some i => g.table.get.locals.get i
  | none => g.localNext x

def jumpSteps (x : FlowNode) : Query (List FlowNode) :=
  match g.table.get.known.idxOf? x with
  | some i => g.table.get.jumps.get i
  | none => g.jumpNext x

def taintSteps (x : FlowNode) : Query (List FlowNode) :=
  match g.table.get.known.idxOf? x with
  | some i => g.table.get.taints.get i
  | none => g.taintNext x

end FlowGraph

end ContractFlow
