import ContractFlow.Flow.Graph

/-!
This module contains what a search for flows looks for, and the steps it takes.
-/

namespace ContractFlow

inductive FlowMode where
  | data
  | taint
deriving DecidableEq, Inhabited

def FlowMode.name : FlowMode → String
  | data => "data"
  | taint => "taint"

structure Policy where
  name : Value
  maxCallDepth : Value
  isSource : FlowNode → Query Bool
  isSink : FlowNode → Query Bool
  /-- Whether a node must not be passed, given the callable that it is known to belong to. -/
  isBarrier : Option CallableId → FlowNode → Query Bool
  flowSteps : FlowNode → Query (List FlowNode)
  taintSteps : FlowNode → Query (List FlowNode)
deriving Inhabited

namespace Policy

def isBeyond (p : Policy) (depth : Int) : Except Fault Bool :=
  match p.maxCallDepth.compareInt? depth with
  | some order => .ok (order == some .gt)
  | none => .error .notANumber

def checkKey (p : Policy) : Except Fault Unit :=
  if p.name.isKey && p.maxCallDepth.isKey then .ok () else .error .notAKey

end Policy

def depthChange : FlowNode → FlowNode → Int
  | .argument .., .parameter .. => 1
  | .result .., .callResult .. => -1
  | _, _ => 0

namespace FlowGraph

variable (g : FlowGraph)

def steps (p : Policy) (mode : FlowMode) (x : FlowNode) : Query (List (FlowNode × Int)) := do
  let inside ← g.localSteps x
  let jumps ← g.jumpSteps x
  let more ← p.flowSteps x
  let data := inside.map (·, 0) ++ jumps.map (fun y => (y, depthChange x y)) ++ more.map (·, 0)
  match mode with
  | .data => return data
  | .taint =>
    let tainted ← g.taintSteps x
    let more ← p.taintSteps x
    return data ++ tainted.map (·, 0) ++ more.map (·, 0)

end FlowGraph

end ContractFlow
