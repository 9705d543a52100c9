import ContractFlow.Flow.Reach

/-!
This module contains the flows that a policy looks for.
-/

namespace ContractFlow

structure FlowPath where
  source : FlowNode
  sink : FlowNode
  nodes : List FlowNode
  truncated : Bool
deriving Inhabited

structure PathLimits where
  length : Int
  count : Int
deriving Inhabited

namespace FlowGraph

variable (g : FlowGraph)

def sources (p : Policy) : Query (List FlowNode) := do
  (← g.nodes).filterM p.isSource

def sinks (p : Policy) : Query (List FlowNode) := do
  (← g.nodes).filterM p.isSink

def pathsOf (limits : PathLimits) (sinks : List FlowNode) (r : FlowReach) : List FlowPath :=
  (r.nodes.filter sinks.contains).map fun sink =>
    let nodes := r.lastPathTo sink (some limits.length)
    ⟨r.source, sink, nodes, r.truncated || limits.length ≤ nodes.length⟩

def pathsFrom (limits : PathLimits) (p : Policy) (mode : FlowMode) (sinks : List FlowNode)
    (found : List FlowPath) : List FlowNode → Query (List FlowPath)
  | [] => return found
  | source :: rest => do
    let r ← g.reach p mode source
    let all := found ++ pathsOf limits sinks r
    if limits.count ≤ (all.length : Int) then return all.take limits.count.toNat
    else pathsFrom limits p mode sinks all rest

def flowPaths (limits : PathLimits) (p : Policy) (mode : FlowMode) (given : Option (List FlowNode)) :
    Query (List FlowPath) := do
  let sinks ← g.sinks p
  if sinks.isEmpty then return []
  let sources ← match given with
    | some xs => pure xs
    | none => g.sources p
  g.pathsFrom limits p mode sinks [] sources

end FlowGraph

end ContractFlow
