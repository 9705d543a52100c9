import ContractFlow.Modifier.Lock
import ContractFlow.Flow.Graph

/-!
This module contains the writes that may act on stale state: behind a call they write what was read
before it.
-/

namespace ContractFlow.FlowGraph

variable (g : FlowGraph)

def nodesAround (f : CallableId) : Query (List FlowNode) := do
  let own ← g.nodesIn f
  let modifiers ← g.modifiersOf f
  let others ← modifiers.mapM fun (_, m) => do
    if ← g.isLock m then return [] else g.nodesIn m
  return own ++ others.flatten

def readBefore (c : ControlGraph) (points : List Nat) (around : List FlowNode) : List NodeId :=
  around.filterMap fun
    | .stateRead n decl =>
      if (c.pointsAt n).any fun i => points.any (c.strictlyReaches i) then some decl else none
    | _ => none

def isWriteAfter (c : ControlGraph) (points : List Nat) (decls : List NodeId) : FlowNode → Bool
  | .stateWrite site decl =>
    decls.contains decl && (c.pointsAt site).any fun i => points.any fun p => c.strictlyReaches p i
  | _ => false

def writesAfter (call : NodeId) : Query (List FlowNode) :=
  match g.owner? call with
  | none => return []
  | some f => do
    match ← g.controlGraph? g.spliceModifiers f with
    | none => return []
    | some c =>
      let points := c.pointsAt call
      if points.isEmpty then return []
      let around ← g.nodesAround f
      return around.filter (isWriteAfter c points (readBefore c points around))

end ContractFlow.FlowGraph
