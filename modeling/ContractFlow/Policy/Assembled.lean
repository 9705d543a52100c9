import ContractFlow.Flow.Path
import ContractFlow.Policy.Criterion

/-!
This module contains policies that are put together from parts.
-/

namespace ContractFlow

inductive NodeTest where
  | never
  | always
  | criterion (c : Criterion)
  | kind (name : String)
  | among (nodes : List FlowNode)
deriving Inhabited

def NodeTest.passes (g : FlowGraph) (owner : Option CallableId) (x : FlowNode) : NodeTest → Query Bool
  | never => return false
  | always => return true
  | criterion c => g.meetsIn owner c x
  | kind name => return x.kind.name == name
  | among nodes => return nodes.contains x

structure Assembly where
  label : Value := "functional"
  maxCallDepth : Value
  source : NodeTest := .never
  sink : NodeTest := .never
  barrier : NodeTest := .never
  flowSteps : List (FlowNode × FlowNode) := []
  taintSteps : List (FlowNode × FlowNode) := []
deriving Inhabited

def targetsIn (steps : List (FlowNode × FlowNode)) (x : FlowNode) : List FlowNode :=
  (steps.filter (·.1 == x)).map (·.2)

def Assembly.policy (a : Assembly) (g : FlowGraph) : Policy where
  name := a.label
  maxCallDepth := a.maxCallDepth
  isSource x := a.source.passes g (g.flowOwner? x) x
  isSink x := a.sink.passes g (g.flowOwner? x) x
  isBarrier owner x := a.barrier.passes g owner x
  flowSteps x := return targetsIn a.flowSteps x
  taintSteps x := return targetsIn a.taintSteps x

end ContractFlow
