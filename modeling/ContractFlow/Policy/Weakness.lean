import ContractFlow.Flow.Path
import ContractFlow.Policy.Criterion
import ContractFlow.Policy.StaleWrite

/-!
This module contains the policies for common weaknesses of contracts.
-/

namespace ContractFlow

inductive Weakness where
  | callTarget | delegatecall | valueTransfer | selfdestruct | arrayIndex | reentrancy
  | uncheckedReturn
deriving DecidableEq, Inhabited

structure PolicyOptions where
  maxCallDepth : Value
  respectChecks : Value := .bool true
deriving Inhabited

namespace Weakness

def name : Weakness → String
  | callTarget => "tainted-call-target"
  | delegatecall => "tainted-delegatecall"
  | valueTransfer => "tainted-value-transfer"
  | selfdestruct => "tainted-selfdestruct"
  | arrayIndex => "tainted-array-index"
  | reentrancy => "reentrancy"
  | uncheckedReturn => "unchecked-return"

def source : Weakness → Criterion
  | reentrancy => .externalResult
  | uncheckedReturn => .lowLevelResult
  | _ => .untrustedInput

def sink : Weakness → Criterion
  | callTarget => .externalTarget
  | delegatecall => .delegateTarget
  | valueTransfer => .transferAmount
  | selfdestruct => .selfdestructArgument
  | arrayIndex => .arrayIndex
  | reentrancy => .stateWrite
  | uncheckedReturn => .checkedValue

def barrier? (options : PolicyOptions) : Weakness → Option Criterion
  | arrayIndex => if options.respectChecks.holds then some .validated else none
  | reentrancy => some .guardedCallable
  | _ => none

variable (g : FlowGraph)

def isSource (w : Weakness) (x : FlowNode) : Query Bool :=
  if w = .reentrancy && x.position != 0 then return false else g.meets w.source x

def stepsToWrites (w : Weakness) (x : FlowNode) : Query (List FlowNode) :=
  match w, x with
  | .reentrancy, .callResult call _ => do
    if ← w.isSource g x then g.writesAfter call else return []
  | _, _ => return []

def policy (w : Weakness) (options : PolicyOptions) : Policy where
  name := .text w.name
  maxCallDepth := options.maxCallDepth
  isSource := w.isSource g
  isSink := g.meets w.sink
  isBarrier owner x := match w.barrier? options with
    | some c => g.meetsIn owner c x
    | none => return false
  flowSteps := w.stepsToWrites g
  taintSteps _ := return []

end Weakness

def FlowGraph.uncheckedCalls (g : FlowGraph) (options : PolicyOptions) : Query (List NodeId) := do
  let p := Weakness.uncheckedReturn.policy g options
  let sources ← g.sources p
  let found ← sources.filterMapM fun x => do
    let r ← g.reach p .taint x
    if ← r.nodes.anyM p.isSink then return none else return x.call?
  return found

end ContractFlow
