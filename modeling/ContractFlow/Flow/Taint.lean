import ContractFlow.Flow.Universe

/-!
This module contains the flow of taint: steps on which a value changes and is still decided by what it
was made of.
-/

namespace ContractFlow

def Arena.calledName (a : Arena) (call : NodeId) : Value :=
  match a.callee? call with
  | none => ""
  | some c =>
    match a.kind c with
    | .identifier => a.text c
    | .memberAccess =>
      let base := (a.child? c "expression").filter fun b =>
        a.kind b == .identifier || a.kind b == .elementaryTypeNameExpression
      ((base.map a.text).getD "").display ++ "." ++ (a.text c).display
    | _ => ""

namespace FlowModel

variable (m : FlowModel)

def mixingFunctions : List String :=
  ["string.concat", "bytes.concat", "abi.encode", "abi.encodePacked", "abi.encodeWithSelector",
   "abi.encodeWithSignature", "abi.encodeCall", "keccak256", "sha256", "sha3", "ripemd160"]

def allResults (call : NodeId) : Query (List FlowNode) := do
  let arity ← m.resultArity call
  return (FlowNode.positions arity).map (.callResult call)

def pushTargets (container call : NodeId) : Except Fault (List FlowNode) := do
  let written ← m.writeNodes call container
  let isLocal := (← m.findVariable container).any m.isLocal
  return written ++ if isLocal then [.postUpdate container call] else []

def builtinTaint (call : NodeId) (position : Int) : Query (List FlowNode) :=
  let name := m.arena.calledName call
  if name.isOneOf mixingFunctions then return [.callResult call 0]
  else if name == "abi.decode" && position = 0 then m.allResults call
  else if name == ".push" && 0 ≤ position then
    match m.arena.receiver? call with
    | none => return []
    | some base => m.pushTargets base call
  else return []

def argumentTaint (call : NodeId) (position : Int) : Query (List FlowNode) := do
  if m.arena.kind call != .functionCall then return []
  match ← m.callKind call with
  | .builtin => m.builtinTaint call position
  | .lowLevel =>
    let name := ((m.arena.callee? call).map m.arena.text).getD ""
    if name.isOneOf ["call", "delegatecall", "staticcall", "callcode"] && position = 0 then
      m.allResults call
    else return []
  | _ => return []

def expressionTaint (n : NodeId) : Query (List FlowNode) :=
  let a := m.arena
  match a.parent? n with
  | none => return []
  | some p =>
    match a.kind p with
    | .assignment =>
      if a.text p == "=" then return []
      else
        match a.child? p "leftHandSide" with
        | none => return []
        | some target => return .expression p :: (← m.assignmentTargets target p)
    | .unaryOperation =>
      if (a.text p).isOneOf ["++", "--"] then m.assignmentTargets n p else return []
    | .memberAccess =>
      return if a.role n == "expression" && (a.callSiteOf? p).isNone then [.expression p] else []
    | _ => return []

def taintFlows : FlowNode → Query (List FlowNode)
  | .expression n => m.expressionTaint n
  | .argument call i => m.argumentTaint call i
  | _ => return []

end FlowModel

end ContractFlow
