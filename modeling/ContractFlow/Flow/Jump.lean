import ContractFlow.Flow.Local

/-!
This module contains the flow of values between callables and through the state.
-/

namespace ContractFlow

namespace Arena

variable (a : Arena)

def pathTop (n : NodeId) : NodeId :=
  match h : a.parent? n with
  | none => n
  | some p =>
    have := a.lt_of_parent? h
    if (a.kind p).isPath && (a.role n == "baseExpression" || a.role n == "expression") then pathTop p
    else n
termination_by n

def tupleTop (n : NodeId) : NodeId :=
  match h : a.parent? n with
  | none => n
  | some p =>
    have := a.lt_of_parent? h
    if a.kind p == .tupleExpression then tupleTop p else n
termination_by n

def isWriteRoot (n : NodeId) : Bool :=
  let top := a.tupleTop (a.pathTop n)
  match a.parent? top with
  | none => false
  | some p =>
    match a.kind p with
    | .assignment => a.role top == "leftHandSide" && a.text p == "="
    | .unaryOperation => a.text p == "delete"
    | _ => false

def createdName (call : NodeId) : Value :=
  match (a.callee? call).bind fun c => a.child? c "typeName" with
  | none => ""
  | some type =>
    let path := ((a.child? type "pathNode").map a.name).getD ""
    path.or (a.node type).pathName

end Arena

namespace Program

variable (p : Program)

def stateReadOf (n : NodeId) : Except Fault (Option NodeId) := do
  return (← p.findVariable n).filter fun d => p.isState d && !p.arena.isWriteRoot n

def stateReads (decl : NodeId) : Except Fault (List NodeId) :=
  (List.range p.arena.size).filterM fun n => do
    return (← p.stateReadOf n) == some decl

end Program

namespace FlowModel

variable (m : FlowModel)

def parameterNode (f : CallableId) (position : Int) : List FlowNode :=
  if 0 ≤ position && position < ((m.callableD f).arity : Int) then [.parameter f position.toNat] else []

def invocationTargets (site : NodeId) (position : Int) : Query (List FlowNode) := do
  let invocation := (m.owner? site).bind fun f =>
    (m.callableD f).invocations.find? fun i => i.node == site
  match if position < 0 then none else invocation with
  | none => return []
  | some i =>
    let target ← match ← m.modifierFor i none with
      | some f => pure (some f)
      | none => m.baseConstructor i
    match target with
    | none => return []
    | some f => return m.parameterNode f position

def constructorTargets (contract : Value) (position : Int) : Except Fault (List FlowNode) := do
  match (← m.contractNamed contract).bind m.constructor? with
  | none => return []
  | some f => return m.parameterNode f position

def edgeTargets (e : CallEdge) (position : Int) : List FlowNode :=
  match e.callee with
  | none => []
  | some f =>
    if position = FlowNode.receiver then if e.offset == 1 then m.parameterNode f 0 else []
    else if position < 0 then []
    else m.parameterNode f (position + e.offset)

def argumentTargets (site : NodeId) (position : Int) : Query (List FlowNode) :=
  match m.arena.kind site with
  | .modifierInvocation => m.invocationTargets site position
  | .inheritanceSpecifier =>
    m.constructorTargets (((m.arena.child? site "baseName").map m.arena.text).getD "") position
  | _ => do
    match ← m.callKind site with
    | .newContract => m.constructorTargets (m.arena.createdName site) position
    | _ => return (← m.edges site).flatMap fun e => m.edgeTargets e position

def callNodes : List NodeId :=
  (List.range m.arena.size).filter fun n => m.arena.kind n == .functionCall

def callersOf (f : CallableId) : Query (List NodeId) := do
  let edges ← m.callNodes.mapM m.edges
  return (edges.flatten.filter fun e => e.callee == some f).map (·.site)

def stateFlows (site decl : NodeId) : Except Fault (List FlowNode) := do
  let index := m.arena.writtenIndex? site
  let reads ← m.stateReads decl
  let seen := reads.filter fun n => !m.isApart index (m.arena.literalIndex? n)
  return seen.map (.stateRead · decl)

def jumpFlows : FlowNode → Query (List FlowNode)
  | .argument site i => m.argumentTargets site i
  | .result f i => return (← m.callersOf f).map (.callResult · i)
  | .stateWrite site decl => m.stateFlows site decl
  | _ => return []

end FlowModel

end ContractFlow
