import ContractFlow.Flow.Jump

/-!
This module lists the flow nodes of a program.
-/

namespace ContractFlow.FlowModel

variable (m : FlowModel)

def resultArity (call : NodeId) : Query Nat :=
  match m.arena.container? call with
  | some container => return (m.arena.slots container).length
  | none => do
    let callees ← m.callees call
    return (callees.map fun f => (m.callableD f).returns.length).foldl max 1

def writeNodes (site target : NodeId) : Except Fault (List FlowNode) :=
  match m.arena.rootExpression? target with
  | none => .ok []
  | some root => do
    match ← m.findVariable root with
    | none => return []
    | some decl =>
      if m.isState decl then return [.stateWrite site decl]
      else if m.isLocal decl && root != target then return [.postUpdate root site]
      else return []

def allWriteNodes (site : NodeId) (targets : List NodeId) : Except Fault (List FlowNode) :=
  return (← targets.mapM (m.writeNodes site)).flatten

def hasOption (options : NodeId) (name : String) : Except Fault Bool :=
  match (m.arena.node options).attr? "names" with
  | none => .ok false
  | some (.list names) => .ok (names.contains (.text name))
  | some (.text s) => .ok ((s.splitOn name).length > 1)
  | some (.object fields) => .ok (Fields.contains fields name)
  | some _ => .error .malformedNames

def optionNodes (call : NodeId) : Except Fault (List FlowNode) :=
  match (m.arena.child? call "expression").filter fun e => m.arena.kind e == .functionCallOptions with
  | none => .ok []
  | some options => do
    let value ← m.hasOption options "value"
    let gas ← m.hasOption options "gas"
    return (if value then [.argument call FlowNode.value] else [])
      ++ if gas then [.argument call FlowNode.gas] else []

def nodesOfCall (call : NodeId) : Query (List FlowNode) := do
  let a := m.arena
  let kind ← m.callKind call
  if isValueCall kind then return []
  let arguments := (FlowNode.positions (a.callArguments call).length).map (FlowNode.argument call)
  let base := if (a.calledMember? call).isSome then [FlowNode.argument call FlowNode.receiver] else []
  let options ← m.optionNodes call
  let results ← match kind with
    | .event | .error => pure []
    | _ => do
      let arity ← m.resultArity call
      pure ((FlowNode.positions arity).map (FlowNode.callResult call))
  let pushed ← if kind == .builtin && a.memberName call == "push" then
      m.allWriteNodes call (a.receiver? call).toList
    else pure []
  return arguments ++ base ++ options ++ results ++ pushed

def targetsOf (assignment : NodeId) : List NodeId :=
  match m.arena.child? assignment "leftHandSide" with
  | none => []
  | some target =>
    if m.arena.kind target == .tupleExpression then m.arena.items target "components" else [target]

def nodesAt (n : NodeId) : Query (List FlowNode) :=
  let a := m.arena
  if !(a.kind n).isExpression then return []
  else do
    let more ← match a.kind n with
      | .identifier => do pure ((← m.stateReadOf n).toList.map (.stateRead n ·))
      | .functionCall => m.nodesOfCall n
      | .assignment => m.allWriteNodes n (m.targetsOf n)
      | .unaryOperation =>
        if (a.text n).isOneOf ["++", "--", "delete"] then
          m.allWriteNodes n (a.child? n "subExpression").toList
        else pure []
      | _ => pure []
    return .expression n :: more

def nodesBelow (root : NodeId) : Query (List FlowNode) :=
  return (← (m.arena.walk root).mapM m.nodesAt).flatten

def nodesIn (f : CallableId) : Query (List FlowNode) := do
  let c := m.callableD f
  let parameters := (List.range c.arity).map (FlowNode.parameter f)
  let results := (FlowNode.positions c.returns.length).map (FlowNode.result f)
  let form ← if c.isImplemented then m.form? f else pure none
  let definitions := match form with
    | none => []
    | some s => s.indices.map (definitionNode s)
  let arguments := c.invocations.flatMap fun i =>
    (FlowNode.positions i.arguments.length).map (FlowNode.argument i.node)
  let roots := c.body.toList ++ c.invocations.flatMap (·.arguments)
  let below ← roots.mapM m.nodesBelow
  return parameters ++ results ++ definitions ++ arguments ++ below.flatten

def nodesOfVariable (v : StateVariable) : Query (List FlowNode) :=
  match m.arena.child? v.node "value" with
  | none => return []
  | some value => return (← m.nodesBelow value) ++ [.stateWrite v.node v.node]

def nodesOfBase (b : BaseSpecifier) : Query (List FlowNode) := do
  let below ← b.arguments.mapM m.nodesBelow
  return below.flatten ++ (FlowNode.positions b.arguments.length).map (FlowNode.argument b.node)

def nodesOfContract (c : ContractId) : Query (List FlowNode) := do
  let initial ← (m.contractD c).stateVariables.mapM m.nodesOfVariable
  let bases ← (m.contractD c).bases.mapM m.nodesOfBase
  return initial.flatten ++ bases.flatten

def listNodes : Query (List FlowNode) := do
  let inside ← m.callableIds.mapM fun f => (m.nodesIn f).orElse []
  let outside ← m.contractIds.mapM m.nodesOfContract
  return distinct (inside.flatten ++ outside.flatten)

end ContractFlow.FlowModel
