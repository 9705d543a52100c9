import ContractFlow.Flow.Path
import ContractFlow.Report.Reference

/-!
This module reports flow nodes and the paths between them.
-/

namespace ContractFlow.Report

variable (g : FlowGraph)

def flowKeyIn (owner : Option CallableId) (x : FlowNode) : String :=
  let p := g.toProgram
  let ref (v : Value) : String := v.text?.getD "-"
  let definition := match x with
    | .definition _ d => toString d
    | _ => "-"
  "|".intercalate
    [x.kind.name, ref (nodeRef? p (g.nodeOf? x)), toString x.position,
     ref (nodeRef? p (g.declarationOf? x)), definition, ref (nodeRef? p x.site?),
     ref (callableRef? p owner)]

def flowKey (x : FlowNode) : String :=
  flowKeyIn g (g.flowOwner? x) x

def flowKeys (xs : List FlowNode) : Value :=
  .array (fun x => .text (flowKey g x)) xs

def flowNode (x : FlowNode) : Except Fault Value := do
  let text ← g.describeFlow x
  let location ← g.locationOf x
  return .list [.text (flowKey g x), text, .text location.text]

def flowAspects (x : FlowNode) : Except Fault Value := do
  let text ← g.describeFlow x
  let parameter := match x with
    | .parameter f i => Value.option (·.name) (g.callableD f).parameters[i]?
    | _ => .null
  let index := match x with
    | .definition _ d => Value.int d
    | _ => .null
  return .list
    [nodeRef? g.toProgram x.expression?, parameter, index, nodeRef? g.toProgram x.call?,
     .text ("<FlowNode " ++ x.kind.name ++ ": " ++ text.display ++ ">")]

def stateReads (v : StateVariable) : Except Fault Value := do
  let reads ← g.stateReads v.node
  return .list [nodeRef g.toProgram v.node, nodeRefs g.toProgram reads]

def storage : Query Value := do
  let p := g.toProgram
  let stored := p.contractIds.flatMap fun c => (p.contractD c).stateVariables
  let reads ← Query.ofExcept (stored.mapM (stateReads g))
  let writes ← p.callableIds.mapM fun f => do
    let nodes ← g.nodesIn f
    return .list [callableRef p f, flowKeys g (nodes.filter (·.kind == .stateWrite))]
  let roots := (List.range p.arena.size).filter fun n =>
    p.arena.kind n == .identifier && p.arena.isWriteRoot n
  return .object
    [("reads", .list reads), ("writes", .list writes), ("write_roots", nodeRefs p roots)]

def ownerOnWay (source x : FlowNode) : Option CallableId :=
  if x = source then g.flowOwner? x else g.reachedOwner? x

def briefPath (f : FlowPath) : Except Fault Value := do
  let texts ← f.nodes.mapM g.describeFlow
  return .object
    [("source", .text (flowKey g f.source)),
     ("sink", .text (flowKeyIn g (ownerOnWay g f.source f.sink) f.sink)),
     ("len", .int f.nodes.length), ("truncated", .bool f.truncated), ("nodes", .list texts)]

def noTexts (fields : Fields) : List String :=
  (fields.filter fun f => f.2.text?.isNone).map (·.1)

def needTexts (fields : Fields) : Except Fault Unit :=
  if (noTexts fields).isEmpty then .ok () else .error (.malformedTexts (noTexts fields))

def pathStep (source x : FlowNode) : Except Fault Value := do
  let text ← g.describeFlow x
  let location ← g.locationOf x
  let owner := ((ownerOnWay g source x).map g.qualifiedName).getD ""
  needTexts [("display", text), ("callable", owner)]
  return .object
    [("kind", .text x.kind.name), ("display", text), ("location", location.toValue),
     ("callable", owner)]

def fullPath (policy : Value) (mode : FlowMode) (f : FlowPath) : Except Fault Value := do
  let source ← pathStep g f.source f.source
  let sink ← pathStep g f.source f.sink
  let steps ← f.nodes.mapM (pathStep g f.source)
  needTexts [("configuration", policy)]
  return .object
    [("configuration", policy), ("mode", .text mode.name), ("source", source), ("sink", sink),
     ("steps", .list steps), ("truncated", .bool f.truncated), ("metadata", .object [])]

end ContractFlow.Report
