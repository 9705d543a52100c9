import ContractFlow.Flow.Taint
import ContractFlow.Modifier.Lock
import ContractFlow.Report.Reference

/-!
This module reports calls, the call graph and the modifiers of functions.
-/

namespace ContractFlow.Report

section Edges

variable (p : Program)

def callEdge (e : CallEdge) : Value :=
  .list
    [.text e.binding.name, callableRef? p e.callee, contractRef? p e.context, .int e.offset,
     callableRef? p e.caller, nodeRef p e.site, .bool e.isUnresolved, .bool e.isExternal,
     .text (e.describe p.toOutline)]

def callEnd (f : Option CallableId) (e : CallEdge) : Value :=
  .list [callableRef? p f, .text e.binding.name, nodeRef p e.site]

end Edges

section Sites

variable (m : FlowModel)

def callIn (context : Option ContractId) (c : NodeId) : Query Value := do
  let kind ← m.callKind c
  let edges ← m.edgesIn c context
  return .object
    [("site", nodeRef m.toProgram c), ("kind", .text kind.name),
     ("edges", .array (callEdge m.toProgram) edges)]

def call (c : NodeId) : Query Value := do
  let p := m.toProgram
  let a := m.arena
  let kind ← m.callKind c
  let edges ← m.edges c
  let isUnresolved ← m.isUnresolved c
  let isExternal ← m.isExternalCall c
  let callees ← m.callees c
  let options ← a.callOptions c
  let arity ← m.resultArity c
  let text ← a.expressionText c
  return .object
    [("site", nodeRef p c), ("kind", .text kind.name), ("edges", .array (callEdge p) edges),
     ("unresolved", .bool isUnresolved), ("external", .bool isExternal),
     ("low", .bool (kind == .lowLevel)), ("callees", callableRefs p callees),
     ("callee", nodeRef? p (a.callee? c)), ("args", nodeRefs p (a.callArguments c)),
     ("member", a.memberName c), ("receiver", nodeRef? p (a.receiver? c)),
     ("builtin", a.calledName c), ("options", .array (fun (k, n) => .list [k, nodeRef p n]) options),
     ("arity", .int arity), ("text", text)]

end Sites

section Graph

variable (g : CallGraph)

def callRow (f : CallableId) : Query Value := do
  let p := g.toProgram
  let leaving ← g.edgesFrom f
  let entering ← g.edgesTo f
  return .list
    [callableRef p f, nodeRefs p (g.callSites f), .array (fun e => callEnd p e.callee e) leaving,
     .array (fun e => callEnd p e.caller e) entering]

def callGraph : Query Value := do
  let p := g.toProgram
  let rows ← g.callableIds.mapM (callRow g)
  let recursive ← g.findRecursive
  let uncalled ← g.findUncalled
  return .object
    [("callables", .list rows), ("recursive", callableRefs p recursive),
     ("entry", callableRefs p g.entryPoints), ("unreachable", callableRefs p uncalled)]

def invocation (context : Option ContractId) (i : Invocation) : Query Value := do
  let namesBase ← g.namesBase i
  let modifier ← g.modifierFor i context
  let base ← g.baseConstructor i
  return .list
    [i.name, .bool namesBase, callableRef? g.toProgram modifier, callableRef? g.toProgram base]

def modifiersOf (context : Option ContractId) (f : CallableId) : Query Value := do
  let p := g.toProgram
  let isGuarded ← g.isGuarded f
  let applied ← g.modifiersOf f
  let invocations ← (g.callableD f).invocations.mapM (invocation g context)
  return .list
    [callableRef p f, .bool isGuarded,
     .array (fun (i, m) => .list [nodeRef p i.node, callableRef p m]) applied, .list invocations]

def baseArguments (c : ContractId) : Except Fault Value := do
  let p := g.toProgram
  let given ← g.baseArguments c
  return .list
    [contractRef p c, .array (fun (f, args) => .list [callableRef p f, nodeRefs p args]) given]

def modifiers (context : Option ContractId) : Query Value := do
  let functions := g.callableIds.filter fun f => !(g.callableD f).invocations.isEmpty
  let rows ← functions.mapM (modifiersOf g context)
  let locks ← (g.callableIds.filter g.isModifier).mapM fun m => do
    return .list [callableRef g.toProgram m, .bool (← g.isLock m)]
  let bases ← Query.ofExcept (g.contractIds.mapM (baseArguments g))
  return .object [("functions", .list rows), ("locks", .list locks), ("base_args", .list bases)]

end Graph

end ContractFlow.Report
