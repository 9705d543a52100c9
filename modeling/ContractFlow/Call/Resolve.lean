import ContractFlow.Call.Kind

/-! This module binds calls to the callables that they may run, also as a part of derived contracts. -/

namespace ContractFlow

inductive Binding where
  | internal | inherited | super | thisExternal | interfaceDispatch | parameterDispatch | unresolved
deriving DecidableEq, Inhabited

namespace Binding

def name : Binding → String
  | internal => "internal"
  | inherited => "inherited"
  | super => "super"
  | thisExternal => "thisExternal"
  | interfaceDispatch => "interfaceDispatch"
  | parameterDispatch => "parameterDispatch"
  | unresolved => "unresolved"

def isExternal : Binding → Bool
  | thisExternal | interfaceDispatch | parameterDispatch => true
  | _ => false

end Binding

structure CallEdge where
  site : NodeId
  caller : Option CallableId
  callee : Option CallableId
  binding : Binding
  context : Option ContractId
  /-- How many parameters the receiver takes up. -/
  offset : Nat
deriving Inhabited, DecidableEq

namespace CallEdge

def isUnresolved (e : CallEdge) : Bool :=
  e.binding == .unresolved

def isExternal (e : CallEdge) : Bool :=
  e.binding.isExternal

def describe (o : Outline) (e : CallEdge) : String :=
  let callee := (e.callee.map o.qualifiedName).getD "?"
  "<CallEdge " ++ e.binding.name ++ " -> " ++ callee.display ++ ">"

def key (e : CallEdge) : Option CallableId × Binding × Nat :=
  (e.callee, e.binding, e.offset)

end CallEdge

namespace Lineage

variable (l : Lineage)

def callTargets (c : ContractId) (name : Value) (arity : Nat) (after : Option ContractId) :
    Query (List CallableId) := do
  let found ← l.candidatesFor c ⟨name, some arity, none⟩ after
  return found.filter fun f => (l.callableD f).kind.isCallTarget

def areAccepted : List (Value × Value) → Except Fault Bool
  | [] => .ok true
  | (type, parameter) :: rest => do
    if ← TypeText.isAccepted type parameter then areAccepted rest else return false

def accepts (types : List Value) (offset : Nat) (f : CallableId) : Except Fault Bool :=
  areAccepted (types.zip (((l.callableD f).parameters.drop offset).map (·.typeName)))

def fitting (targets : List CallableId) (site : NodeId) (offset : Nat) :
    Except Fault (List CallableId) :=
  if targets.length < 2 then return targets
  else do
    let types ← (l.arena.callArguments site).mapM l.typeOf
    let matching ← targets.filterM (l.accepts types offset)
    return if matching.isEmpty then targets else matching

def unresolvedEdge (site : NodeId) (context : Option ContractId) : CallEdge :=
  ⟨site, l.owner? site, none, .unresolved, context, 0⟩

def plainBinding (home : Option ContractId) (f : CallableId) : Binding :=
  match (l.callableD f).contract with
  | none => .internal
  | some c => if home == some c then .internal else .inherited

def edgesTo (site : NodeId) (context : Option ContractId) (targets : List CallableId)
    (binding : CallableId → Binding) (offset : Nat) : Query (List CallEdge) := do
  let targets ← l.fitting targets site offset
  if targets.isEmpty then return [l.unresolvedEdge site context]
  return targets.map fun f => ⟨site, l.owner? site, some f, binding f, context, offset⟩

def namedContract (n : NodeId) : Except Fault (Option ContractId) :=
  match l.arena.kind n with
  | .identifier | .identifierPath => do
    match ← l.lookUp n with
    | some d => if l.arena.kind d == .contractDefinition then l.home d else return none
    | none => l.contractNamed (l.arena.text n)
  | _ => .ok none

def isStaticReceiver (n : NodeId) : Except Fault Bool :=
  if l.arena.kind n == .identifier && (l.arena.text n).isOneOf ["super", "abi", "bytes", "string"] then
    .ok true
  else return (← l.namedContract n).isSome

def isFromParameter (n : NodeId) : Except Fault Bool := do
  return (← l.findRoot n).any fun d => l.scope? d == some .parameter

def implementers (c : ContractId) : Query (List ContractId) := do
  let derived ← l.derivedFrom c
  derived.filterM fun d => do
    let contract := l.contractD d
    if contract.isInterface || contract.isLibrary then return false
    let isAbstract ← l.isAbstractContract d
    return !isAbstract

def resolveName (site callee : NodeId) (home context : Option ContractId) : Query (List CallEdge) := do
  let name := l.arena.text callee
  let arity := (l.arena.callArguments site).length
  let byName : Query (List CallEdge) := do
    let owner := if home.any fun c => (l.contractD c).isLibrary then home else context <|> home
    let targets ← match owner with
      | none => pure []
      | some c => l.callTargets c name arity none
    if !targets.isEmpty then l.edgesTo site context targets (l.plainBinding home) 0
    else
      let free := l.free.filter fun f => (l.callableD f).name == name && (l.callableD f).arity == arity
      l.edgesTo site context free (fun _ => .internal) 0
  match ← l.lookUp callee with
  | none => byName
  | some d =>
    match l.arena.kind d with
    | .variableDeclaration => return [l.unresolvedEdge site context]
    | .functionDefinition =>
      match (l.callableAt? d).filter fun f => (l.callableD f).kind == .freeFunction with
      | some f => l.edgesTo site context [f] (fun _ => .internal) 0
      | none => byName
    | _ => byName

def resolveStatic (site : NodeId) (member : Value) (c : ContractId) (home context : Option ContractId) :
    Query (List CallEdge) := do
  let arity := (l.arena.callArguments site).length
  if (l.contractD c).isLibrary then
    let targets := (l.functionsNamed c member).filter fun f => (l.callableD f).arity == arity
    l.edgesTo site context targets (fun _ => .internal) 0
  else
    match home with
    | none => return [l.unresolvedEdge site context]
    | some home =>
      if c == home || (← l.isAncestorOf c home) then
        let targets ← l.callTargets c member arity none
        l.edgesTo site context targets (fun _ => .inherited) 0
      else return [l.unresolvedEdge site context]

def contractOfType (n : NodeId) : Except Fault (Option ContractId) := do
  let name := TypeText.contractName (← (← l.typeOf n).asText)
  return if name.isEmpty then none else l.findContract? name

def resolveValue (site base : NodeId) (member : Value) (context : Option ContractId) :
    Query (List CallEdge) := do
  let arity := (l.arena.callArguments site).length
  let bound ← l.boundFunctions site member
  if !bound.isEmpty then l.edgesTo site context bound (fun _ => .internal) 1
  else
    match ← l.contractOfType base with
    | none => return [l.unresolvedEdge site context]
    | some c =>
      let fromParameter ← l.isFromParameter base
      let binding := if fromParameter then Binding.parameterDispatch else .interfaceDispatch
      let targets ← (← l.implementers c).mapM fun d => l.callTargets d member arity none
      let implemented := targets.flatten.filter fun f => (l.callableD f).isImplemented
      l.edgesTo site context (distinct implemented) (fun _ => binding) 0

def resolveMember (site callee : NodeId) (home context : Option ContractId) :
    Query (List CallEdge) := do
  let arity := (l.arena.callArguments site).length
  let member := l.arena.text callee
  match l.arena.child? callee "expression" with
  | none => return [l.unresolvedEdge site context]
  | some base =>
    let word := if l.arena.kind base == .identifier then l.arena.text base else ""
    if word == "super" then
      match home, context <|> home with
      | some _, some owner =>
        let targets ← l.callTargets owner member arity home
        l.edgesTo site context targets (fun _ => .super) 0
      | _, _ => return [l.unresolvedEdge site context]
    else if word == "this" then
      match context <|> home with
      | none => return [l.unresolvedEdge site context]
      | some owner =>
        let targets ← l.callTargets owner member arity none
        let external := targets.filter fun f =>
          (l.callableD f).isFunction && (l.callableD f).isExternallyCallable
        l.edgesTo site context external (fun _ => .thisExternal) 0
    else
      match ← l.namedContract base with
      | some c => l.resolveStatic site member c home context
      | none => l.resolveValue site base member context

def resolveIn (site : NodeId) (context : Option ContractId) : Query (List CallEdge) := do
  match ← l.classify site with
  | .lowLevel => return [l.unresolvedEdge site context]
  | .function =>
    let home ← l.home site
    match l.arena.callee? site with
    | none => return [l.unresolvedEdge site context]
    | some callee =>
      match l.arena.kind callee with
      | .identifier => l.resolveName site callee home context
      | .memberAccess => l.resolveMember site callee home context
      | _ => return [l.unresolvedEdge site context]
  | _ => return []

def contexts (virtualDispatch : Bool) (site : NodeId) : Query (List (Option ContractId)) := do
  match ← l.home site with
  | none => return [none]
  | some home =>
    if !virtualDispatch then return [some home]
    let derived ← l.derivedFrom home
    return some home :: (derived.filter (· != home)).map some

def combine (edges : List CallEdge) : List CallEdge :=
  let differing := edges.foldl
    (fun kept e => if kept.any fun k => k.key == e.key then kept else kept ++ [e]) []
  match differing.filter fun e => !e.isUnresolved with
  | [] => differing.take 1
  | resolved => resolved

def resolve (virtualDispatch : Bool) (site : NodeId) : Query (List CallEdge) := do
  if l.arena.kind site != .functionCall then return []
  let contexts ← l.contexts virtualDispatch site
  let edges ← contexts.mapM (l.resolveIn site)
  return combine edges.flatten

end Lineage

structure Linkage extends Lineage where
  virtualDispatch : Bool
  kinds : Memo toLineage.classify
  bound : Memo (toLineage.resolve virtualDispatch)

namespace Linkage

def ofLineage (l : Lineage) (virtualDispatch : Bool) : Linkage where
  toLineage := l
  virtualDispatch := virtualDispatch
  kinds := .upTo _ l.arena.size
  bound := .upTo _ l.arena.size

instance : Inhabited Linkage := ⟨ofLineage default true⟩

variable (l : Linkage)

def callKind (site : NodeId) : Query CallKind :=
  l.kinds.get site

def edges (site : NodeId) : Query (List CallEdge) :=
  l.bound.get site

def edgesIn (site : NodeId) (context : Option ContractId) : Query (List CallEdge) :=
  match context with
  | none => l.edges site
  | some c => if l.arena.kind site == .functionCall then l.resolveIn site (some c) else return []

def callees (site : NodeId) : Query (List CallableId) :=
  return (← l.edges site).filterMap (·.callee)

def isUnresolved (site : NodeId) : Query Bool := do
  let edges ← l.edges site
  return !edges.isEmpty && edges.all (·.isUnresolved)

def isExternalCall (site : NodeId) : Query Bool := do
  match ← l.callKind site with
  | .lowLevel | .newContract => return true
  | .function =>
    let edges ← l.edges site
    if edges.any (·.isExternal) then return true
    if !edges.isEmpty && edges.all (·.isUnresolved) then
      match l.arena.receiver? site with
      | none => return false
      | some base => return !(← l.isStaticReceiver base)
    return false
  | _ => return false

end Linkage

end ContractFlow
