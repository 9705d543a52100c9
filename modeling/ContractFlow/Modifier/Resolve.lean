import ContractFlow.Call.Graph

/-!
This module binds the modifiers and base constructors that functions invoke.
-/

namespace ContractFlow

namespace Outline

variable (o : Outline)

def invoked? (i : Invocation) : Option NodeId :=
  (o.arena.child? i.node "modifierName").bind fun name =>
    o.arena.findById? (o.arena.node name).reference?

def namesBase (i : Invocation) : Except Fault Bool :=
  match o.invoked? i with
  | some d => .ok (o.arena.kind d == .contractDefinition)
  | none => return (← o.contractNamed i.name).isSome

def baseConstructor (i : Invocation) : Except Fault (Option CallableId) := do
  if ← o.namesBase i then return (← o.contractNamed i.name).bind o.constructor? else return none

def declaredArguments (b : BaseSpecifier) : Except Fault (Option (CallableId × List NodeId)) := do
  if b.arguments.isEmpty then return none
  return ((← o.contractNamed b.name).bind o.constructor?).map (·, b.arguments)

def invokedArguments (i : Invocation) : Except Fault (Option (CallableId × List NodeId)) := do
  let target ← o.baseConstructor i
  return if i.arguments.isEmpty then none else target.map (·, i.arguments)

def baseArguments (c : ContractId) : Except Fault (List (CallableId × List NodeId)) := do
  let declared ← (o.contractD c).bases.filterMapM o.declaredArguments
  let invocations := ((o.constructor? c).map fun f => (o.callableD f).invocations).getD []
  let invoked ← invocations.filterMapM o.invokedArguments
  return declared ++ invoked

end Outline

namespace Lineage

variable (l : Lineage)

def isModifier (f : CallableId) : Bool :=
  !(l.callableD f).isFunction

def modifierIn (c : ContractId) (name : Value) : Query (Option CallableId) := do
  let found ← l.candidatesFor c ⟨name, none, some .modifier⟩ none
  return found.find? l.isModifier

def invokingContract (i : Invocation) (context : Option ContractId) :
    Except Fault (Option ContractId) :=
  match context with
  | some c => .ok (some c)
  | none => l.home i.node

def modifierFor (i : Invocation) (context : Option ContractId) : Query (Option CallableId) := do
  if ← l.namesBase i then return none
  let found ← match ← l.invokingContract i context with
    | none => pure none
    | some c => l.modifierIn c i.name
  return found <|> ((l.invoked? i).bind l.callableAt?).filter l.isModifier

def modifiersOf (f : CallableId) : Query (List (Invocation × CallableId)) :=
  (l.callableD f).invocations.filterMapM fun i => do
    let found ← l.modifierFor i none
    return found.map (i, ·)

end Lineage

end ContractFlow
