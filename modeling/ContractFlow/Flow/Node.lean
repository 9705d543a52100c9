import ContractFlow.Settings
import ContractFlow.Ssa.Program

/-!
This module contains the nodes that values flow between.
-/

namespace ContractFlow

inductive FlowNode where
  | expression (n : NodeId)
  | parameter (f : CallableId) (index : Nat)
  | definition (f : CallableId) (index : Nat)
  | result (f : CallableId) (position : Int)
  | callResult (call : NodeId) (position : Int)
  /-- A value that is passed at a call; the receiver and the call options have negative positions. -/
  | argument (call : NodeId) (position : Int)
  | postUpdate (n site : NodeId)
  | stateRead (n decl : NodeId)
  | stateWrite (site decl : NodeId)
deriving DecidableEq, Inhabited

inductive FlowKind where
  | expression | parameter | definition | result | callResult | argument | postUpdate | stateRead
  | stateWrite
deriving DecidableEq, Inhabited

def FlowKind.name : FlowKind → String
  | expression => "expression"
  | parameter => "parameter"
  | definition => "ssa_def"
  | result => "return"
  | callResult => "call_result"
  | argument => "argument"
  | postUpdate => "post_update"
  | stateRead => "state_var_read"
  | stateWrite => "state_var_write"

namespace FlowNode

def receiver : Int := -1

def value : Int := -2

def gas : Int := -3

def kind : FlowNode → FlowKind
  | .expression _ => .expression
  | .parameter .. => .parameter
  | .definition .. => .definition
  | .result .. => .result
  | .callResult .. => .callResult
  | .argument .. => .argument
  | .postUpdate .. => .postUpdate
  | .stateRead .. => .stateRead
  | .stateWrite .. => .stateWrite

def positions (count : Nat) : List Int :=
  (List.range count).map Int.ofNat

def position : FlowNode → Int
  | .parameter _ i => i
  | .result _ i | .callResult _ i | .argument _ i => i
  | _ => 0

def expression? : FlowNode → Option NodeId
  | .expression n => some n
  | _ => none

def call? : FlowNode → Option NodeId
  | .callResult c _ | .argument c _ => some c
  | _ => none

def site? : FlowNode → Option NodeId
  | .postUpdate _ s => some s
  | _ => none

def argumentName (i : Int) : String :=
  if i = receiver then "receiver"
  else if i = value then "value"
  else if i = gas then "gas"
  else toString i

end FlowNode

namespace Program

variable (p : Program)

/--
The callable that a listed flow node belongs to. A write belongs to none that is not known, and the initial value of a
state variable is written in none.
-/
def flowOwner? : FlowNode → Option CallableId
  | .expression n => p.holder? n
  | .parameter f _ | .definition f _ | .result f _ => some f
  | .callResult c _ | .argument c _ => p.holder? c
  | .postUpdate _ s => p.owner? s
  | .stateRead n _ => p.holder? n
  | .stateWrite s d => if s = d then none else p.owner? s

def reachedOwner? : FlowNode → Option CallableId
  | .expression n | .stateRead n _ => p.owner? n
  | .callResult c _ | .argument c _ => p.owner? c
  | x => p.flowOwner? x

end Program

namespace ValueFlow

variable (v : ValueFlow)

def definition? (f : CallableId) (d : Nat) : Option Definition :=
  ((v.form? f).getD none).bind fun s => s.definitions[d]?

def nodeOf? : FlowNode → Option NodeId
  | .expression n => some n
  | .parameter .. | .result .. => none
  | .definition f d => (v.definition? f d).bind (·.site)
  | .callResult c _ | .argument c _ => some c
  | .postUpdate n _ => some n
  | .stateRead n _ => some n
  | .stateWrite s _ => some s

def declarationOf? : FlowNode → Option NodeId
  | .parameter f i => (v.callableD f).parameters[i]?.map (·.node)
  | .result f _ => some (v.callableD f).node
  | .stateRead _ d | .stateWrite _ d => some d
  | _ => none

def locationOf (x : FlowNode) : Except Fault Location :=
  match v.nodeOf? x <|> v.declarationOf? x with
  | some n => v.arena.location n
  | none =>
    match x with
    | .definition f d =>
      match v.definition? f d with
      | some def' => v.arena.location def'.variableNode
      | none => .ok {}
    | _ => .ok {}

def describeFlow : FlowNode → Except Fault Value
  | .expression n => v.arena.expressionText n
  | .parameter f i =>
    match (v.callableD f).parameters[i]? with
    | some p => .ok ("parameter " ++ p.name.display)
    | none => .ok ("parameter " ++ toString i)
  | .definition f d =>
    match v.definition? f d with
    | some x =>
      let name := (v.arena.name x.variableNode).display
      .ok (name ++ "#" ++ toString d ++ " (" ++ x.kind.name ++ ")")
    | none => .ok FlowKind.definition.name
  | .result f i => .ok ("return[" ++ toString i ++ "] of " ++ (v.qualifiedName f).display)
  | .callResult c i => do
    let text ← v.arena.expressionText c
    return "result[" ++ toString i ++ "] of " ++ text.display
  | .argument c i => do
    let text ← v.arena.expressionText c
    return "argument[" ++ FlowNode.argumentName i ++ "] of " ++ text.display
  | .postUpdate n _ => do
    let text ← v.arena.expressionText n
    return text.display ++ " [post-update]"
  | .stateRead _ d => .ok ("read of state " ++ (v.arena.name d).display)
  | .stateWrite _ d => .ok ("write of state " ++ (v.arena.name d).display)

end ValueFlow

end ContractFlow
