import ContractFlow.Modifier.Lock
import ContractFlow.Policy.Condition

/-!
This module contains the criteria by which policies choose flow nodes.
-/

namespace ContractFlow

inductive Criterion where
  | contextRead
  | userContextRead
  | suppliedParameter
  | externalResult
  | untrustedInput
  | lowLevelResult
  | externalTarget
  | externalArgument
  | transferAmount
  | delegateTarget
  | selfdestructArgument
  | arrayIndex
  | stateWrite
  | gasArgument
  | checkedValue
  | guardedCallable
  | validated
deriving DecidableEq, Inhabited

namespace Criterion

def name : Criterion → String
  | contextRead => "execution_context_read"
  | userContextRead => "user_controlled_context_read"
  | suppliedParameter => "externally_supplied_parameter"
  | externalResult => "external_call_result"
  | untrustedInput => "untrusted_input"
  | lowLevelResult => "low_level_call_result"
  | externalTarget => "external_call_target"
  | externalArgument => "external_call_argument"
  | transferAmount => "value_transfer_amount"
  | delegateTarget => "delegatecall_target"
  | selfdestructArgument => "selfdestruct_argument"
  | arrayIndex => "array_index"
  | stateWrite => "state_write"
  | gasArgument => "gas_argument"
  | checkedValue => "checked_value"
  | guardedCallable => "in_lock_guarded_callable"
  | validated => "validated_by_check"

def all : List Criterion :=
  [contextRead, userContextRead, suppliedParameter, externalResult, untrustedInput, lowLevelResult,
   externalTarget, externalArgument, transferAmount, delegateTarget, selfdestructArgument, arrayIndex,
   stateWrite, gasArgument, checkedValue, guardedCallable, validated]

def ofName? (name : String) : Option Criterion :=
  all.find? (·.name == name)

end Criterion

def Arena.contextMember (a : Arena) (n : NodeId) : Except Fault (Option String) := do
  if a.kind n != .memberAccess then return none
  match (a.child? n "expression").filter fun b => a.kind b == .identifier with
  | none => return none
  | some base =>
    if ← (a.text base).isAmong ["msg", "tx", "block"] then
      return some ((a.text base).display ++ "." ++ (a.text n).display)
    else return none

namespace FlowGraph

variable (g : FlowGraph)

def contextRead (x : FlowNode) : Except Fault (Option String) :=
  match x.expression? with
  | none => .ok none
  | some n => g.arena.contextMember n

def isSuppliedParameter : FlowNode → Bool
  | .parameter f _ =>
    let c := g.callableD f
    c.isFunction && (c.kind == .function || c.kind == .fallback) && c.isExternallyCallable
  | _ => false

def isExternalResult : FlowNode → Query Bool
  | .callResult call _ => g.isExternalCall call
  | _ => return false

def isUntrustedInput (x : FlowNode) : Query Bool := do
  if g.isSuppliedParameter x then return true
  if (← g.contextRead x).any ["msg.data", "tx.origin"].contains then return true
  g.isExternalResult x

def isLowLevelCall (call : NodeId) (members : List String) : Query Bool := do
  let kind ← g.callKind call
  return kind == .lowLevel && (g.arena.memberName call).isOneOf members

def isLowLevelResult : FlowNode → Query Bool
  | .callResult call i =>
    if i = 0 then g.isLowLevelCall call ["call", "delegatecall", "staticcall", "callcode", "send"]
    else return false
  | _ => return false

def isPassedOut (p : NodeId → Int → Bool) : FlowNode → Query Bool
  | .argument call i =>
    if g.arena.kind call == .functionCall then return (← g.isExternalCall call) && p call i
    else return false
  | _ => return false

def hasOtherReceiver (call : NodeId) : Bool :=
  (g.arena.receiver? call).any fun b =>
    !(g.arena.kind b == .identifier && (g.arena.text b).isOneOf ["this", "super"])

def isExternalTarget : FlowNode → Query Bool :=
  g.isPassedOut fun call i => i = FlowNode.receiver && g.hasOtherReceiver call

def isExternalArgument : FlowNode → Query Bool :=
  g.isPassedOut fun _ i => 0 ≤ i

def sendsFirst (call : NodeId) : Query Bool := do
  let member := g.arena.memberName call
  match ← g.callKind call with
  | .lowLevel => return member.isOneOf ["transfer", "send"]
  | .builtin => return member == "value"
  | _ => return false

def isTransferAmount : FlowNode → Query Bool
  | .argument call i =>
    if i = FlowNode.value then return true
    else if i = 0 then g.sendsFirst call
    else return false
  | _ => return false

def isDelegateTarget : FlowNode → Query Bool
  | .argument call i =>
    if i = FlowNode.receiver then g.isLowLevelCall call ["delegatecall", "callcode"] else return false
  | _ => return false

def isSelfdestructArgument : FlowNode → Except Fault Bool
  | .argument call i =>
    match (g.arena.callee? call).filter fun c => i = 0 && g.arena.kind c == .identifier with
    | none => .ok false
    | some c => (g.arena.text c).isAmong ["selfdestruct", "suicide"]
  | _ => .ok false

def isStoredArray (base : Option NodeId) : Except Fault Bool := do
  let root ← match base with
    | none => pure none
    | some n => g.findRoot n
  match root.bind g.stateVariableAt? with
  | none => return false
  | some v => v.isArray

def isIndexed (base : Option NodeId) : Except Fault Bool := do
  let type ← (← g.typeOf? base).asText
  if type.startsWith "mapping" then return false
  else if type.contains '[' then return true
  else g.isStoredArray base

def isArrayIndex : FlowNode → Query Bool
  | .expression n =>
    match (g.arena.parent? n).filter fun p =>
        g.arena.role n == "indexExpression" && g.arena.kind p == .indexAccess with
    | some p => g.isIndexed (g.arena.child? p "baseExpression")
    | none => return false
  | _ => return false

def isCheckedValue : FlowNode → Except Fault Bool
  | .result .. => .ok true
  | .expression n => g.arena.isChecked n
  | _ => .ok false

def isInGuarded : Option CallableId → Query Bool
  | some f => g.isGuarded f
  | none => return false

def meetsIn (owner : Option CallableId) (c : Criterion) (x : FlowNode) : Query Bool :=
  match c with
  | .contextRead => return (← g.contextRead x).isSome
  | .userContextRead =>
    let chosen := ["msg.data", "msg.sender", "msg.value", "msg.sig", "tx.origin"]
    return (← g.contextRead x).any chosen.contains
  | .suppliedParameter => return g.isSuppliedParameter x
  | .externalResult => g.isExternalResult x
  | .untrustedInput => g.isUntrustedInput x
  | .lowLevelResult => g.isLowLevelResult x
  | .externalTarget => g.isExternalTarget x
  | .externalArgument => g.isExternalArgument x
  | .transferAmount => g.isTransferAmount x
  | .delegateTarget => g.isDelegateTarget x
  | .selfdestructArgument => g.isSelfdestructArgument x
  | .arrayIndex => g.isArrayIndex x
  | .stateWrite => return x.kind == .stateWrite
  | .gasArgument => return x.kind == .argument && x.position = FlowNode.gas
  | .checkedValue => g.isCheckedValue x
  | .guardedCallable => g.isInGuarded owner
  | .validated => (x.expression?.map (g.isValidated owner)).getD (return false)

def meets (c : Criterion) (x : FlowNode) : Query Bool :=
  g.meetsIn (g.flowOwner? x) c x

end FlowGraph

end ContractFlow
