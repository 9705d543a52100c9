import ContractFlow.Modifier.Resolve

/-!
This module recognises modifiers that lock a contract: they check a flag of the state and set it before the body runs.
-/

namespace ContractFlow

namespace Program

variable (p : Program)

def stateNames (n : NodeId) : Except Fault (List NodeId) :=
  (p.arena.walk n).filterMapM fun m => do
    return (← p.findVariable m).filter p.isState

def writtenTarget? (n : NodeId) : Option NodeId :=
  match p.arena.kind n with
  | .assignment => p.arena.child? n "leftHandSide"
  | .unaryOperation =>
    if (p.arena.text n).isOneOf ["++", "--"] then p.arena.child? n "subExpression" else none
  | _ => none

def stateTargets (n : NodeId) : Except Fault (List NodeId) :=
  ((p.arena.walk n).filterMap p.writtenTarget?).filterMapM fun target => do
    return (← p.findRoot target).filter p.isState

def requiredCondition (call : NodeId) : Except Fault (Option NodeId) :=
  let a := p.arena
  match (a.callee? call).filter fun c => a.kind c == .identifier with
  | none => .ok none
  | some c => do
    if ← (a.text c).isAmong ["require", "assert"] then return (a.callArguments call).head?
    else return none

def checkedCondition (stmt : NodeId) : Except Fault (Option NodeId) :=
  let a := p.arena
  match a.kind stmt with
  | .ifStatement => .ok (a.child? stmt "condition")
  | .expressionStatement =>
    match (a.child? stmt "expression").filter fun e => a.kind e == .functionCall with
    | none => .ok none
    | some call => p.requiredCondition call
  | _ => .ok none

def checkedVariables (stmt : NodeId) : Except Fault (List NodeId) := do
  match ← p.checkedCondition stmt with
  | none => return []
  | some condition => p.stateNames condition

def setsChecked (checked : List NodeId) : List NodeId → Except Fault Bool
  | [] => .ok false
  | stmt :: rest => do
    let checked := checked ++ (← p.checkedVariables stmt)
    if (← p.stateTargets stmt).any checked.contains then return true
    setsChecked checked rest

end Program

namespace Linkage

variable (l : Linkage)

def statementsBefore (body : NodeId) : List NodeId :=
  (l.arena.items body "statements").takeWhile fun s => l.arena.kind s != .placeholderStatement

def inlined (stmt : NodeId) : Query (List NodeId) :=
  let a := l.arena
  match if a.kind stmt == .expressionStatement then a.child? stmt "expression" else none with
  | none => return [stmt]
  | some e =>
    if a.kind e != .functionCall then return [stmt]
    else do
      let edges ← l.edges e
      let bodies := edges.filterMap fun edge =>
        if edge.isExternal then none else edge.callee.bind fun f => (l.callableD f).body
      match bodies with
      | [body] => return a.items body "statements"
      | _ => return [stmt]

def isLock (m : CallableId) : Query Bool :=
  match (l.callableD m).form, (l.callableD m).body with
  | .modifier true, some body => do
    let statements ← (l.statementsBefore body).mapM l.inlined
    l.setsChecked [] statements.flatten
  | _, _ => return false

def isGuarded (f : CallableId) : Query Bool := do
  let modifiers ← l.modifiersOf f
  modifiers.anyM fun (_, m) => l.isLock m

end Linkage

end ContractFlow
