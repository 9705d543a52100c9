import ContractFlow.Flow.Graph

/-!
This module tells which expressions are checked: they stand in a condition, or in what is required.
-/

namespace ContractFlow

namespace Arena

variable (a : Arena)

def hasCondition : Kind → Bool
  | .ifStatement | .whileStatement | .doWhileStatement | .forStatement | .conditional => true
  | _ => false

def endsCondition : Kind → Bool
  | .expressionStatement | .block | .functionDefinition | .modifierDefinition => true
  | _ => false

def isRequirement (call : NodeId) : Except Fault Bool :=
  match (a.callee? call).filter fun c => a.kind c == .identifier with
  | none => .ok false
  | some c => (a.text c).isAmong ["require", "assert"]

def isRequiredBy (n p : NodeId) : Except Fault Bool :=
  if a.kind p == .functionCall && a.role n == "arguments" && a.roleIndex n = 0 then a.isRequirement p
  else .ok false

def isChecked (n : NodeId) : Except Fault Bool :=
  match h : a.parent? n with
  | none => .ok false
  | some p => do
    have := a.lt_of_parent? h
    if ← a.isRequiredBy n p then return true
    else if hasCondition (a.kind p) && a.role n == "condition" then return true
    else if endsCondition (a.kind p) then return false
    else isChecked p
termination_by n

end Arena

namespace FlowGraph

variable (g : FlowGraph)

def checkPoint? (c : ControlGraph) (n decl m : NodeId) : Except Fault (Option Nat) := do
  if g.arena.kind m != .identifier || m == n then return none
  if (← g.findVariable m) != some decl then return none
  if ← g.arena.isChecked m then return c.pointAt? m else return none

def isCheckedBefore (c : ControlGraph) (n decl : NodeId) (read : Nat) :
    List NodeId → Except Fault Bool
  | [] => .ok false
  | m :: ms => do
    if (← g.checkPoint? c n decl m).any fun check => c.strictlyReaches check read then return true
    else isCheckedBefore c n decl read ms

def followsCheck (f : CallableId) (n decl : NodeId) : Query Bool := do
  match ← g.controlGraph? false f with
  | none => return false
  | some c =>
    match c.pointAt? n with
    | none => return false
    | some read =>
      g.isCheckedBefore c n decl read ((g.callableD f).body.toList.flatMap g.arena.walk)

def isValidated (owner : Option CallableId) (n : NodeId) : Query Bool := do
  if g.arena.kind n != .identifier then return false
  if ← g.arena.isChecked n then return false
  let found ← g.findVariable n
  let decl := found.filter fun d => g.scope? d == some .locally || g.scope? d == some .parameter
  match owner, decl with
  | some f, some decl => g.followsCheck f n decl
  | _, _ => return false

end FlowGraph

end ContractFlow
