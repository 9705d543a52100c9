import ContractFlow.Program.Scope

/-!
This module contains the reads and writes of local variables.
-/

namespace ContractFlow

inductive DefinitionKind where
  | parameter | assignment | declaration | phi
deriving DecidableEq, Inhabited

def DefinitionKind.name : DefinitionKind → String
  | parameter => "parameter"
  | assignment => "assignment"
  | declaration => "declaration"
  | phi => "phi"

structure Write where
  variableNode : NodeId
  kind : DefinitionKind
  site : NodeId
deriving DecidableEq, Inhabited

def Arena.isAssignmentTarget (a : Arena) (n : NodeId) : Bool :=
  match h : a.parent? n with
  | none => false
  | some p =>
    have := a.lt_of_parent? h
    match a.kind p with
    | .tupleExpression => isAssignmentTarget a p
    | .assignment => a.role n == "leftHandSide" && a.text p == "="
    | _ => false
termination_by n

namespace Program

variable (p : Program)

def localOf? (n : NodeId) : Option NodeId :=
  (p.variableOf? n).filter p.isLocal

def assignedLocals (n : NodeId) : List NodeId :=
  if p.arena.kind n == .tupleExpression then
    (p.arena.items n "components").attach.flatMap fun c =>
      have := p.arena.lt_of_mem_items c.2
      assignedLocals c.1
  else (p.localOf? n).toList
termination_by p.arena.size - n

def writesAt (n : NodeId) : List Write :=
  let a := p.arena
  match a.kind n with
  | .variableDeclarationStatement => (a.items n "declarations").map (⟨·, .declaration, n⟩)
  | .tryCatchClause =>
    match a.child? n "parameters" with
    | none => []
    | some list => (a.items list "parameters").map (⟨·, .declaration, n⟩)
  | .assignment =>
    match a.child? n "leftHandSide" with
    | none => []
    | some target => (p.assignedLocals target).map (⟨·, .assignment, n⟩)
  | .unaryOperation =>
    if (a.text n).isOneOf ["++", "--", "delete"] then
      (((a.child? n "subExpression").bind p.localOf?).toList).map (⟨·, .assignment, n⟩)
    else []
  | _ => []

def entryWrites (f : CallableId) : List Write :=
  let c := p.callableD f
  c.parameters.map (fun x => ⟨x.node, .parameter, x.node⟩)
    ++ c.returns.map fun x => ⟨x.node, .declaration, x.node⟩

def isRead (n : NodeId) : Bool :=
  let a := p.arena
  match a.parent? n with
  | none => true
  | some above =>
    match a.kind above with
    | .assignment => a.role n != "leftHandSide" || a.text above != "="
    | .unaryOperation => a.text above != "delete"
    | .tupleExpression => !a.isAssignmentTarget above
    | _ => true

end Program

end ContractFlow
