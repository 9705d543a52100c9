import ContractFlow.Flow.Local
import ContractFlow.Report.Reference

/-!
This module reports syntax trees and what is known about their nodes.
-/

namespace ContractFlow.Report

variable (p : Program)

def index (n : NodeId) : Value :=
  .int (p.arena.localIndex n)

def wholeNumber (n : NodeId) (key : String) : Value :=
  let v := Fields.get (p.arena.node n).fields key
  if v.int?.isSome then v else .null

def treeNode (n : NodeId) : Except Fault Value := do
  let x := p.arena.node n
  let type ← x.typeString
  return .list
    [x.label, (x.parent.map (index p)).getD (.int (-1)), .text x.role, .int (p.arena.roleIndex n),
     x.text, x.name, wholeNumber p n "id", type, wholeNumber p n "referencedDeclaration",
     .array (index p) x.children]

def tree (unit : Nat) : Except Fault Value := do
  let source := p.arena.units.getD unit default
  let nodes ← (p.arena.unitNodes unit).mapM (treeNode p)
  return .object
    [("file", source.file), ("len", .int nodes.length), ("root", nodeRef p source.root),
     ("nodes", .list nodes)]

def locations (unit : Nat) : Except Fault Value := do
  let found ← (p.arena.unitNodes unit).mapM p.arena.location
  return .array (fun l => .list
    [.text l.file, .int l.startLine, .int l.endLine, .int l.startCol, .int l.endCol, .int l.offset,
     .int l.length, .text l.text]) found

def surroundings (n : NodeId) (labels : List Value) (others : List NodeId)
    (roles attributes : List String) : Except Fault Value := do
  let a := p.arena
  let description ← a.describe n
  return .object
    [("repr", .text description), ("walk", .array (index p) (a.walk n)),
     ("ancestors", .array (index p) (a.ancestors n)),
     ("find", nodeRef? p (a.findAncestor? n labels)),
     ("inside", .array (fun m => .bool (a.isInside n m)) others),
     ("get", .array (fun role => nodeRef? p (a.child? n role)) roles),
     ("get_list", .array (fun role => .array (nodeRef? p) (a.entries n role)) roles),
     ("attr", .array (fun key => ((a.node n).attr? key).getD "<default>") attributes)]

def scope? (n : Option NodeId) : Value :=
  .option (fun s => .text s.name) (n.bind p.scope?)

def variableType (n : NodeId) : Except Fault Value := do
  let plain ← p.arena.declaredType n
  let qualified ← p.declaredType n
  let written ← p.arena.typeNameText? (p.arena.child? n "typeName")
  return .list [nodeRef p n, p.arena.name n, plain, qualified, written, scope? p (some n)]

def variableTypes : Except Fault Value := do
  let decls := (List.range p.arena.size).filter fun n => p.arena.kind n == .variableDeclaration
  return .list (← decls.mapM (variableType p))

def enclosure (n : NodeId) : Except Fault Value := do
  let home ← p.home n
  let text ← p.arena.expressionText n
  return .list
    [callableRef? p (p.callableAt? n), callableRef? p (p.owner? n), contractRef? p home, text]

def enclosures (unit : Nat) : Except Fault Value := do
  return .list (← (p.arena.unitNodes unit).mapM (enclosure p))

def isReference : Kind → Bool
  | .identifier | .identifierPath | .memberAccess | .userDefinedTypeName => true
  | _ => false

def expression (n : NodeId) : Except Fault Value := do
  let a := p.arena
  let decl ← if isReference (a.kind n) then p.lookUp n else pure none
  let named ← p.findVariable n
  let root ← p.findRoot n
  let type ← p.typeOf n
  let text ← a.expressionText n
  let propagates ← a.isPropagating n
  let home ← p.home n
  return .list
    [nodeRef p n, nodeRef? p decl, scope? p decl, nodeRef? p named, nodeRef? p root, type, text,
     .bool propagates, nodeRef? p (a.rootExpression? n), callableRef? p (p.owner? n),
     contractRef? p home]

def expressions (unit : Nat) : Except Fault Value := do
  let listed := (p.arena.unitNodes unit).filter fun n =>
    let kind := p.arena.kind n
    kind.isExpression || isReference kind || kind == .functionCallOptions
  return .list (← listed.mapM (expression p))

def membersNamed (c : ContractId) (name : Value) : Except Fault Fields := do
  if !p.isKnown c then throw .notAKey
  return [
    ("function", callableRef? p (p.functionsNamed c name).head?),
    ("functions", callableRefs p (p.functionsNamed c name)),
    ("modifier", callableRef? p (p.modifierNamed? c name)),
    ("state", nodeRef? p ((p.stateVariableNamed? c name).map (·.node))),
    ("closure", contractRefs p (p.baseClosure c))]

end ContractFlow.Report
