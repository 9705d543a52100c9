import ContractFlow.Program.Scope

/-!
This module contains the static types of expressions, as far as they are known.
-/

namespace ContractFlow.Program

def contextTypes : List (String × String) :=
  [("msg.sender", "address"), ("msg.value", "uint256"), ("msg.data", "bytes calldata"),
   ("msg.sig", "bytes4"), ("tx.origin", "address"), ("tx.gasprice", "uint256"),
   ("block.timestamp", "uint256"), ("block.number", "uint256"),
   ("block.coinbase", "address payable"), ("block.difficulty", "uint256"),
   ("block.prevrandao", "uint256"), ("block.basefee", "uint256"), ("block.chainid", "uint256"),
   ("block.gaslimit", "uint256")]

variable (p : Program)

def declaredType (decl : NodeId) : Except Fault Value := do
  let a := p.arena
  let type ← (a.node decl).typeString
  if type.holds then return type
  let text ← a.typeNameText? (a.child? decl "typeName")
  match ← p.contractNamed text with
  | none => return text
  | some c => return (if (p.contractD c).isInterface then "interface " else "contract ") ++ text.display

def typeOfName (n : NodeId) : Except Fault Value := do
  let a := p.arena
  if a.text n == "this" then
    match ← p.home n with
    | some c => return "contract " ++ (p.contractName c).display
    | none => return "contract"
  match ← p.lookUp n with
  | none => return ""
  | some decl =>
    match a.kind decl with
    | .variableDeclaration => p.declaredType decl
    | .contractDefinition => return "type(contract " ++ (a.name decl).display ++ ")"
    | _ => return ""

def typeOfMember (n : NodeId) : String :=
  let a := p.arena
  match (a.child? n "expression").filter fun base => a.kind base == .identifier with
  | some base => (contextTypes.lookup ((a.text base).display ++ "." ++ (a.text n).display)).getD ""
  | none => ""

def typeOfCall (n : NodeId) : Except Fault Value := do
  let a := p.arena
  match a.child? n "expression" with
  | none => return ""
  | some callee =>
    match a.kind callee with
    | .elementaryTypeNameExpression => return a.text callee
    | .identifier =>
      match (← p.lookUp callee).filter fun d => a.kind d == .contractDefinition with
      | none => return ""
      | some decl =>
        let word :=
          if (a.node decl).attrText "contractKind" == "interface" then "interface " else "contract "
        return word ++ (a.name decl).display
    | _ => return ""

def typeOf (n : NodeId) : Except Fault Value := do
  let type ← (p.arena.node n).typeString
  if type.holds then return type
  match p.arena.kind n with
  | .identifier => p.typeOfName n
  | .memberAccess => return p.typeOfMember n
  | .functionCall => p.typeOfCall n
  | .tupleExpression =>
    match h : p.arena.inner? n with
    | none => return ""
    | some c =>
      have := p.arena.lt_of_inner? h
      typeOf c
  | _ => return ""
termination_by p.arena.size - n

def typeOf? (n : Option NodeId) : Except Fault Value :=
  match n with
  | none => .ok ""
  | some n => p.typeOf n

end ContractFlow.Program
