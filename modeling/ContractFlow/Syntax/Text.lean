import ContractFlow.Syntax.Navigate

/-!
This module prints type names and expressions. What is a single word is kept as that word.
-/

namespace ContractFlow.Arena

def typeNameText (a : Arena) (n : NodeId) : Except Fault Value :=
  let node := a.node n
  let sub (role : String) : Except Fault Value :=
    match h : a.child? n role with
    | none => .ok ""
    | some c =>
      have := a.lt_of_child? h
      typeNameText a c
  match node.kind with
  | .elementaryTypeName => if node.name.holds then .ok node.name else node.typeString
  | .userDefinedTypeName =>
    match a.child? n "pathNode" with
    | some path => .ok (a.node path).pathName
    | none => if node.pathName.holds then .ok node.pathName else node.typeString
  | .mapping => do
    let key ← sub "keyType"
    let value ← sub "valueType"
    return "mapping(" ++ key.display ++ " => " ++ value.display ++ ")"
  | .arrayTypeName => do
    let base ← sub "baseType"
    let length := ((a.child? n "length").map a.text).getD ""
    return base.display ++ "[" ++ length.display ++ "]"
  | .functionTypeName => .ok "function"
  | _ => do
    let type ← node.typeString
    return (type.or node.name).or "unknown"
termination_by a.size - n

def typeNameText? (a : Arena) (n : Option NodeId) : Except Fault Value :=
  match n with
  | none => .ok ""
  | some n => a.typeNameText n

def declaredType (a : Arena) (decl : NodeId) : Except Fault Value := do
  let type ← (a.node decl).typeString
  if type.holds then return type else a.typeNameText? (a.child? decl "typeName")

def expressionText (a : Arena) (n : NodeId) : Except Fault Value :=
  let node := a.node n
  let sub (role : String) : Except Fault String :=
    match h : a.child? n role with
    | none => .ok ""
    | some c => do
      have := a.lt_of_child? h
      return (← expressionText a c).display
  let subs (role : String) : Except Fault String := do
    let texts ← (a.entries n role).attach.mapM fun entry =>
      match h : entry.1 with
      | none => .ok (Value.text "")
      | some c =>
        have := a.lt_of_mem_entries (h ▸ entry.2)
        expressionText a c
    Value.join ", " texts
  match node.kind with
  | .identifier | .elementaryTypeNameExpression => .ok node.text
  | .literal =>
    if node.attrText "kind" == "string" then .ok ("\"" ++ node.text.display ++ "\"") else .ok node.text
  | .memberAccess => do
    let base ← sub "expression"
    return base ++ "." ++ node.text.display
  | .indexAccess => do
    let base ← sub "baseExpression"
    let index ← sub "indexExpression"
    return base ++ "[" ++ index ++ "]"
  | .functionCall => do
    let callee ← sub "expression"
    let arguments ← subs "arguments"
    return callee ++ "(" ++ arguments ++ ")"
  | .functionCallOptions => do
    let base ← sub "expression"
    return base ++ "\x7b...\x7d"
  | .binaryOperation => do
    let left ← sub "leftExpression"
    let right ← sub "rightExpression"
    return left ++ " " ++ node.text.display ++ " " ++ right
  | .unaryOperation => do
    let operand ← sub "subExpression"
    match Fields.get node.fields "prefix" with
    | .bool false => return operand ++ node.text.display
    | _ => return node.text.display ++ operand
  | .assignment => do
    let left ← sub "leftHandSide"
    let right ← sub "rightHandSide"
    return left ++ " " ++ node.text.display ++ " " ++ right
  | .tupleExpression => do
    let components ← subs "components"
    return "(" ++ components ++ ")"
  | .conditional => do
    let condition ← sub "condition"
    let whenTrue ← sub "trueExpression"
    let whenFalse ← sub "falseExpression"
    return condition ++ " ? " ++ whenTrue ++ " : " ++ whenFalse
  | .newExpression => do
    let type ← a.typeNameText? (a.child? n "typeName")
    return "new " ++ type.display
  | .variableDeclaration => .ok node.name
  | _ => .ok (node.name.or node.label)
termination_by a.size - n

end ContractFlow.Arena
