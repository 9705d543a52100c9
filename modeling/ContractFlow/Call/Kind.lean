import ContractFlow.Call.Site
import ContractFlow.Call.TypeText
import ContractFlow.Lineage.Consult
import ContractFlow.Program.Types

/-!
This module classifies calls by what they are syntactically.
-/

namespace ContractFlow

inductive CallKind where
  | function | lowLevel | builtin | typeConversion | structConstructor | newContract | event | error
deriving DecidableEq, Inhabited

namespace CallKind

def name : CallKind → String
  | function => "function"
  | lowLevel => "low_level"
  | builtin => "builtin"
  | typeConversion => "type_conversion"
  | structConstructor => "struct_constructor"
  | newContract => "new_contract"
  | event => "event"
  | error => "error"

def ofDeclaration : Kind → CallKind
  | .contractDefinition | .enumDefinition | .userDefinedValueTypeDefinition => typeConversion
  | .structDefinition => structConstructor
  | .eventDefinition => event
  | .errorDefinition => error
  | _ => function

end CallKind

def lowLevelMembers : List String :=
  ["call", "delegatecall", "staticcall", "callcode", "send", "transfer"]

def builtinFunctions : List String :=
  ["require", "assert", "revert", "keccak256", "sha256", "sha3", "ripemd160", "ecrecover", "addmod",
   "mulmod", "selfdestruct", "suicide", "blockhash", "gasleft", "type"]

def builtinMembers : List String :=
  ["abi.encode", "abi.encodePacked", "abi.encodeWithSelector", "abi.encodeWithSignature",
   "abi.encodeCall", "abi.decode", "string.concat", "bytes.concat"]

namespace Lineage

variable (l : Lineage)

def isAbout (base : String) (directive : UsingFor) : Except Fault Bool := do
  if directive.typeName == "*" || base.isEmpty then return true
  return TypeText.normalize (← directive.typeName.asText) == base

def takesReceiver (base : String) (arity : Nat) (f : CallableId) : Except Fault Bool :=
  let g := l.callableD f
  if g.arity != arity then .ok false
  else
    match g.parameters with
    | [] => .ok true
    | p :: _ => TypeText.isAccepted base p.typeName

def boundBy (base : String) (member : Value) (arity : Nat) (directive : UsingFor) :
    Except Fault (List CallableId) := do
  match ← l.contractNamed directive.library with
  | none => return []
  | some library =>
    if ← isAbout base directive then
      (l.functionsNamed library member).filterM (l.takesReceiver base arity)
    else return []

def receiverType (site : NodeId) : Except Fault String := do
  match l.arena.receiver? site with
  | none => return ""
  | some base => return TypeText.normalize (← (← l.typeOf base).asText)

def boundFunctions (site : NodeId) (member : Value) : Query (List CallableId) := do
  match ← l.home site with
  | none => return []
  | some home =>
    let base ← l.receiverType site
    let order ← l.orderOf home
    let directives := order.flatMap fun c => (l.contractD c).usings
    let arity := (l.arena.callArguments site).length + 1
    let bound ← Query.ofExcept (directives.mapM (l.boundBy base member arity))
    return distinct bound.flatten

def kindOfMember? (c : ContractId) (name : Value) : Option CallKind :=
  let contract := l.contractD c
  if contract.structs.contains name then some .structConstructor
  else if contract.errors.contains name then some .error
  else if contract.events.contains name then some .event
  else none

def classifyName (site callee : NodeId) : Query CallKind := do
  let name := l.arena.text callee
  match ← l.lookUp callee with
  | some decl => return .ofDeclaration (l.arena.kind decl)
  | none =>
    if ← name.isAmong builtinFunctions then return .builtin
    match ← l.home site with
    | none => return .function
    | some home =>
      let order ← l.orderOf home
      return (order.findSome? fun c => l.kindOfMember? c name).getD .function

def isBuiltinMember (base : Option NodeId) (member : Value) : Bool :=
  base.any fun b =>
    (l.arena.kind b == .identifier || l.arena.kind b == .elementaryTypeNameExpression)
      && builtinMembers.contains ((l.arena.text b).display ++ "." ++ member.display)

def isOnAddress (site : NodeId) (base : Option NodeId) (member : Value) : Except Fault Bool := do
  let type ← (← l.typeOf? base).asText
  return type.startsWith "address"
    || (type.isEmpty && (member != "transfer" || (l.arena.callArguments site).length == 1))

def mayBeArray (type : String) : Bool :=
  type.endsWith "]" || (type.splitOn "[]").length > 1 || type.isEmpty

def isArrayMember (site : NodeId) (base : Option NodeId) (member : Value) : Query Bool :=
  if member.isOneOf ["push", "pop"] then do
    let type ← Query.ofExcept (do (← l.typeOf? base).asText)
    if mayBeArray type then
      let bound ← l.boundFunctions site member
      return bound.isEmpty
    else return false
  else return false

def classifyMember (site callee : NodeId) : Query CallKind := do
  let base := l.arena.child? callee "expression"
  let member := l.arena.text callee
  let decl ← l.lookUp callee
  match decl.filter fun d => l.arena.kind d != .functionDefinition with
  | some d => return .ofDeclaration (l.arena.kind d)
  | none =>
    if l.isBuiltinMember base member then return .builtin
    let isLowLevel ← member.isAmong lowLevelMembers
    if decl.isSome then return .function
    if isLowLevel then
      if ← l.isOnAddress site base member then return .lowLevel
    if ← l.isArrayMember site base member then return .builtin
    if member.isOneOf ["value", "gas"] then return .builtin
    return .function

def classify (site : NodeId) : Query CallKind :=
  let a := l.arena
  let given := (a.node site).attrText "kind"
  let above := (a.parent? site).map a.kind
  if given == "typeConversion" then return .typeConversion
  else if given == "structConstructorCall" then return .structConstructor
  else
    match a.callee? site with
    | none => return .function
    | some callee =>
      if above == some .emitStatement then return .event
      else if above == some .revertStatement then return .error
      else
        match a.kind callee with
        | .newExpression =>
          match (a.child? callee "typeName").map a.kind with
          | some .userDefinedTypeName => return .newContract
          | _ => return .builtin
        | .elementaryTypeNameExpression => return .typeConversion
        | .identifier => l.classifyName site callee
        | .memberAccess => l.classifyMember site callee
        | _ => return .function

end Lineage

end ContractFlow
