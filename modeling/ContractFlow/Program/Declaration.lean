import ContractFlow.Issue
import ContractFlow.Syntax.Navigate

/-! This module contains the declarations that a program consists of. -/

namespace ContractFlow

abbrev ContractId := Nat

abbrev CallableId := Nat

inductive Visibility where
  | publicly | externally | internally | privately
deriving DecidableEq, Inhabited

namespace Visibility

def name : Visibility → String
  | publicly => "public"
  | externally => "external"
  | internally => "internal"
  | privately => "private"

def ofName? (s : String) : Option Visibility :=
  [publicly, externally, internally, privately].find? (·.name == s)

def ofValue (v : Value) : Visibility :=
  (v.text?.bind ofName?).getD internally

end Visibility

inductive Mutability where
  | pure | view | nonpayable | payable
deriving DecidableEq, Inhabited

namespace Mutability

def name : Mutability → String
  | .pure => "pure"
  | .view => "view"
  | .nonpayable => "nonpayable"
  | .payable => "payable"

def ofName? (s : String) : Option Mutability :=
  [Mutability.pure, .view, .nonpayable, .payable].find? (·.name == s)

def ofValue (v : Value) : Mutability :=
  (v.text?.bind ofName?).getD .nonpayable

end Mutability

inductive ContractKind where
  | contract | interface | library
deriving DecidableEq, Inhabited

namespace ContractKind

def name : ContractKind → String
  | contract => "contract"
  | interface => "interface"
  | library => "library"

def ofName? (s : String) : Option ContractKind :=
  [contract, interface, library].find? (·.name == s)

end ContractKind

inductive CallableKind where
  | function | constructor | fallback | receive | modifier | freeFunction
deriving DecidableEq, Inhabited

namespace CallableKind

def name : CallableKind → String
  | function => "function"
  | constructor => "constructor"
  | fallback => "fallback"
  | receive => "receive"
  | modifier => "modifier"
  | freeFunction => "freeFunction"

def ofName? (s : String) : Option CallableKind :=
  [function, constructor, fallback, receive, modifier, freeFunction].find? (·.name == s)

def isCallTarget : CallableKind → Bool
  | function | freeFunction | fallback | receive => true
  | constructor | modifier => false

end CallableKind

structure Parameter where
  name : Value
  typeName : Value
  position : Nat
  node : NodeId
  storage : Value
  isReturn : Bool
deriving Inhabited

structure Invocation where
  name : Value
  node : NodeId
  arguments : List NodeId
deriving Inhabited

inductive CallableForm where
  | function (mutability : Mutability) (selector : Value) (invocations : List Invocation)
  | modifier (hasPlaceholder : Bool)
deriving Inhabited

structure Callable where
  name : Value
  kind : CallableKind
  form : CallableForm
  visibility : Visibility
  isVirtual : Bool
  hasOverride : Bool
  overrideNames : List Value
  parameters : List Parameter
  returns : List Parameter
  body : Option NodeId
  node : NodeId
  contract : Option ContractId
deriving Inhabited

namespace Callable

def isImplemented (c : Callable) : Bool :=
  c.body.isSome

def arity (c : Callable) : Nat :=
  c.parameters.length

def signature (c : Callable) : Except Fault String := do
  let types ← Value.join "," (c.parameters.map (·.typeName))
  return c.name.display ++ "(" ++ types ++ ")"

def key (c : Callable) : Value × List Value :=
  (c.name, c.parameters.map (·.typeName))

def hasKey (c : Callable) : Bool :=
  c.name.isKey && c.parameters.all (·.typeName.isKey)

def isFunction (c : Callable) : Bool :=
  match c.form with
  | .function .. => true
  | .modifier _ => false

def invocations (c : Callable) : List Invocation :=
  match c.form with
  | .function _ _ invocations => invocations
  | .modifier _ => []

def isConstructor (c : Callable) : Bool :=
  c.kind == .constructor

def isExternallyCallable (c : Callable) : Bool :=
  c.visibility == .publicly || c.visibility == .externally || c.kind == .fallback || c.kind == .receive

end Callable

structure StateVariable where
  name : Value
  typeName : Value
  node : NodeId
  visibility : Visibility
  isConstant : Bool
  isImmutable : Bool
deriving Inhabited

namespace StateVariable

def isMapping (v : StateVariable) : Except Fault Bool := do
  return (← v.typeName.asText).startsWith "mapping"

def isArray (v : StateVariable) : Except Fault Bool := do
  return (← v.typeName.asText).endsWith "]"

def isContainer (v : StateVariable) : Except Fault Bool := do
  return (← v.isMapping) || (← v.isArray)

end StateVariable

structure BaseSpecifier where
  name : Value
  node : NodeId
  arguments : List NodeId
deriving Inhabited

structure UsingFor where
  library : Value
  typeName : Value
deriving Inhabited

structure Contract where
  name : Value
  node : NodeId
  kind : ContractKind
  isAbstract : Bool
  bases : List BaseSpecifier
  functions : List CallableId
  modifiers : List CallableId
  stateVariables : List StateVariable
  events : List Value
  errors : List Value
  structs : List Value
  enums : List Value
  usings : List UsingFor
deriving Inhabited

namespace Contract

def isInterface (c : Contract) : Bool :=
  c.kind == .interface

def isLibrary (c : Contract) : Bool :=
  c.kind == .library

def callables (c : Contract) : List CallableId :=
  c.functions ++ c.modifiers

def describe (c : Contract) : String :=
  "<" ++ c.kind.name ++ " " ++ c.name.display ++ ">"

end Contract

end ContractFlow
