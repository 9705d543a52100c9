import ContractFlow.Plugin.Files
import ContractFlow.Policy.Registry

/-!
This module contains the classes that a module of a plugin defines.
-/

namespace ContractFlow

structure KnownClass where
  policies : Option PolicyClass
  definedAt : Option Nat
deriving BEq, Inhabited

abbrev ModuleScope := List (String × KnownClass)

namespace ModuleScope

def imported : ModuleScope :=
  [("Configuration", ⟨some { typeName := "Configuration", isConcrete := false }, none⟩),
   ("FunctionalConfiguration",
     ⟨some { typeName := "FunctionalConfiguration", form := .assembled }, none⟩)]
    ++ (PolicyClass.standard.filter (·.form == .weakness .callTarget)).map fun c =>
      (c.typeName, ⟨some c, none⟩)

def bind (scope : ModuleScope) (name : String) (c : KnownClass) : ModuleScope :=
  match scope with
  | [] => [(name, c)]
  | (n, d) :: rest => if n == name then (n, c) :: rest else (n, d) :: bind rest name c

def get (scope : ModuleScope) (name : String) : Except String KnownClass :=
  match scope.lookup name with
  | some c => .ok c
  | none => .error ("name '" ++ name ++ "' is not defined")

def derive (base : PolicyClass) (typeName : String) (name category : Option Value)
    (isAbstract : Bool) : PolicyClass :=
  { base with
    typeName := typeName
    name := name.getD base.name
    category := category.getD base.category
    isConcrete := base.isConcrete || !isAbstract }

def define (scope : ModuleScope) (place : Nat) : ModuleItem → Except String ModuleScope
  | .policy typeName base name category isAbstract => do
    let base ← scope.get base
    let policies := base.policies.map fun c => derive c typeName name category isAbstract
    return scope.bind typeName ⟨policies, some place⟩
  | .plain typeName => .ok (scope.bind typeName ⟨none, some place⟩)
  | .alias name target => do return scope.bind name (← scope.get target)
  | .failure message => .error message

def run (scope : ModuleScope) (place : Nat) : List ModuleItem → Except String ModuleScope
  | [] => .ok scope
  | item :: rest => do (← scope.define place item).run (place + 1) rest

end ModuleScope

def policiesOf (items : List ModuleItem) : Except String (List PolicyClass) := do
  let scope ← ModuleScope.imported.run 0 items
  let own := scope.filterMap fun (_, c) =>
    match c.policies, c.definedAt with
    | some p, some place => some (place, p)
    | _, _ => none
  return (distinct own).map (·.2)

end ContractFlow
