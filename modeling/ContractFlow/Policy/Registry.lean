import ContractFlow.Policy.Weakness

/-!
This module contains the registry of policies by name.
-/

namespace ContractFlow

inductive PolicyForm where
  | weakness (w : Weakness)
  | custom
  | assembled
deriving DecidableEq, Inhabited

structure PolicyClass where
  typeName : String
  name : Value := ""
  category : Value := ""
  description : Value := ""
  form : PolicyForm := .custom
  isConcrete : Bool := true
deriving BEq, Inhabited

namespace PolicyClass

def ofWeakness (w : Weakness) (typeName category description : String) : PolicyClass where
  typeName := typeName
  name := .text w.name
  category := .text category
  description := .text description
  form := .weakness w

def standard : List PolicyClass :=
  [ofWeakness .reentrancy "Reentrancy" "reentrancy"
     "State read before an external call is written after it",
   ofWeakness .arrayIndex "TaintedArrayIndex" "data-validation"
     "Caller-controlled data indexes an array without validation",
   ofWeakness .callTarget "TaintedCallTarget" "access-control"
     "Caller-controlled data decides which contract an external call goes to",
   ofWeakness .delegatecall "TaintedDelegatecall" "access-control"
     "Caller-controlled data reaches the target of delegatecall/callcode",
   ofWeakness .selfdestruct "TaintedSelfdestruct" "access-control"
     "Caller-controlled data reaches the beneficiary of selfdestruct",
   ofWeakness .valueTransfer "TaintedValueTransfer" "value-transfer"
     "Caller-controlled data decides the amount of ether sent",
   ofWeakness .uncheckedReturn "UncheckedReturn" "error-handling"
     "Success flag of a low-level call is never checked"]

def isRegistrable (c : PolicyClass) : Bool :=
  c.name.holds && c.isConcrete

def policyName (c : PolicyClass) : Value :=
  match c.form with
  | .assembled => "functional"
  | _ => if c.name.holds then c.name else c.typeName

def hasChecks (c : PolicyClass) : Bool :=
  c.form == .weakness .arrayIndex

end PolicyClass

inductive RegistryFault where
  | unknownName (name : Value) (available : List String)
  | badOption
  | notRegistrable
  | badTypeName
  | notAKey
  | notSortable
deriving Inhabited

def RegistryFault.message : RegistryFault → String
  | unknownName name _ => "Unknown configuration '" ++ name.display ++ "'"
  | badOption => "unexpected option"
  | notRegistrable => "not a named configuration"
  | badTypeName => "a class cannot be called so"
  | notAKey => "a list or an object cannot be looked up"
  | notSortable => "only texts can be put in order"

structure PolicyChoice where
  cls : PolicyClass
  options : PolicyOptions
deriving Inhabited

namespace PolicyChoice

def respectChecks? (c : PolicyChoice) : Option Value :=
  if c.cls.hasChecks then some c.options.respectChecks else none

def same (c d : PolicyChoice) : Bool :=
  c.cls == d.cls && c.options.maxCallDepth == d.options.maxCallDepth
    && c.options.respectChecks == d.options.respectChecks

def isKey (c : PolicyChoice) : Bool :=
  c.options.maxCallDepth.isKey && c.options.respectChecks.isKey

def compare (c d : PolicyChoice) : Except RegistryFault (Bool × Option Bool) :=
  if !c.same d then .ok (false, none)
  else if c.isKey && d.isKey then .ok (true, some true)
  else .error .notAKey

end PolicyChoice

def PolicyChoice.policy (c : PolicyChoice) (g : FlowGraph) : Policy :=
  match c.cls.form with
  | .weakness w => w.policy g c.options
  | _ =>
    { name := c.cls.policyName
      maxCallDepth := c.options.maxCallDepth
      isSource := fun _ => return false
      isSink := fun _ => return false
      isBarrier := fun _ _ => return false
      flowSteps := fun _ => return []
      taintSteps := fun _ => return [] }

def PolicyClass.readOptions (c : PolicyClass) (options : PolicyOptions) :
    List (String × Value) → Except RegistryFault PolicyOptions
  | [] => .ok options
  | (key, value) :: rest =>
    match key with
    | "max_call_depth" => c.readOptions { options with maxCallDepth := value } rest
    | "respect_checks" =>
      if c.hasChecks then c.readOptions { options with respectChecks := value } rest
      else .error .badOption
    | _ => .error .badOption

structure Registry where
  classes : List PolicyClass := PolicyClass.standard
deriving Inhabited

namespace Registry

variable (r : Registry)

def find? (name : Value) : Except RegistryFault (Option PolicyClass) :=
  if name.isKey then .ok (r.classes.find? (·.name == name)) else .error .notAKey

def put (c : PolicyClass) : List PolicyClass → List PolicyClass
  | [] => [c]
  | d :: rest => if d.name == c.name then c :: rest else d :: put c rest

def register (c : PolicyClass) : Except RegistryFault Registry :=
  if c.typeName.contains '\x00' then .error .badTypeName
  else if !c.isRegistrable then .error .notRegistrable
  else if !c.name.isKey then .error .notAKey
  else .ok ⟨put c r.classes⟩

def sorted (values : List Value) : Except RegistryFault (List String) :=
  match values.mapM Value.text? with
  | some texts => .ok ((distinct texts).mergeSort fun s t => !decide (t < s))
  | none => .error (if values.all Value.isKey then .notSortable else .notAKey)

def names : Except RegistryFault (List String) :=
  sorted (r.classes.map (·.name))

def count : Nat :=
  r.classes.length

def categories : Except RegistryFault (List String) :=
  sorted ((r.classes.map (·.category)).filter Value.holds)

def inCategory (category : Value) : List PolicyClass :=
  r.classes.filter (·.category == category)

def reservedOptions : List String := ["self", "name"]

def choose (depth : Int) (name : Value) (options : List (String × Value)) :
    Except RegistryFault PolicyChoice := do
  if options.any fun o => reservedOptions.contains o.1 then throw .badOption
  match ← r.find? name with
  | none => throw (.unknownName name (← r.names))
  | some c => return ⟨c, ← c.readOptions { maxCallDepth := .int depth } options⟩

end Registry

end ContractFlow
