import ContractFlow.Program.Declaration
import ContractFlow.Syntax.Text

/-!
This module collects the declarations of a program. A member that cannot be modelled becomes an issue and is left out.
-/

namespace ContractFlow

structure FailurePlan where
  /-- Names of functions that cannot be modelled. -/
  model : List Value := []
  /-- Qualified names of callables without a control flow graph. -/
  control : List Value := []
  /-- Qualified names of callables without an SSA form. -/
  ssa : List Value := []
deriving Inhabited

structure Outline where
  arena : Arena
  contracts : Array Contract
  callables : Array Callable
  free : List CallableId
  issues : List Issue
deriving Inhabited

namespace Outline

section Modelling

variable (a : Arena) (plan : FailurePlan)

def parametersOf (list : Option NodeId) (isReturn : Bool) : Except Fault (List Parameter) :=
  match list with
  | none => .ok []
  | some list => do
    let found ← ((a.entries list "parameters").zipIdx).filterMapM fun (entry, position) =>
      match entry with
      | none => pure none
      | some p => do
        let type ← a.declaredType p
        let node := a.node p
        pure (some ⟨node.name, type, position, p, (node.attr? "storageLocation").getD "", isReturn⟩)
    return found

def callableOf (n : NodeId) (name : Value) (kind : CallableKind) (form : CallableForm)
    (contract : Option ContractId) (inInterface : Bool) : Except Fault Callable := do
  let node := a.node n
  let parameters ← parametersOf a (node.child? "parameters") false
  let returns ← parametersOf a (node.child? "returnParameters") true
  let overrideNames := match node.child? "overrides" with
    | none => []
    | some list => (a.items list "overrides").map fun o => (a.node o).pathName
  return {
    name, kind, form, parameters, returns, overrideNames, contract
    visibility := .ofValue (Fields.get node.fields "visibility")
    isVirtual := node.flag "virtual" || inInterface
    hasOverride := (node.attr? "overrides").isSome
    body := node.child? "body"
    node := n }

def invocationsOf (n : NodeId) : List Invocation :=
  (a.items n "modifiers").map fun m =>
    let name := ((a.child? m "modifierName").map fun c => (a.node c).pathName).getD ""
    ⟨name, m, a.items m "arguments"⟩

def functionOf (n : NodeId) (contract : Option ContractId) (inInterface : Bool) :
    Except Fault Callable := do
  let node := a.node n
  if plan.model.contains node.name then throw .planned
  let kind := ((node.attr? "kind").bind fun v => v.text?.bind CallableKind.ofName?).getD .function
  let form := .function (.ofValue (Fields.get node.fields "stateMutability"))
    ((node.attr? "functionSelector").getD "") (invocationsOf a n)
  callableOf a n (node.name.or kind.name) kind form contract inInterface

def hasPlaceholder (body : Option NodeId) : Bool :=
  match body with
  | none => false
  | some body => (a.walk body).any fun m => a.kind m == .placeholderStatement

def modifierOf (n : NodeId) (contract : ContractId) (inInterface : Bool) : Except Fault Callable :=
  callableOf a n (a.name n) .modifier (.modifier (hasPlaceholder a (a.child? n "body")))
    (some contract) inInterface

def stateVariableOf (n : NodeId) : Except Fault StateVariable := do
  let node := a.node n
  let type ← a.declaredType n
  return {
    name := node.name
    typeName := type
    node := n
    visibility := .ofValue (Fields.get node.fields "visibility")
    isConstant := node.flag "constant"
    isImmutable := node.attrText "mutability" == "immutable" }

def failure (n : NodeId) (fault : Fault) (contract callable : Value) : Issue where
  kind := .analysisFailure
  message := "failed to model " ++ (a.label n).display ++ " '" ++ (a.name n).display ++ "': "
    ++ fault.message
  contract := contract
  callable := callable

structure Draft where
  contract : Contract
  functions : List Callable := []
  modifiers : List Callable := []

def addMember (id : ContractId) (draft : Draft) (n : NodeId) : Except Fault Draft := do
  let c := draft.contract
  match a.kind n with
  | .functionDefinition =>
    let f ← functionOf a plan n (some id) c.isInterface
    return { draft with functions := draft.functions ++ [f] }
  | .modifierDefinition =>
    let m ← modifierOf a n id c.isInterface
    return { draft with modifiers := draft.modifiers ++ [m] }
  | .variableDeclaration =>
    let v ← stateVariableOf a n
    return { draft with contract := { c with stateVariables := c.stateVariables ++ [v] } }
  | .eventDefinition =>
    return { draft with contract := { c with events := c.events ++ [a.name n] } }
  | .errorDefinition =>
    return { draft with contract := { c with errors := c.errors ++ [a.name n] } }
  | .structDefinition =>
    return { draft with contract := { c with structs := c.structs ++ [a.name n] } }
  | .enumDefinition =>
    return { draft with contract := { c with enums := c.enums ++ [a.name n] } }
  | .usingForDirective =>
    let library := ((a.child? n "libraryName").map fun l => (a.node l).pathName).getD ""
    let type ← match a.child? n "typeName" with
      | none => pure (Value.text "*")
      | some t => a.typeNameText t
    return { draft with contract := { c with usings := c.usings ++ [⟨library, type⟩] } }
  | _ => return draft

def headOf (n : NodeId) : Contract :=
  let node := a.node n
  { name := node.name
    node := n
    kind := ((node.attr? "contractKind").bind fun v => v.text?.bind ContractKind.ofName?).getD .contract
    isAbstract := node.flag "abstract"
    bases := (a.items n "baseContracts").map fun b =>
      ⟨((a.child? b "baseName").map fun c => (a.node c).pathName).getD "", b, a.items b "arguments"⟩
    functions := [], modifiers := [], stateVariables := [], events := [], errors := []
    structs := [], enums := [], usings := [] }

def contractOf (id : ContractId) (n : NodeId) : Draft × List Issue :=
  (a.items n "nodes").foldl
    (fun (draft, issues) member =>
      match addMember a plan id draft member with
      | .ok draft => (draft, issues)
      | .error fault => (draft, issues ++ [failure a member fault draft.contract.name (a.name member)]))
    (⟨headOf a n, [], []⟩, [])

structure Sheaf where
  free : List Callable := []
  drafts : List Draft := []
  issues : List Issue := []

def collect (sheaf : Sheaf) (n : NodeId) : Sheaf :=
  match a.kind n with
  | .contractDefinition =>
    let (draft, issues) := contractOf a plan sheaf.drafts.length n
    let unknown := if (a.name n).isKey then [] else [failure a n .notAKey (a.name n) ""]
    { sheaf with drafts := sheaf.drafts ++ [draft], issues := sheaf.issues ++ issues ++ unknown }
  | .functionDefinition =>
    match functionOf a plan n none false with
    | .ok f => { sheaf with free := sheaf.free ++ [{ f with kind := .freeFunction }] }
    | .error fault => { sheaf with issues := sheaf.issues ++ [failure a n fault "" ""] }
  | _ => sheaf

end Modelling

def place (next : CallableId) : List Draft → List Contract × List Callable
  | [] => ([], [])
  | d :: rest =>
    let functions := d.functions.length
    let modifiers := d.modifiers.length
    let contract :=
      { d.contract with
        functions := List.range' next functions
        modifiers := List.range' (next + functions) modifiers }
    let (contracts, callables) := place (next + functions + modifiers) rest
    (contract :: contracts, d.functions ++ d.modifiers ++ callables)

def ofArena (a : Arena) (plan : FailurePlan) : Outline :=
  let tops := a.units.toList.flatMap fun unit => a.children unit.root
  let sheaf := tops.foldl (collect a plan) {}
  let (contracts, callables) := place sheaf.free.length sheaf.drafts
  { arena := a
    contracts := contracts.toArray
    callables := (sheaf.free ++ callables).toArray
    free := List.range sheaf.free.length
    issues := sheaf.issues }

/-! Look-ups -/

variable (o : Outline)

def contractD (c : ContractId) : Contract :=
  o.contracts.getD c default

def callableD (f : CallableId) : Callable :=
  o.callables.getD f default

def contractIds : List ContractId :=
  List.range o.contracts.size

def callableIds : List CallableId :=
  List.range o.callables.size

/--
Whether a contract and what it declares are known to the program, for which it must be possible to look
its name up.
-/
def isKnown (c : ContractId) : Bool :=
  (o.contractD c).name.isKey

def isKnownCallable (f : CallableId) : Bool :=
  (o.callableD f).contract.all o.isKnown

def findContract? (name : Value) : Option ContractId :=
  o.contractIds.find? fun c => o.isKnown c && (o.contractD c).name == name

def contractNamed (name : Value) : Except Fault (Option ContractId) := do
  return o.findContract? (← name.asKey)

def contractAt? (n : NodeId) : Option ContractId :=
  o.contractIds.find? fun c => (o.contractD c).node == n

def definedAt? (n : NodeId) : Option CallableId :=
  o.callableIds.find? fun f => (o.callableD f).node == n

def callableAt? (n : NodeId) : Option CallableId :=
  (o.definedAt? n).filter o.isKnownCallable

def enclosingDefinition? (n : NodeId) : Option CallableId :=
  (o.arena.lineage n).findSome? o.definedAt?

def enclosingContract (n : NodeId) : Except Fault (Option ContractId) :=
  match (o.arena.lineage n).find? fun m => o.arena.kind m == .contractDefinition with
  | none => .ok none
  | some decl => do
    let _ ← (o.arena.name decl).asKey
    return o.contractAt? decl

def qualifiedName (f : CallableId) : Value :=
  let c := o.callableD f
  let owner := (c.contract.map fun id => (o.contractD id).name).getD ""
  if owner.holds then owner.display ++ "." ++ c.name.display else c.name

def describeCallable (f : CallableId) : String :=
  "<" ++ (o.callableD f).kind.name ++ " " ++ (o.qualifiedName f).display ++ ">"

def constructor? (c : ContractId) : Option CallableId :=
  (o.contractD c).functions.find? fun f => (o.callableD f).isConstructor

def functionsNamed (c : ContractId) (name : Value) : List CallableId :=
  (o.contractD c).functions.filter fun f => (o.callableD f).name == name

def modifierNamed? (c : ContractId) (name : Value) : Option CallableId :=
  (o.contractD c).modifiers.find? fun m => (o.callableD m).name == name

def stateVariableNamed? (c : ContractId) (name : Value) : Option StateVariable :=
  (o.contractD c).stateVariables.find? fun v => v.name == name

def callableNamed? (contract name : Value) : Option CallableId :=
  (o.findContract? contract).bind fun c =>
    (o.contractD c).callables.find? fun f => (o.callableD f).name == name

def stateVariableAt? (n : NodeId) : Option StateVariable :=
  (o.contractIds.filter o.isKnown).findSome? fun c =>
    (o.contractD c).stateVariables.find? fun v => v.node == n

def parameterAt? (n : NodeId) : Option Parameter :=
  (o.callableIds.filter o.isKnownCallable).findSome? fun f =>
    ((o.callableD f).parameters ++ (o.callableD f).returns).find? fun p => p.node == n

end Outline

end ContractFlow
