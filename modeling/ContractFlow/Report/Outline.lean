import ContractFlow.Report.Reference

/-!
This module reports the declarations of a program.
-/

namespace ContractFlow.Report

variable (p : Program)

def parameter (x : Parameter) : Value :=
  .list [x.name, x.typeName, .int x.position, x.storage, .bool x.isReturn, nodeRef p x.node]

def application (name : Value) (n : NodeId) (arguments : List NodeId) : Value :=
  .list [name, nodeRef p n, nodeRefs p arguments]

def formFields (c : Callable) : Fields :=
  match c.form with
  | .function mutability selector invocations =>
    [("mutability", .text mutability.name), ("selector", selector),
     ("ctor", .bool c.isConstructor), ("external", .bool c.isExternallyCallable),
     ("modifiers", .array (fun i => application p i.name i.node i.arguments) invocations)]
  | .modifier hasPlaceholder => [("placeholder", .bool hasPlaceholder)]

def callable (f : CallableId) : Except Fault Value := do
  let c := p.callableD f
  let signature ← c.signature
  return .object
    ([("ref", callableRef p f), ("name", c.name), ("kind", .text c.kind.name),
      ("visibility", .text c.visibility.name), ("virtual", .bool c.isVirtual),
      ("override", .bool c.hasOverride), ("override_names", .list c.overrideNames),
      ("params", .array (parameter p) c.parameters), ("returns", .array (parameter p) c.returns),
      ("body", nodeRef? p c.body), ("node", nodeRef p c.node), ("implemented", .bool c.isImplemented),
      ("arity", .int c.arity), ("signature", .text signature),
      ("qualified", p.qualifiedName f), ("is_modifier", .bool (c.kind == .modifier)),
      ("repr", .text (p.describeCallable f))] ++ formFields p c)

def stateVariable (v : StateVariable) : Except Fault Value := do
  return .list
    [v.name, v.typeName, .text v.visibility.name, .bool v.isConstant, .bool v.isImmutable,
     .bool (← v.isMapping), .bool (← v.isArray), .bool (← v.isContainer), nodeRef p v.node]

def contract (id : ContractId) : Except Fault Value := do
  let c := p.contractD id
  let functions ← c.functions.mapM (callable p)
  let modifiers ← c.modifiers.mapM (callable p)
  let state ← c.stateVariables.mapM (stateVariable p)
  return .object
    [("ref", contractRef p id), ("repr", .text c.describe), ("kind", .text c.kind.name),
     ("abstract", .bool c.isAbstract), ("interface", .bool c.isInterface),
     ("library", .bool c.isLibrary),
     ("bases", .array (fun b => application p b.name b.node b.arguments) c.bases),
     ("functions", .list functions), ("modifiers", .list modifiers), ("state", .list state),
     ("events", .list c.events), ("errors", .list c.errors), ("structs", .list c.structs),
     ("enums", .list c.enums), ("using", .array (fun u => .list [u.library, u.typeName]) c.usings),
     ("constructor", callableRef? p (p.constructor? id))]

def issue (i : Issue) : Value :=
  if i.kind == .analysisFailure then
    { i with message := (i.message.display.splitOn ": ").headD "" }.toValue
  else i.toValue

def program : Except Fault Value := do
  let contracts ← p.contractIds.mapM (contract p)
  let free ← p.free.mapM (callable p)
  return .object
    [("contracts", .list contracts), ("free", .list free), ("issues", .array issue p.issues)]

end ContractFlow.Report
