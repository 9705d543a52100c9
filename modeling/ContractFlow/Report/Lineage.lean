import ContractFlow.Lineage.Consult
import ContractFlow.Report.Outline

/-!
This module reports what contracts inherit.
-/

namespace ContractFlow.Report

variable (l : Lineage)

def diamond (d : Diamond) : Value :=
  .list [l.contractName d.contract, l.contractName d.base, .array l.contractName d.via]

def conflict (x : Conflict) : Value :=
  .list
    [l.contractName x.contract, x.baseName l, .list (x.via l), x.member l,
     callableRefs l.toProgram x.candidates]

def heritage (c : ContractId) (depth : Nat) : Query Value := do
  let p := l.toProgram
  let order ← l.orderOf c
  let ancestors ← l.ancestorsOf c
  let isAbstract ← l.isAbstractContract c
  let derived ← l.derivedFrom c
  let diamonds ← l.diamondsOf c
  let conflicts ← l.conflictsOf c
  return .object
    [("c", contractRef p c), ("bases", contractRefs p (l.bases c)),
     ("unresolved", .list (l.unresolvedBases c)), ("linear", contractRefs p order),
     ("ancestors", contractRefs p ancestors), ("depth", .int depth), ("abstract", .bool isAbstract),
     ("derived", contractRefs p derived), ("diamonds", .array (diamond l) diamonds),
     ("conflicts", .array (conflict l) conflicts)]

def inheritance (contracts : List Value) (issues : List Issue) : Value :=
  let edges := l.contractIds.flatMap fun c => (l.bases c).map fun b => (c, b)
  .object
    [("contracts", .list contracts),
     ("edges", .array (fun (c, b) => .list [l.contractName c, l.contractName b]) edges),
     ("cycles", .array (.array l.contractName) l.cycles), ("issues", .array issue issues)]

def replacement (f : CallableId) : Query Value := do
  let p := l.toProgram
  let isOverride ← l.isOverrideOf f
  let above ← l.overriddenOf f
  let below ← l.overridersOf f
  return .list
    [callableRef p f, .bool (l.callableD f).isVirtual, .bool isOverride, callableRefs p above,
     callableRefs p below]

def overrides : Query Value := do
  let p := l.toProgram
  let records ← l.records
  let rows ← l.callableIds.mapM (replacement l)
  return .object
    [("records", .array (fun (f, g) => .list [callableRef p f, callableRef p g]) records),
     ("callables", .list rows)]

def candidates (c : ContractId) (w : Lineage.Wanted) (after : Option ContractId) : Query Value := do
  let found ← l.candidatesFor c w after
  let most ← l.mostDerivedFor c w.name w.arity
  return .object
    [("candidates", callableRefs l.toProgram found), ("most", callableRef? l.toProgram most)]

end ContractFlow.Report
