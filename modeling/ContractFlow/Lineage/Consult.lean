import ContractFlow.Lineage.Diamond
import ContractFlow.Query

/-!
This module contains the questions about inheritance as they are asked, each with the contracts whose order it needs.
-/

namespace ContractFlow.Lineage

variable (l : Lineage)

def consultOne (c : ContractId) : Query Unit :=
  if l.isKnown c then .report ((l.failures.get c).map .linearization) else .fail .notAKey

def consult (cs : List ContractId) : Query Unit :=
  cs.forM l.consultOne

def needKeys (fs : List CallableId) : Except Fault Unit :=
  if fs.all fun f => (l.callableD f).hasKey then .ok () else .error .notAKey

def answer (cs : List ContractId) (x : α) : Query α := do
  l.consult cs
  return x

def maximalNeeds (definitions : List CallableId) : List ContractId :=
  definitions.flatMap fun f =>
    let rivals := definitions.filter fun g =>
      (l.callableD f).contract.isSome && (l.callableD g).contract.isSome
        && (l.callableD g).contract != (l.callableD f).contract
    (takeThrough (l.isDominatedBy f) rivals).filterMap fun g => (l.callableD g).contract

def orderOf (c : ContractId) : Query (List ContractId) :=
  l.answer [c] (l.order c)

def ancestorsOf (c : ContractId) : Query (List ContractId) :=
  l.answer [c] (l.ancestors c)

def derivedFrom (c : ContractId) : Query (List ContractId) :=
  l.answer l.contractIds (l.derived c)

def isAncestorOf (ancestor c : ContractId) : Query Bool :=
  l.answer (if ancestor == c then [] else [c]) (l.isAncestor ancestor c)

def isAbstractContract (c : ContractId) : Query Bool := do
  let contract := l.contractD c
  if contract.isAbstract || contract.isInterface then return true
  l.consult [c]
  l.needKeys (l.untilOpen [] (l.allMembers c))
  return l.isAbstract c

def overriddenNeeds (f : CallableId) : List ContractId :=
  let g := l.callableD f
  match g.contract with
  | none => []
  | some c => if g.isConstructor then [] else c :: l.maximalNeeds (l.replaceable f)

def overriddenOf (f : CallableId) : Query (List CallableId) :=
  l.answer (l.overriddenNeeds f) (l.overridden f)

def isOverrideOf (f : CallableId) : Query Bool :=
  l.answer (if (l.callableD f).hasOverride then [] else l.overriddenNeeds f) (l.isOverride f)

def overridersOf (f : CallableId) : Query (List CallableId) :=
  l.answer (if (l.callableD f).contract.isSome then l.contractIds else []) (l.overriddenBy f)

def records : Query (List (CallableId × CallableId)) :=
  l.answer ((l.contractIds.flatMap l.members).flatMap l.overriddenNeeds) l.overrideRecords

def candidatesFor (c : ContractId) (w : Wanted) (after : Option ContractId) :
    Query (List CallableId) := do
  let groups := l.matching c w after
  l.consult [c]
  l.needKeys groups.flatten
  l.answer (groups.flatMap l.maximalNeeds) (l.candidates c w after)

def mostDerivedFor (c : ContractId) (name : Value) (arity : Option Int) :
    Query (Option CallableId) := do
  let _ ← l.candidatesFor c ⟨name, arity, none⟩ none
  return l.mostDerived? c name arity

def diamondsOf (c : ContractId) : Query (List Diamond) :=
  l.answer (l.bases c) (l.diamonds c)

def conflictsOf (c : ContractId) : Query (List Conflict) := do
  l.needKeys (l.members c)
  l.consult (l.bases c ++ [c])
  l.needKeys (l.inheritable c)
  l.answer ((l.inherited c).flatMap l.maximalNeeds) (l.conflicts c)

def conflictIssues : Query (List Issue) := do
  let issues ← l.contractIds.mapM fun c => do
    (← l.conflictsOf c).mapM fun x => liftM (x.toIssue l)
  return issues.flatten

end ContractFlow.Lineage
