import ContractFlow.Lineage.Override

/-!
This module contains what a contract inherits over several ways: bases, and members between which it
does not decide.
-/

namespace ContractFlow

structure Diamond where
  contract : ContractId
  base : ContractId
  via : List ContractId
deriving Inhabited

structure Conflict where
  contract : ContractId
  /-- The first of the contracts that define the member and are inherited over several ways. -/
  base : Option ContractId
  candidates : List CallableId
deriving Inhabited

namespace Lineage

variable (l : Lineage)

def diamonds (c : ContractId) : List Diamond :=
  let ways := (l.bases c).flatMap fun b => (l.order b).map (·, b)
  ((groupPairs ways).filter fun (_, via) => via.length > 1).map fun (base, via) => ⟨c, base, via⟩

def inheritable (c : ContractId) : List CallableId :=
  ((l.ancestors c).flatMap l.members).filter l.isMember

def inherited (c : ContractId) : List (List CallableId) :=
  let own := (l.members c).map l.key
  let groups := groupPairs ((l.inheritable c).map fun f => (l.key f, f))
  (groups.filter fun (key, _) => !own.contains key).map (·.2)

def conflicts (c : ContractId) : List Conflict :=
  let shared := (l.diamonds c).map fun d => l.contractName d.base
  (l.inherited c).filterMap fun definitions =>
    let winners := l.maximal definitions
    if winners.length < 2 then none
    else
      let owners := definitions.filterMap fun f => (l.callableD f).contract
      some ⟨c, owners.find? fun d => shared.contains (l.contractName d), winners⟩

end Lineage

namespace Conflict

variable (l : Lineage) (x : Conflict)

def member : Value :=
  (x.candidates.head?.map fun f => (l.callableD f).name).getD ""

def via : List Value :=
  x.candidates.filterMap fun f => (l.callableD f).contract.map l.contractName

def baseName : Value :=
  (x.base.map l.contractName).getD ""

def toIssue : Except Fault Issue := do
  return {
    kind := .diamondConflict
    message := "'" ++ (x.member l).display ++ "' is inherited from " ++ (← Value.join ", " (x.via l))
      ++ " without a disambiguating override"
    contract := l.contractName x.contract
    callable := x.member l
    details := [("base", x.baseName l), ("via", .list (x.via l))] }

end Conflict

end ContractFlow
