import ContractFlow.Data.Group
import ContractFlow.Lineage.Order

/-!
This module contains the overrides: which definitions replace which, and which of them a name stands for
in a contract.
-/

namespace ContractFlow.Lineage

variable (l : Lineage)

def members (c : ContractId) : List CallableId :=
  (l.contractD c).callables

def key (f : CallableId) : Value × List Value :=
  (l.callableD f).key

def isMember (f : CallableId) : Bool :=
  !(l.callableD f).isConstructor

def allMembers (c : ContractId) : List CallableId :=
  ((l.order c).flatMap l.members).filter l.isMember

def isOpen (earlier : List CallableId) (f : CallableId) : Bool :=
  !(l.callableD f).isImplemented && !earlier.any fun g => l.key g == l.key f

def untilOpen (earlier : List CallableId) : List CallableId → List CallableId
  | [] => []
  | f :: rest => if l.isOpen earlier f then [f] else f :: untilOpen (earlier ++ [f]) rest

def hasOpen (earlier : List CallableId) : List CallableId → Bool
  | [] => false
  | f :: rest => l.isOpen earlier f || hasOpen (earlier ++ [f]) rest

def isAbstract (c : ContractId) : Bool :=
  let contract := l.contractD c
  contract.isAbstract || contract.isInterface || l.hasOpen [] (l.allMembers c)

def isDominatedBy (f other : CallableId) : Bool :=
  match (l.callableD f).contract, (l.callableD other).contract with
  | some c, some d => l.isAncestor c d
  | _, _ => false

def maximal (definitions : List CallableId) : List CallableId :=
  definitions.filter fun f =>
    (l.callableD f).contract.isSome && !definitions.any (l.isDominatedBy f)

def replaceable (f : CallableId) : List CallableId :=
  let g := l.callableD f
  match g.contract with
  | none => []
  | some c =>
    if g.isConstructor then []
    else ((l.ancestors c).flatMap l.members).filter fun m =>
      (l.callableD m).kind == g.kind && l.key m == g.key

def overridden (f : CallableId) : List CallableId :=
  l.maximal (l.replaceable f)

def isOverride (f : CallableId) : Bool :=
  (l.callableD f).hasOverride || !(l.overridden f).isEmpty

def overriddenBy (f : CallableId) : List CallableId :=
  let g := l.callableD f
  match g.contract with
  | none => []
  | some c =>
    (((l.derived c).filter (· != c)).flatMap l.members).filter fun m =>
      (l.callableD m).kind == g.kind && l.key m == g.key

def overrideRecords : List (CallableId × CallableId) :=
  (l.contractIds.flatMap l.members).flatMap fun f => (l.overridden f).map (f, ·)

structure Wanted where
  name : Value
  arity : Option Int := none
  kind : Option CallableKind := none

def Wanted.matches (w : Wanted) (f : Callable) : Bool :=
  f.name == w.name && !f.isConstructor && w.kind.all (· == f.kind) && w.arity.all (· == (f.arity : Int))

def searched (c : ContractId) (after : Option ContractId) : List ContractId :=
  let order := l.order c
  match after with
  | none => order
  | some s => if order.contains s then (order.dropWhile (· != s)).tail else order.tail

def matching (c : ContractId) (w : Wanted) (after : Option ContractId) : List (List CallableId) :=
  let found := ((l.searched c after).flatMap l.members).filter fun f => w.matches (l.callableD f)
  (groupPairs (found.map fun f => (l.key f, f))).map (·.2)

/--
The most derived definitions that a name stands for in a contract. Several with the same parameters are
left where bases compete and the contract itself does not decide.
-/
def candidates (c : ContractId) (w : Wanted) (after : Option ContractId) : List CallableId :=
  (l.matching c w after).flatMap fun definitions =>
    let winners := l.maximal definitions
    match definitions.head? with
    | none => []
    | some first =>
      if (l.callableD first).contract == some c || winners.length == 1 then [first] else winners

def mostDerived? (c : ContractId) (name : Value) (arity : Option Int) : Option CallableId :=
  match l.candidates c ⟨name, arity, none⟩ none with
  | [f] => some f
  | _ => none

end ContractFlow.Lineage
