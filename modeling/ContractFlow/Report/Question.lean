import ContractFlow.Flow.Reach

/-! This module reads the values by which questions name parts of a program or limit a search. -/

namespace ContractFlow.Report

def placeAt (size : Nat) (i : Int) : Except Fault Nat :=
  let place := if i < 0 then i + size else i
  if 0 ≤ place && place < size then .ok place.toNat else .error .outOfRange

section Parts

variable (p : Program)

def unitFor (v : Value) : Except Fault Nat :=
  match v.int? with
  | some i => placeAt p.arena.units.size i
  | none => .error .notANumber

def contractFor (v : Value) : Except Fault (Option ContractId) :=
  match v.int? with
  | some i => some <$> placeAt p.contracts.size i
  | none => p.contractNamed v

def callableFor (v : Value) : Except Fault (Option CallableId) :=
  match v with
  | .list [contract, name] => do return p.callableNamed? (← contract.asKey) name
  | v =>
    match v.int? with
    | some i => some <$> placeAt p.callables.size i
    | none => .error .notANumber

def nodeWithId (v : Value) : Except Fault (Option NodeId) :=
  match v with
  | .null => .ok none
  | .float x => .ok (p.arena.findById? x.whole?)
  | v =>
    match v.int? with
    | some id => .ok (p.arena.findById? (some id))
    | none => .error .notANumber

end Parts

def arityFor : Value → Option Int
  | .null => none
  | .float x => some (x.whole?.getD (-1))
  | v => some (v.int?.getD (-1))

/--
The whole number that limits a count as a value does, where `round` is the way to round numbers with a
fraction. A value that is above all counts, or cannot be compared with them, is no limit.
-/
def limitFor (round : Double → Option Int) : Value → Except Fault (Option Int)
  | .float (.infinite true) => .ok (some (-1))
  | .float x => .ok (round x)
  | v =>
    match v.int? with
    | some n => .ok (some n)
    | none => .error .notANumber

section Searches

variable (g : CallGraph)

/--
The callables that calls lead to from `f`, not farther away than `limit`, which does not have to be a
number if there is no callable to compare it for.
-/
def reachWithin (f : CallableId) (limit : Value) : Query CallReach :=
  match limitFor Double.floor? limit with
  | .ok n => g.reachFrom f (n.getD g.callables.size)
  | .error fault => do
    g.openAll [f]
    if (g.targets f).any (· != f) then Query.fail fault else return g.reach f 0

def pathWithin (start target : Option CallableId) (limit : Value) :
    Query (Option (List (Option CallableId))) :=
  if start = target then return some [start]
  else do
    let n ← limitFor Double.floor? limit
    match start with
    | none => if n.all (1 ≤ ·) then Query.fail .absent else return none
    | some f =>
      let path ← g.findPath f (target.getD g.callables.size) (n.getD g.callables.size)
      return path.map (·.map some)

end Searches

def wayWithin (r : FlowReach) (x : FlowNode) (limit : Value) : Except Fault (List FlowNode) :=
  match limit with
  | .null => .ok (r.lastPathTo x none)
  | limit => if r.reaches x then do return r.lastPathTo x (← limitFor Double.ceil? limit) else .ok []

end ContractFlow.Report
