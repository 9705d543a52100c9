import ContractFlow.Call.Resolve
import ContractFlow.Graph.BreadthFirst

/-!
This module contains the call graph: which callables may run which.
-/

namespace ContractFlow

namespace Linkage

variable (l : Linkage)

def callSites (f : CallableId) : List NodeId :=
  match (l.callableD f).body with
  | none => []
  | some body =>
    let arguments := (l.callableD f).invocations.flatMap (·.arguments)
    (body :: arguments).flatMap fun n => (l.arena.walk n).filter fun m => l.arena.kind m == .functionCall

def outgoing (f : CallableId) : Query (List CallEdge) :=
  return (← (l.callSites f).mapM l.edges).flatten

end Linkage

structure CallGraph extends Linkage where
  leaving : Memo toLinkage.outgoing

structure CallReach where
  callables : List CallableId
  truncated : Bool
deriving Inhabited

namespace CallGraph

def ofLinkage (l : Linkage) : CallGraph where
  toLinkage := l
  leaving := .upTo _ l.callables.size

instance : Inhabited CallGraph := ⟨ofLinkage default⟩

variable (g : CallGraph)

def edgesFrom (f : CallableId) : Query (List CallEdge) :=
  g.leaving.get f

def targets (f : CallableId) : List CallableId :=
  ((g.edgesFrom f).getD []).filterMap (·.callee)

def openAll (fs : List CallableId) : Query Unit :=
  fs.forM fun f => do
    let _ ← g.edgesFrom f

def edgesTo (f : CallableId) : Query (List CallEdge) := do
  let edges ← g.callableIds.mapM g.edgesFrom
  return edges.flatten.filter fun e => e.callee == some f

def reach (f : CallableId) (limit : Int) : CallReach :=
  let found := Graph.reachable g.targets g.callables.size limit f
  let others := found.seen.filter (· != f)
  let isCalled := found.seen.any fun h => (g.targets h).contains f
  ⟨if isCalled then f :: others else others, found.truncated⟩

def reachFrom (f : CallableId) (limit : Int) : Query CallReach := do
  g.openAll (Graph.reachable g.targets g.callables.size limit f).seen
  return g.reach f limit

def path? (f target : CallableId) (limit : Int) : Option (List CallableId) :=
  (Graph.shortestPath g.targets g.callables.size limit f target).path

def findPath (f target : CallableId) (limit : Int) : Query (Option (List CallableId)) := do
  g.openAll (Graph.shortestPath g.targets g.callables.size limit f target).opened
  return g.path? f target limit

def recursive : List CallableId :=
  g.callableIds.filter fun f => (Graph.comesBack g.targets g.callables.size f).found

def findRecursive : Query (List CallableId) := do
  g.openAll (g.callableIds.flatMap fun f => (Graph.comesBack g.targets g.callables.size f).opened)
  return g.recursive

def entryPoints : List CallableId :=
  g.callableIds.filter fun f => (g.callableD f).isFunction && (g.callableD f).isExternallyCallable

def findUncalled : Query (List CallableId) :=
  g.callableIds.filterM fun f => do
    let c := g.callableD f
    if c.isFunction && !c.isExternallyCallable && !c.isConstructor then
      return (← g.edgesTo f).isEmpty
    else return false

end CallGraph

end ContractFlow
