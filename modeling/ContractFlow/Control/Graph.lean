import ContractFlow.Control.Structure
import ContractFlow.Data.Group
import ContractFlow.Graph.BreadthFirst
import ContractFlow.Memo
import ContractFlow.Program.Declaration

/-!
This module contains control flow graphs: the points of a run and the steps between them.
-/

namespace ContractFlow

inductive PointKind where
  | entry
  | exit
  | join
  | visit (n : NodeId)
deriving DecidableEq, Inhabited

namespace PointKind

def name : PointKind → String
  | entry => "entry"
  | exit => "exit"
  | join => "join"
  | visit _ => "syntax"

def node? : PointKind → Option NodeId
  | visit n => some n
  | _ => none

end PointKind

structure Point where
  kind : PointKind
  owner : CallableId
deriving DecidableEq, Inhabited

structure Edge where
  source : Nat
  target : Nat
  kind : EdgeKind
deriving DecidableEq, Inhabited

structure Draft where
  points : Array Point
  edges : Array Edge
deriving Inhabited

namespace Draft

def entry : Nat := 0

def exit : Nat := 1

def start (owner : CallableId) : Draft :=
  ⟨#[⟨.entry, owner⟩, ⟨.exit, owner⟩], #[]⟩

def size (d : Draft) : Nat :=
  d.points.size

def addPoint (d : Draft) (p : Point) : Draft :=
  { d with points := d.points.push p }

def addEdge (d : Draft) (e : Edge) : Draft :=
  if d.edges.any fun f => f.source == e.source && f.target == e.target then d
  else { d with edges := d.edges.push e }

def edgesFrom (d : Draft) (i : Nat) : List Edge :=
  d.edges.toList.filter (·.source == i)

def edgesTo (d : Draft) (i : Nat) : List Edge :=
  d.edges.toList.filter (·.target == i)

def successors (d : Draft) (i : Nat) : List Nat :=
  (d.edgesFrom i).map (·.target)

def predecessors (d : Draft) (i : Nat) : List Nat :=
  (d.edgesTo i).map (·.source)

end Draft

structure ControlGraph extends Draft where
  callable : CallableId
  isSpliced : Bool
  nexts : Memo toDraft.successors
  priors : Memo toDraft.predecessors
  closures : Memo (Graph.closure nexts.get toDraft.points.size)

namespace ControlGraph

def ofDraft (d : Draft) (callable : CallableId) (isSpliced : Bool) : ControlGraph where
  toDraft := d
  callable := callable
  isSpliced := isSpliced
  nexts := .upTo _ d.size
  priors := .upTo _ d.size
  closures := .upTo _ d.size

instance : Inhabited ControlGraph := ⟨ofDraft default default default⟩

variable (g : ControlGraph)

def indices : List Nat :=
  List.range g.size

def point (i : Nat) : Point :=
  g.points.getD i default

def node? (i : Nat) : Option NodeId :=
  (g.point i).kind.node?

def next (i : Nat) : List Nat :=
  g.nexts.get i

def prior (i : Nat) : List Nat :=
  g.priors.get i

def pointsAt (n : NodeId) : List Nat :=
  g.indices.filter fun i => g.node? i == some n

def pointAt? (n : NodeId) : Option Nat :=
  g.indices.find? fun i => g.node? i == some n

def forward (i : Nat) : List Nat :=
  g.closures.get i

def reaches (i j : Nat) : Bool :=
  (g.forward i).contains j

def strictlyReaches (i j : Nat) : Bool :=
  (g.next i).any fun k => g.reaches k j

def isLive (i : Nat) : Bool :=
  g.reaches Draft.entry i

def live : List Nat :=
  g.indices.filter g.isLive

def dead : List Nat :=
  g.indices.filter fun i => !g.isLive i

def visited : List NodeId :=
  distinct (g.indices.filterMap g.node?)

def isStatement (a : Arena) (n : NodeId) : Bool :=
  (a.kind n).isStatement ||
    ((a.parent? n).any fun p => (a.kind p).isBlock && !(a.kind n).isBlock)

def statements (a : Arena) : List (NodeId × Bool) :=
  (g.visited.filter (isStatement a)).map fun n => (n, (g.pointsAt n).any g.isLive)

def describePoint (a : Arena) (i : Nat) : String :=
  let kind := match g.node? i with
    | none => (g.point i).kind.name
    | some n => (a.label n).display
  "<CfgNode#" ++ toString i ++ " " ++ kind ++ ">"

end ControlGraph

end ContractFlow
