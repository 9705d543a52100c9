import ContractFlow.Control.Graph

/-!
This module makes a control flow graph from the control structure of a body, and wraps bodies into the
bodies of modifiers.
-/

namespace ContractFlow

abbrev Pending := List (Nat × EdgeKind)

structure Exits where
  fall : Pending
  breaks : Pending := []
  continues : Pending := []
  returns : Pending := []
deriving Inhabited, DecidableEq

namespace Exits

def early (e : Exits) : Exits :=
  { e with fall := [] }

def andThen (first second : Exits) : Exits where
  fall := second.fall
  breaks := first.breaks ++ second.breaks
  continues := first.continues ++ second.continues
  returns := first.returns ++ second.returns

def or (first second : Exits) : Exits :=
  { first.andThen second with fall := first.fall ++ second.fall }

end Exits

namespace Pending

def relabel (kind : EdgeKind) (ps : Pending) : Pending :=
  ps.map fun p => (p.1, kind)

end Pending

namespace Draft

def connect (d : Draft) (ps : Pending) (target : Nat) : Draft :=
  ps.foldl (fun d p => d.addEdge ⟨p.1, target, p.2⟩) d

def extend (d : Draft) (p : Point) (ps : Pending) : Pending × Draft :=
  ([(d.size, .normal)], (d.addPoint p).connect ps d.size)

def merge (d : Draft) (owner : CallableId) (ps : Pending) : Pending × Draft :=
  match ps with
  | [] => ([], d)
  | [(i, .normal)] => ([(i, .normal)], d)
  | ps => d.extend ⟨.join, owner⟩ ps

end Draft

namespace Control

abbrev Hole := Pending → Draft → Pending × Draft

def outcomes (condition : Control) (ps : Pending) : Pending × Pending :=
  match condition with
  | skip => (ps, [])
  | _ => (Pending.relabel .whenTrue ps, Pending.relabel .whenFalse ps)

def build (owner : CallableId) (inner : Hole) (c : Control) (ps : Pending) (d : Draft) :
    Exits × Draft :=
  match c with
  | skip => (⟨ps, [], [], []⟩, d)
  | stuck => (⟨[], [], [], []⟩, d)
  | visit n =>
    let (ps, d) := d.extend ⟨.visit n, owner⟩ ps
    (⟨ps, [], [], []⟩, d)
  | seq first second =>
    let (x, d) := build owner inner first ps d
    let (y, d) := build owner inner second x.fall d
    (x.andThen y, d)
  | either first second =>
    let (x, d) := build owner inner first ps d
    let (y, d) := build owner inner second ps d
    (x.or y, d)
  | label kind part => build owner inner part (Pending.relabel kind ps) d
  | join part =>
    let (x, d) := build owner inner part ps d
    let (ps, d) := d.merge owner x.fall
    ({ x with fall := ps }, d)
  | branch condition yes no =>
    let (c, d) := build owner inner condition ps d
    let (whenTrue, whenFalse) := outcomes condition c.fall
    let (x, d) := build owner inner yes whenTrue d
    let (y, d) := build owner inner no whenFalse d
    (c.early.andThen (x.or y), d)
  | loop condition body next =>
    let header := d.size
    let (start, d) := d.extend ⟨.join, owner⟩ ps
    let (c, d) := build owner inner condition start d
    let (whenTrue, whenFalse) := outcomes condition c.fall
    let (x, d) := build owner inner body whenTrue d
    let latch := x.fall ++ x.continues
    let (y, d) := if latch.isEmpty then (⟨[], [], [], []⟩, d) else build owner inner next latch d
    let d := d.connect (Pending.relabel .back y.fall) header
    ({ y with fall := whenFalse ++ x.breaks, returns := x.returns ++ y.returns }, d)
  | doLoop body condition =>
    let header := d.size
    let (start, d) := d.extend ⟨.join, owner⟩ ps
    let (x, d) := build owner inner body start d
    let latch := x.fall ++ x.continues
    let (c, d) := if latch.isEmpty then (⟨[], [], [], []⟩, d) else build owner inner condition latch d
    let (whenTrue, whenFalse) := outcomes condition c.fall
    let d := d.connect (Pending.relabel .back whenTrue) header
    (⟨whenFalse ++ x.breaks, [], [], x.returns⟩, d)
  | leave .breaks => (⟨[], ps, [], []⟩, d)
  | leave .continues => (⟨[], [], ps, []⟩, d)
  | leave .returns => (⟨[], [], [], ps⟩, d)
  | stop => (⟨[], [], [], []⟩, d.connect ps Draft.exit)
  | hole =>
    let (ps, d) := inner ps d
    (⟨ps, [], [], []⟩, d)

end Control

structure Layer where
  owner : CallableId
  body : Control
deriving Inhabited

namespace Layer

def run (l : Layer) (inner : Control.Hole) : Control.Hole := fun ps d =>
  let (x, d) := l.body.build l.owner inner ps d
  (x.fall ++ x.returns, d)

def runAll (layers : List Layer) : Control.Hole :=
  layers.foldr run fun ps d => (ps, d)

end Layer

def ControlGraph.ofLayers (callable : CallableId) (modifiers : List Layer) (body : Control) :
    ControlGraph :=
  let layers := modifiers ++ [⟨callable, body⟩]
  let (ps, d) := Layer.runAll layers [(Draft.entry, .normal)] (.start callable)
  .ofDraft (d.connect ps Draft.exit) callable (!modifiers.isEmpty)

end ContractFlow
