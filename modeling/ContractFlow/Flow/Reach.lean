import ContractFlow.Flow.Policy

/-! This module contains the bounded search for flows from a source. -/

namespace ContractFlow

structure Mark where
  depth : Nat
  /-- The callables that are being run there, the last one last. -/
  chain : List CallableId
deriving DecidableEq, Inhabited

structure Search where
  /-- The nodes reached, in the order of discovery, with the node each was first reached from. -/
  reached : List (FlowNode × Option FlowNode)
  marks : List (FlowNode × Mark)
  queue : List (FlowNode × Nat)
  truncated : Bool
  notes : Query Unit
deriving Inhabited

namespace Search

def nextChain (chain : List CallableId) (owner : Option CallableId) (change : Int) :
    List CallableId :=
  if 0 < change then chain ++ owner.toList
  else
    let chain := if change < 0 then chain.dropLast else chain
    match owner with
    | none => chain
    | some f => if chain.getLast? == some f then chain else [f]

structure Rules where
  steps : FlowNode → Query (List (FlowNode × Int))
  isBarrier : FlowNode → Query Bool
  owner : FlowNode → Option CallableId
  isBeyond : Int → Except Fault Bool

variable (r : Rules)

def start (source : FlowNode) (owner : Option CallableId) : Search where
  reached := [(source, none)]
  marks := [(source, ⟨0, owner.toList⟩)]
  queue := [(source, 0)]
  truncated := false
  notes := pure ()

def note (s : Search) (q : Query α) : Search :=
  { s with notes := do s.notes; let _ ← q }

def enter (s : Search) (x y : FlowNode) (mark : Mark) : Search :=
  { s with
    marks := (y, mark) :: s.marks
    reached := if s.reached.any (·.1 == y) then s.reached else s.reached ++ [(y, some x)]
    queue := s.queue ++ [(y, mark.depth)] }

def take (x : FlowNode) (depth : Nat) (chain : List CallableId) (s : Search) (step : FlowNode × Int) :
    Search :=
  let (y, change) := step
  let next := ((depth : Int) + change).toNat
  let beyond : Query Bool := r.isBeyond next
  let s := s.note beyond
  if beyond.getD false then { s with truncated := true }
  else
    let isAgain := 0 < change && (r.owner y).any chain.contains
    let s := if isAgain then { s with truncated := true } else s
    if (s.marks.lookup y).any fun mark => mark.depth ≤ next then s
    else
      let barrier := r.isBarrier y
      let s := s.note barrier
      if barrier.getD false then s
      else s.enter x y ⟨next, nextChain chain (r.owner y) change⟩

def expand (x : FlowNode) (depth : Nat) (s : Search) : Search :=
  let steps := r.steps x
  let chain := ((s.marks.lookup x).map (·.chain)).getD []
  (steps.getD []).foldl (take r x depth chain) (s.note steps)

def next (s : Search) : Search :=
  match s.queue with
  | [] => s
  | (x, depth) :: rest => expand r x depth { s with queue := rest }

def run (s : Search) : Search :=
  repeatM (m := Id) (fun s => pure (if s.queue.isEmpty then .inr s else .inl (s.next r))) s

theorem run_eq (s : Search) : s.run r = if s.queue.isEmpty then s else (s.next r).run r := by
  unfold run
  rw [repeatM_eq_of_monadTail]
  unfold repeatM.body
  rw [pure_bind]
  cases s.queue.isEmpty <;> rfl

end Search

structure FlowReach where
  source : FlowNode
  reached : List (FlowNode × Option FlowNode)
  truncated : Bool
deriving Inhabited

namespace FlowReach

variable (r : FlowReach)

def nodes : List FlowNode :=
  r.reached.map (·.1)

def reaches (x : FlowNode) : Bool :=
  r.nodes.contains x

def trace (reached : List (FlowNode × Option FlowNode)) (x : FlowNode) : List FlowNode :=
  match reached with
  | [] => []
  | (y, from?) :: rest =>
    if y = x then
      match from? with
      | none => [x]
      | some z => trace rest z ++ [x]
    else trace rest x

def pathTo (x : FlowNode) : List FlowNode :=
  trace r.reached.reverse x

def lastPathTo (x : FlowNode) (limit : Option Int) : List FlowNode :=
  let path := r.pathTo x
  match limit with
  | none => path
  | some n => path.drop (path.length - max 1 n.toNat)

end FlowReach

namespace FlowGraph

variable (g : FlowGraph)

def rules (p : Policy) (mode : FlowMode) : Search.Rules where
  steps := g.steps p mode
  isBarrier x := p.isBarrier (g.reachedOwner? x) x
  owner := g.reachedOwner?
  isBeyond := p.isBeyond

def reach (p : Policy) (mode : FlowMode) (source : FlowNode) : Query FlowReach := do
  p.checkKey
  let s := (Search.start source (g.flowOwner? source)).run (g.rules p mode)
  s.notes
  if s.truncated then
    let _ ← g.describeFlow source
  return ⟨source, s.reached, s.truncated⟩

end FlowGraph

end ContractFlow
