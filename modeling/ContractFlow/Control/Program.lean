import ContractFlow.Control.Build
import ContractFlow.Modifier.Resolve

/-!
This module contains the control flow graphs of the callables of a program.
-/

namespace ContractFlow

namespace Lineage

variable (l : Lineage)

def control (f : CallableId) : Control :=
  l.arena.bodyControl (l.callableD f).body

def wrappers (f : CallableId) : Query (List Layer) := do
  let modifiers ← l.modifiersOf f
  let implemented := modifiers.filter fun (_, m) => (l.callableD m).isImplemented
  return implemented.map fun (_, m) => ⟨m, l.control m⟩

/--
The control flow graph of a callable, with the bodies of its modifiers if `spliced` asks for them; a
callable that `plan` names has none.
-/
def makeGraph (plan : FailurePlan) (spliced : Bool) (f : CallableId) : Query ControlGraph := do
  if plan.control.contains (l.qualifiedName f) then Query.fail .planned
  let wrappers ← if spliced then l.wrappers f else pure []
  return .ofLayers f wrappers (l.control f)

def graph? (plan : FailurePlan) (spliced : Bool) (f : CallableId) : Query (Option ControlGraph) :=
  (l.makeGraph plan spliced f).orReport (.control f spliced)

end Lineage

structure ControlFlow extends CallGraph where
  plan : FailurePlan
  plain : Memo (toLineage.graph? plan false)
  spliced : Memo (toLineage.graph? plan true)

namespace ControlFlow

def ofCallGraph (g : CallGraph) (plan : FailurePlan) : ControlFlow where
  toCallGraph := g
  plan := plan
  plain := .upTo _ g.callables.size
  spliced := .upTo _ g.callables.size

instance : Inhabited ControlFlow := ⟨ofCallGraph default default⟩

def controlGraph? (c : ControlFlow) (spliced : Bool) (f : CallableId) : Query (Option ControlGraph) :=
  if spliced then c.spliced.get f else c.plain.get f

end ControlFlow

end ContractFlow
