import ContractFlow.Control.Program
import ContractFlow.Ssa.Build

/-!
This module contains the static single assignment forms of the callables of a program.
-/

namespace ContractFlow

namespace ControlFlow

variable (c : ControlFlow)

def lookUpNames (g : ControlGraph) : Except Fault Unit :=
  (g.live.filterMap g.node?).forM fun n => do
    let _ ← c.findVariable n

def makeForm (g : ControlGraph) (f : CallableId) : Query SsaForm := do
  if c.plan.ssa.contains (c.qualifiedName f) then Query.fail .planned
  c.lookUpNames g
  return .ofGraph c.toProgram g

def formOf? (f : CallableId) : Query (Option SsaForm) := do
  match ← c.controlGraph? false f with
  | none => return none
  | some g => (c.makeForm g f).orReport (.ssa f)

end ControlFlow

structure ValueFlow extends ControlFlow where
  forms : Memo toControlFlow.formOf?

namespace ValueFlow

def ofControlFlow (c : ControlFlow) : ValueFlow where
  toControlFlow := c
  forms := .upTo _ c.callables.size

instance : Inhabited ValueFlow := ⟨ofControlFlow default⟩

def form? (v : ValueFlow) (f : CallableId) : Query (Option SsaForm) :=
  v.forms.get f

end ValueFlow

end ContractFlow
