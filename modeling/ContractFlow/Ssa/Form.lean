import ContractFlow.Control.Graph
import ContractFlow.Ssa.Access

/-! This module contains the static single assignment form of a callable. -/

namespace ContractFlow

structure Definition where
  kind : DefinitionKind
  variableNode : NodeId
  point : Nat
  site : Option NodeId
deriving DecidableEq, Inhabited

def Definition.isPhi (d : Definition) : Bool :=
  d.kind == .phi

structure SsaForm where
  graph : ControlGraph
  definitions : Array Definition
  uses : List (NodeId × Nat)
  inputs : List (Nat × List Nat)
  atExit : List (NodeId × Nat)
  undefined : List NodeId
deriving Inhabited

namespace SsaForm

variable (s : SsaForm)

def indices : List Nat :=
  List.range s.definitions.size

def definition (d : Nat) : Definition :=
  s.definitions.getD d default

def definitionOf? (use : NodeId) : Option Nat :=
  s.uses.lookup use

def usesOf (d : Nat) : List NodeId :=
  (s.uses.filter (·.2 == d)).map (·.1)

def phis : List Nat :=
  s.indices.filter fun d => (s.definition d).isPhi

def phiInputs (d : Nat) : List Nat :=
  (s.inputs.lookup d).getD []

def definitionsAt (site : NodeId) : List Nat :=
  s.indices.filter fun d =>
    (s.definition d).site == some site && (s.definition d).kind != .parameter

def definitionAt? (site variableNode : NodeId) : Option Nat :=
  (s.definitionsAt site).find? fun d => (s.definition d).variableNode == variableNode

def entryDefinition? (variableNode : NodeId) : Option Nat :=
  s.indices.find? fun d =>
    (s.graph.point (s.definition d).point).kind == .entry
      && (s.definition d).variableNode == variableNode

def exitDefinition? (variableNode : NodeId) : Option Nat :=
  s.atExit.lookup variableNode

def definitionsOf (variableNode : NodeId) : List Nat :=
  s.indices.filter fun d => (s.definition d).variableNode == variableNode

end SsaForm

end ContractFlow
