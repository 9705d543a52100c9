import ContractFlow.Program.Scope

/-!
This module contains the references by which reports name the parts of a program.
-/

namespace ContractFlow.Report

variable (p : Program)

def nodeRef (n : NodeId) : Value :=
  .text (toString (p.arena.node n).unit ++ "/" ++ toString (p.arena.localIndex n))

def nodeRef? (n : Option NodeId) : Value :=
  .option (nodeRef p) n

def nodeRefs (ns : List NodeId) : Value :=
  .array (nodeRef p) ns

def callableRef (f : CallableId) : Value :=
  .text ((p.qualifiedName f).display ++ "#" ++ toString f)

def callableRef? (f : Option CallableId) : Value :=
  .option (callableRef p) f

def callableRefs (fs : List CallableId) : Value :=
  .array (callableRef p) fs

def contractRef (c : ContractId) : Value :=
  .text ((p.contractName c).display ++ "#" ++ toString c)

def contractRef? (c : Option ContractId) : Value :=
  .option (contractRef p) c

def contractRefs (cs : List ContractId) : Value :=
  .array (contractRef p) cs

end ContractFlow.Report
