import ContractFlow.Proofs.Flow.Step
import ContractFlow.Proofs.Flow.Target
import ContractFlow.Session

/-! This module shows where the taint of a value goes that is pushed to a container. -/

namespace ContractFlow

namespace Arena

variable {a : Arena} {root n call base : NodeId}

theorem IsPath.kind_ne (h : a.IsPath root n) : a.kind n ≠ .elementaryTypeNameExpression := by
  cases h with
  | name hkind | member hkind | parentheses hkind => simp [hkind]
  | index hkind => rcases hkind with hkind | hkind <;> simp [hkind]

def receiverName (a : Arena) (base : NodeId) : String :=
  if a.kind base = .identifier then (a.text base).display else ""

theorem calledName_eq (hbase : a.receiver? call = some base) (hpath : a.IsPath root base) :
    a.calledName call = .text (a.receiverName base ++ "." ++ (a.memberName call).display) := by
  obtain ⟨access, haccess, hbase⟩ := Option.bind_eq_some_iff.1 hbase
  obtain ⟨hcallee, hkind⟩ := Option.filter_eq_some_iff.1 haccess
  have hkind : a.kind access = .memberAccess := by simpa using hkind
  have hmember : a.memberName call = a.text access := by simp [memberName, haccess]
  unfold calledName receiverName
  simp only [hcallee, hkind, hbase, hmember]
  by_cases hname : a.kind base = .identifier
  · simp [hname, Option.filter]
  · simp [hname, hpath.kind_ne, Option.filter]
    rfl

end Arena

namespace Value

theorem isOneOf_push_eq_false {words : List String} (hwords : ∀ w ∈ words, w.toList.getLast? ≠ some 'h')
    (receiver : String) : (Value.text (receiver ++ "." ++ "push")).isOneOf words = false := by
  refine Bool.eq_false_iff.2 fun hmem => ?_
  refine hwords _ (List.contains_iff_mem.1 hmem) ?_
  simp

theorem push_beq_eq_false {word receiver : String} (h : receiver ++ "." ++ "push" ≠ word) :
    (Value.text (receiver ++ "." ++ "push") == .text word) = false :=
  Bool.eq_false_iff.2 fun heq => h (Value.text.inj (eq_text_of_beq heq))

end Value

namespace FlowModel

variable {m : FlowModel} {call base root decl : NodeId}

theorem pushTargets_eq (hpath : m.arena.IsPath root base) (hroot : m.findVariable root = .ok (some decl))
    (hstate : m.isState decl = true) : m.pushTargets base call = .ok [.stateWrite call decl] := by
  have hwrite : m.writeNodes call base = .ok [.stateWrite call decl] := by
    unfold writeNodes
    rw [hpath.rootExpression?]
    simp [hroot, hstate, bind, Except.bind, pure, Except.pure]
  have hlocal : ∃ found, m.findVariable base = .ok found ∧ found.any m.isLocal = false := by
    by_cases hkind : m.arena.kind base = .identifier
    · obtain rfl := hpath.eq_root hkind
      refine ⟨some decl, hroot, ?_⟩
      have hscope : m.scope? decl = some .state := eq_of_beq hstate
      simp [Program.isLocal, hscope]
    · exact ⟨none, by simp [Program.findVariable, hkind], rfl⟩
  obtain ⟨found, hfound, hlocal⟩ := hlocal
  unfold pushTargets
  simp [hwrite, hfound, hlocal, bind, Except.bind, pure, Except.pure]

theorem outcome_builtinTaint_push (hname : m.arena.memberName call = .text "push")
    (hbase : m.arena.receiver? call = some base) (hpath : m.arena.IsPath root base)
    (hroot : m.findVariable root = .ok (some decl)) (hstate : m.isState decl = true) :
    (m.builtinTaint call 0).outcome =
      .ok (if m.arena.receiverName base = "" then [.stateWrite call decl] else []) := by
  have hcalled : m.arena.calledName call = .text (m.arena.receiverName base ++ "." ++ "push") := by
    rw [Arena.calledName_eq hbase hpath, hname]
    rfl
  unfold builtinTaint
  simp only [hcalled, hbase]
  by_cases hempty : m.arena.receiverName base = ""
  · rw [hempty]
    exact pushTargets_eq hpath hroot hstate
  · have hmixing : (Value.text (m.arena.receiverName base ++ "." ++ "push")).isOneOf mixingFunctions = false :=
      Value.isOneOf_push_eq_false (by decide) _
    have hdecode : (m.arena.receiverName base ++ "." ++ "push") ≠ "abi.decode" := fun heq => by
      have := congrArg (fun w => w.toList.getLast?) heq
      simp at this
    have hpush : (m.arena.receiverName base ++ "." ++ "push") ≠ ".push" := fun heq => by
      have := congrArg (fun w => w.toList.length) heq
      simp [hempty] at this
    rw [hmixing, Value.push_beq_eq_false hdecode, Value.push_beq_eq_false hpush, if_neg hempty]
    rfl

end FlowModel

/--
A value that is pushed to a container taints the state variable at the root of the path to the container, and nothing
else. A container that is called by the name of the variable alone is not seen to be pushed to, and the taint goes
nowhere.
-/
theorem FlowGraph.push_taints_container (g : FlowGraph) {call base root decl : NodeId}
    (hkind : g.arena.kind call = .functionCall) (hbuiltin : (g.callKind call).outcome = .ok .builtin)
    (hname : g.arena.memberName call = .text "push") (hbase : g.arena.receiver? call = some base)
    (hpath : g.arena.IsPath root base) (hroot : g.findVariable root = .ok (some decl))
    (hstate : g.isState decl = true) :
    (g.taintSteps (.argument call 0)).outcome =
      .ok (if g.arena.kind base = .identifier ∧ (g.arena.text base).display ≠ "" then []
        else [.stateWrite call decl]) := by
  have hflows : (g.taintFlows (.argument call 0)).outcome =
      .ok (if g.arena.receiverName base = "" then [.stateWrite call decl] else []) := by
    show (g.argumentTaint call 0).outcome = _
    unfold FlowModel.argumentTaint
    rw [if_neg (by simp [hkind]), Query.outcome_bind_ok hbuiltin]
    exact FlowModel.outcome_builtinTaint_push hname hbase hpath hroot hstate
  have hshown : g.arena.receiverName base = "" ↔
      ¬ (g.arena.kind base = .identifier ∧ (g.arena.text base).display ≠ "") := by
    unfold Arena.receiverName
    split
    · next hidentifier => simp [hidentifier]
    · next hidentifier => simp [hidentifier]
  rw [outcome_taintSteps, Query.getD_eq_of_outcome hflows]
  simp only [hshown, ite_not]
  split <;> rfl

/-! A contract with a state variable `s` and a function with the body `s[0].push(1); s.push(2);`. -/

namespace Pushing

open Sample

def typed (type : String) : String × Value :=
  ("typeDescriptions", .object [("typeString", .text type)])

def nodes : Array Node := #[
  unit [1],
  contract "A" [] [2, 3],
  named .variableDeclaration 1 "nodes" "s",
  bodied .functionDefinition 1 4 "f",
  block 3 [5, 6],
  statement 4 7,
  statement 4 8,
  call 5 9 [10],
  call 6 11 [12],
  node .memberAccess (some 7) "expression" [("expression", .one 13)] [("memberName", .text "push")],
  literal 7 "arguments" "1",
  node .memberAccess (some 8) "expression" [("expression", .one 14)] [("memberName", .text "push")],
  literal 8 "arguments" "2",
  node .indexAccess (some 9) "expression" [("baseExpression", .one 15), ("indexExpression", .one 16)]
    [typed "uint256[]"],
  node .identifier (some 11) "expression" [] [("name", .text "s"), typed "uint256[][]"],
  identifier 13 "baseExpression" "s",
  literal 13 "indexExpression" "0"]

def arena : Arena :=
  arenaOf nodes (by decide +kernel)

def analysis : FlowGraph :=
  Session.analyse arena {} {}

theorem element_is_tainted_and_variable_is_not :
    (analysis.taintSteps (.argument 7 0)).outcome = .ok [.stateWrite 7 2] ∧
    (analysis.taintSteps (.argument 8 0)).outcome = .ok [] := by
  have hcalled : analysis.arena.calledMember? 7 = some 9 ∧ analysis.arena.calledMember? 8 = some 11 := by
    decide +kernel
  have helement : analysis.findVariable 15 = .ok (some 2) := by decide +kernel
  have hvariable : analysis.findVariable 14 = .ok (some 2) := by decide +kernel
  have hstate : analysis.isState 2 = true := by decide +kernel
  have hpath : analysis.arena.IsPath 15 13 := .index (.inl rfl) rfl (.name rfl)
  constructor
  · rw [analysis.push_taints_container rfl (by decide +kernel) (by rw [Arena.memberName, hcalled.1]; rfl)
      (by rw [Arena.receiver?, hcalled.1]; rfl) hpath helement hstate]
    decide +kernel
  · rw [analysis.push_taints_container rfl (by decide +kernel) (by rw [Arena.memberName, hcalled.2]; rfl)
      (by rw [Arena.receiver?, hcalled.2]; rfl) (.name rfl) hvariable hstate]
    decide +kernel

end Pushing

end ContractFlow
