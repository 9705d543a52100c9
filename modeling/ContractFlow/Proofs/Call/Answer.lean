import ContractFlow.Proofs.Lineage.Order
import ContractFlow.Proofs.Program.Model

/-!
This module shows that in a legible program every question about calls has an answer.
-/

namespace ContractFlow

open Outcome (Succeeds)

theorem TypeText.succeeds_isAccepted {argument parameter : Value} (ha : argument.isText = true)
    (hp : parameter.isText = true) : Succeeds (isAccepted argument parameter) := by
  unfold isAccepted
  split
  · exact .pure trivial
  · refine .bind (Value.succeeds_asText ha) fun _ _ => ?_
    exact .bind (Value.succeeds_asText hp) fun _ _ => .pure trivial

namespace Lineage

variable {l : Lineage} (h : l.IsLegible)

section Consult

include h

theorem answers_answer {α : Type} (cs : List ContractId) (x : α) : (l.answer cs x).Answers (· = x) :=
  ⟨x, outcome_answer (fun c _ => h.known c) x, rfl⟩

theorem answers_consult (cs : List ContractId) : (l.consult cs).Answers :=
  ⟨(), outcome_consult fun c _ => h.known c, trivial⟩

theorem succeeds_needKeys (fs : List CallableId) : Succeeds (l.needKeys fs) := by
  unfold needKeys
  rw [if_pos (List.all_eq_true.2 fun f _ => h.keyed f)]
  exact .pure trivial

theorem answers_isAbstractContract (c : ContractId) : (l.isAbstractContract c).Answers := by
  unfold isAbstractContract
  simp only
  split
  · exact .pure trivial
  · refine .bind (answers_consult h [c]) fun _ _ => ?_
    exact .bind (.liftM (succeeds_needKeys h _)) fun _ _ => .pure trivial

theorem answers_candidatesFor (c : ContractId) (w : Wanted) (after : Option ContractId) :
    (l.candidatesFor c w after).Answers (· = l.candidates c w after) := by
  refine .bind (answers_consult h [c]) fun _ _ => ?_
  exact .bind (.liftM (succeeds_needKeys h _)) fun _ _ => answers_answer h _ _

theorem answers_conflictsOf (c : ContractId) : (l.conflictsOf c).Answers (· = l.conflicts c) := by
  refine .bind (.liftM (succeeds_needKeys h _)) fun _ _ => ?_
  refine .bind (answers_consult h _) fun _ _ => ?_
  exact .bind (.liftM (succeeds_needKeys h _)) fun _ _ => answers_answer h _ _

end Consult

theorem succeeds_isAbout {base : String} {directive : UsingFor} (hd : directive.typeName.isText = true) :
    Succeeds (isAbout base directive) := by
  unfold isAbout
  split
  · exact .pure trivial
  · exact .bind (Value.succeeds_asText hd) fun _ _ => .pure trivial

section Kind

include h

theorem succeeds_takesReceiver (base : String) (arity : Nat) (f : CallableId) :
    Succeeds (l.takesReceiver base arity f) := by
  unfold takesReceiver
  simp only
  split
  · exact .pure trivial
  · split
    · exact .pure trivial
    · next p _ hps => exact TypeText.succeeds_isAccepted rfl (h.types f p (hps ▸ List.mem_cons_self))

theorem succeeds_boundBy (base : String) (member : Value) (arity : Nat) {c : ContractId} {directive : UsingFor}
    (hd : directive ∈ (l.contractD c).usings) : Succeeds (l.boundBy base member arity directive) := by
  obtain ⟨hlibrary, htype⟩ := h.usings c directive hd
  refine .bind (Outline.succeeds_contractNamed hlibrary) fun found _ => ?_
  split
  · exact .pure trivial
  · refine .bind (succeeds_isAbout htype) fun b _ => ?_
    split
    · exact .filterM fun f _ => succeeds_takesReceiver h base arity f
    · exact .pure trivial

theorem succeeds_receiverType (site : NodeId) : Succeeds (l.receiverType site) := by
  unfold receiverType
  split
  · exact .pure trivial
  · refine .bind (Program.succeeds_typeOf h.arena _) fun type htype => ?_
    exact .bind (Value.succeeds_asText htype) fun _ _ => .pure trivial

theorem answers_boundFunctions (site : NodeId) (member : Value) : (l.boundFunctions site member).Answers := by
  refine .bind (.liftM (Program.succeeds_home h.arena site)) fun home _ => ?_
  split
  · exact .pure trivial
  · refine .bind (.liftM (succeeds_receiverType h site)) fun base _ => ?_
    refine .bind (answers_answer h _ _) fun order _ => ?_
    refine .bind (P := fun _ => True) ?_ fun bound _ => .pure trivial
    refine Succeeds.trivial (Succeeds.mapM (Q := fun _ => True) fun directive hd => ?_)
    obtain ⟨c, -, hd⟩ := List.mem_flatMap.1 hd
    exact succeeds_boundBy h base member _ hd

theorem answers_classifyName (site callee : NodeId) : (l.classifyName site callee).Answers := by
  refine .bind (.liftM (Program.succeeds_lookUp h.arena callee)) fun decl _ => ?_
  split
  · exact .pure trivial
  · refine .bind (.liftM (Value.succeeds_isAmong (Arena.isText_text h.arena callee) _)) fun b _ => ?_
    split
    · exact .pure trivial
    · refine .bind (.liftM (Program.succeeds_home h.arena site)) fun home _ => ?_
      split
      · exact .pure trivial
      · exact .bind (answers_answer h _ _) fun _ _ => .pure trivial

theorem succeeds_isOnAddress (site : NodeId) (base : Option NodeId) (member : Value) :
    Succeeds (l.isOnAddress site base member) := by
  refine .bind (Program.succeeds_typeOf? h.arena base) fun type htype => ?_
  exact .bind (Value.succeeds_asText htype) fun _ _ => .pure trivial

theorem answers_isArrayMember (site : NodeId) (base : Option NodeId) (member : Value) :
    (l.isArrayMember site base member).Answers := by
  unfold isArrayMember
  split
  · refine .bind (P := fun _ => True) ?_ fun type _ => ?_
    · refine Succeeds.bind (Program.succeeds_typeOf? h.arena base) fun type htype => ?_
      exact Value.succeeds_asText htype
    · split
      · exact .bind (answers_boundFunctions h site member) fun _ _ => .pure trivial
      · exact .pure trivial
  · exact .pure trivial

theorem answers_classifyMember (site callee : NodeId) : (l.classifyMember site callee).Answers := by
  refine .bind (.liftM (Program.succeeds_lookUp h.arena callee)) fun decl _ => ?_
  split
  · exact .pure trivial
  · split
    · exact .pure trivial
    · refine .bind (.liftM (Value.succeeds_isAmong (Arena.isText_text h.arena callee) _)) fun low _ => ?_
      have hlast : (do
          if ← l.isArrayMember site (l.arena.child? callee "expression") (l.arena.text callee) then
            return CallKind.builtin
          if (l.arena.text callee).isOneOf ["value", "gas"] then return .builtin
          return .function : Query CallKind).Answers := by
        refine .bind (answers_isArrayMember h site _ _) fun b _ => ?_
        split
        · exact .pure trivial
        · split
          · exact .pure trivial
          · exact .pure trivial
      split
      · exact .pure trivial
      · dsimp only
        split
        · refine .bind (.liftM (succeeds_isOnAddress h site _ _)) fun b _ => ?_
          split
          · exact .pure trivial
          · exact hlast
        · exact hlast

theorem answers_classify (site : NodeId) : (l.classify site).Answers := by
  unfold classify
  simp only
  split
  · exact .pure trivial
  · split
    · exact .pure trivial
    · split
      · exact .pure trivial
      · split
        · exact .pure trivial
        · split
          · exact .pure trivial
          · split
            · split
              · exact .pure trivial
              · exact .pure trivial
            · exact .pure trivial
            · exact answers_classifyName h site _
            · exact answers_classifyMember h site _
            · exact .pure trivial

end Kind

section Resolve

variable (l) in
def edgesByName (site : NodeId) (name : Value) (home context : Option ContractId) :
    Query (List CallEdge) := do
  let arity := (l.arena.callArguments site).length
  let owner := if home.any fun c => (l.contractD c).isLibrary then home else context <|> home
  let targets ← match owner with
    | none => pure []
    | some c => l.callTargets c name arity none
  if !targets.isEmpty then l.edgesTo site context targets (l.plainBinding home) 0
  else
    let free := l.free.filter fun f => (l.callableD f).name == name && (l.callableD f).arity == arity
    l.edgesTo site context free (fun _ => .internal) 0

theorem resolveName_eq (site callee : NodeId) (home context : Option ContractId) :
    l.resolveName site callee home context = (do
      match ← l.lookUp callee with
      | none => l.edgesByName site (l.arena.text callee) home context
      | some d =>
        match l.arena.kind d with
        | .variableDeclaration => return [l.unresolvedEdge site context]
        | .functionDefinition =>
          match (l.callableAt? d).filter fun f => (l.callableD f).kind == .freeFunction with
          | some f => l.edgesTo site context [f] (fun _ => .internal) 0
          | none => l.edgesByName site (l.arena.text callee) home context
        | _ => l.edgesByName site (l.arena.text callee) home context) :=
  rfl

def targetsFor (l : Lineage) (c : ContractId) (name : Value) (arity : Nat) (after : Option ContractId) :
    List CallableId :=
  (l.candidates c ⟨name, some arity, none⟩ after).filter fun f => (l.callableD f).kind.isCallTarget

include h

theorem answers_callTargets (c : ContractId) (name : Value) (arity : Nat) (after : Option ContractId) :
    (l.callTargets c name arity after).Answers (· = l.targetsFor c name arity after) :=
  .bind (answers_candidatesFor h c _ after) fun _ hfound => .pure (hfound ▸ rfl)

omit h in
theorem succeeds_areAccepted {pairs : List (Value × Value)}
    (hpairs : ∀ p ∈ pairs, p.1.isText = true ∧ p.2.isText = true) : Succeeds (areAccepted pairs) := by
  induction pairs with
  | nil => exact .pure trivial
  | cons p rest ih =>
    obtain ⟨hp, hrest⟩ := List.forall_mem_cons.1 hpairs
    refine .bind (TypeText.succeeds_isAccepted hp.1 hp.2) fun b _ => ?_
    split
    · exact ih hrest
    · exact .pure trivial

theorem succeeds_accepts {types : List Value} (htypes : ∀ t ∈ types, t.isText = true) (offset : Nat)
    (f : CallableId) : Succeeds (l.accepts types offset f) := by
  refine succeeds_areAccepted fun p hp => ?_
  obtain ⟨htype, hparam⟩ := List.of_mem_zip hp
  refine ⟨htypes _ htype, ?_⟩
  obtain ⟨q, hq, heq⟩ := List.mem_map.1 hparam
  rw [← heq]
  exact h.types f q (List.mem_of_mem_drop hq)

theorem succeeds_fitting (targets : List CallableId) (site : NodeId) (offset : Nat) :
    Succeeds (l.fitting targets site offset) := by
  unfold fitting
  split
  · exact .pure trivial
  · refine .bind (.mapM fun n _ => Program.succeeds_typeOf h.arena n) fun types htypes => ?_
    exact .bind (.filterM fun f _ => succeeds_accepts h htypes offset f) fun _ _ => .pure trivial

theorem succeeds_namedContract (n : NodeId) : Succeeds (l.namedContract n) := by
  unfold namedContract
  split
  on_goal 3 => exact .pure trivial
  -- identifiers and paths are looked up alike
  all_goals
    refine .bind (Program.succeeds_lookUp h.arena n) fun decl _ => ?_
    split
    · split
      · exact Program.succeeds_home h.arena _
      · exact .pure trivial
    · exact Outline.succeeds_contractNamed (Arena.isText_text h.arena n)

theorem succeeds_isStaticReceiver (n : NodeId) : Succeeds (l.isStaticReceiver n) := by
  unfold isStaticReceiver
  split
  · exact .pure trivial
  · exact .bind (succeeds_namedContract h n) fun _ _ => .pure trivial

theorem succeeds_isFromParameter (n : NodeId) : Succeeds (l.isFromParameter n) :=
  .bind (Program.succeeds_findRoot h.arena n) fun _ _ => .pure trivial

theorem answers_implementers (c : ContractId) : (l.implementers c).Answers := by
  refine .bind (answers_answer h _ _) fun derived _ => .filterM fun d _ => ?_
  simp only
  split
  · exact .pure trivial
  · exact .bind (answers_isAbstractContract h d) fun _ _ => .pure trivial

theorem succeeds_contractOfType (n : NodeId) : Succeeds (l.contractOfType n) := by
  refine .bind (Program.succeeds_typeOf h.arena n) fun type htype => ?_
  exact .bind (Value.succeeds_asText htype) fun _ _ => .pure trivial

theorem answers_contexts (virtualDispatch : Bool) (site : NodeId) : (l.contexts virtualDispatch site).Answers := by
  refine .bind (.liftM (Program.succeeds_home h.arena site)) fun home _ => ?_
  split
  · exact .pure trivial
  · split
    · exact .pure trivial
    · exact .bind (answers_answer h _ _) fun _ _ => .pure trivial

end Resolve

end Lineage

end ContractFlow
