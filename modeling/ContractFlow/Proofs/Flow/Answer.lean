import ContractFlow.Policy.StaleWrite
import ContractFlow.Proofs.Call.Edge

/-!
This module shows that in a legible program every question about modifiers and flow nodes has an answer.
-/

namespace ContractFlow

open Outcome (Succeeds)

theorem Value.succeeds_join {separator : String} {words : List Value}
    (h : ∀ w ∈ words, w.isText = true) : Succeeds (join separator words) := by
  refine .bind (.mapM (Q := fun _ => True) fun w hw => ?_) fun _ _ => .pure trivial
  obtain ⟨s, rfl⟩ := exists_eq_text (h w hw)
  exact .pure trivial

namespace Arena

variable {a : Arena}

def isLabelled (a : Arena) : Bool :=
  a.nodes.all fun n => n.label.isText

theorem isText_label (h : a.isLabelled = true) {n : NodeId} (hn : n < a.size) : (a.label n).isText = true := by
  have hget : a.node n = a.nodes[n] := by
    simp [node, Array.getElem?_eq_getElem hn]
  rw [label, hget]
  exact Array.all_eq_true.1 h n hn

theorem succeeds_expressionText (h : a.isLegible = true) (hlabel : a.isLabelled = true) {n : NodeId}
    (hn : n < a.size) : Succeeds (a.expressionText n) (·.isText = true) := by
  have htext : (a.node n).text.isText = true := isText_text h n
  have hname : (a.node n).name.isText = true := isText_name h n
  unfold expressionText
  extract_lets x sub subs
  have hsub (role : String) : Succeeds (sub role) := by
    unfold sub
    split
    · exact .pure trivial
    · next c hc =>
      have hlt := a.lt_of_child? hc
      exact .bind (succeeds_expressionText h hlabel hlt.2) fun _ _ => .pure trivial
  have hsubs (role : String) : Succeeds (subs role) := by
    refine .bind (.mapM (Q := (·.isText = true)) fun entry _ => ?_) fun texts htexts => Value.succeeds_join htexts
    split
    · exact .pure rfl
    · next c hc =>
      have hlt := a.lt_of_mem_entries (hc ▸ entry.2)
      exact succeeds_expressionText h hlabel hlt.2
  split
  · exact .pure htext
  · exact .pure htext
  · split
    · exact .pure rfl
    · exact .pure htext
  · exact .bind (hsub _) fun _ _ => .pure rfl
  · exact .bind (hsub _) fun _ _ => .bind (hsub _) fun _ _ => .pure rfl
  · exact .bind (hsub _) fun _ _ => .bind (hsubs _) fun _ _ => .pure rfl
  · exact .bind (hsub _) fun _ _ => .pure rfl
  · exact .bind (hsub _) fun _ _ => .bind (hsub _) fun _ _ => .pure rfl
  · refine .bind (hsub _) fun _ _ => ?_
    split
    · exact .pure rfl
    · exact .pure rfl
  · exact .bind (hsub _) fun _ _ => .bind (hsub _) fun _ _ => .pure rfl
  · exact .bind (hsubs _) fun _ _ => .pure rfl
  · exact .bind (hsub _) fun _ _ => .bind (hsub _) fun _ _ => .bind (hsub _) fun _ _ => .pure rfl
  · exact .bind (succeeds_typeNameText? h _) fun _ _ => .pure rfl
  · exact .pure hname
  · exact .pure (Value.isText_or hname (isText_label hlabel hn))
termination_by a.size - n

end Arena

namespace Program

variable {p : Program} (h : p.arena.isLegible = true)

include h

theorem succeeds_stateTargets (n : NodeId) : Succeeds (p.stateTargets n) :=
  .filterMapM fun _ _ => .bind (succeeds_findRoot h _) fun _ _ => .pure trivial

theorem succeeds_stateNames (n : NodeId) : Succeeds (p.stateNames n) :=
  .filterMapM fun _ _ => .bind (succeeds_findVariable h _) fun _ _ => .pure trivial

theorem succeeds_checkedVariables (stmt : NodeId) : Succeeds (p.checkedVariables stmt) := by
  have hcondition : Succeeds (p.checkedCondition stmt) := by
    unfold checkedCondition
    simp only
    split
    · exact .pure trivial
    · split
      · exact .pure trivial
      · unfold requiredCondition
        simp only
        split
        · exact .pure trivial
        · refine .bind (Value.succeeds_isAmong (Arena.isText_text h _) _) fun b _ => ?_
          split
          · exact .pure trivial
          · exact .pure trivial
    · exact .pure trivial
  refine .bind hcondition fun found _ => ?_
  split
  · exact .pure trivial
  · exact succeeds_stateNames h _

theorem succeeds_setsChecked (checked stmts : List NodeId) : Succeeds (p.setsChecked checked stmts) := by
  induction stmts generalizing checked with
  | nil => exact .pure trivial
  | cons stmt rest ih =>
    refine .bind (succeeds_checkedVariables h stmt) fun more _ => ?_
    refine .bind (succeeds_stateTargets h stmt) fun targets _ => ?_
    split
    · exact .pure trivial
    · exact ih _

theorem succeeds_stateReadOf (n : NodeId) : Succeeds (p.stateReadOf n) :=
  .bind (succeeds_findVariable h n) fun _ _ => .pure trivial

end Program

namespace Lineage

variable {l : Lineage} (h : l.IsLegible)

include h

theorem answers_modifierFor {i : Invocation} (hi : i.name.isText = true) (context : Option ContractId) :
    (l.modifierFor i context).Answers := by
  have hbase : Succeeds (l.namesBase i) := by
    unfold Outline.namesBase
    split
    · exact .pure trivial
    · exact .bind (Outline.succeeds_contractNamed hi) fun _ _ => .pure trivial
  have hcontract : Succeeds (l.invokingContract i context) := by
    unfold invokingContract
    split
    · exact .pure trivial
    · exact Program.succeeds_home h.arena _
  refine .bind (.liftM hbase) fun b _ => ?_
  split
  · exact .pure trivial
  · refine .bind (.liftM hcontract) fun found _ => ?_
    split
    · exact .pure trivial
    · refine .bind (P := fun _ => True) ?_ fun _ _ => .pure trivial
      exact .bind (answers_candidatesFor h _ _ _) fun _ _ => .pure trivial

theorem answers_modifiersOf (f : CallableId) : (l.modifiersOf f).Answers :=
  .filterMapM fun i hi => .bind (answers_modifierFor h (h.invocations f i hi) none) fun _ _ => .pure trivial

end Lineage

namespace Linkage

variable {l : Linkage} (h : l.IsLegible)

include h

theorem answers_inlined (stmt : NodeId) : (l.inlined stmt).Answers := by
  unfold inlined
  simp only
  split
  · exact .pure trivial
  · split
    · exact .pure trivial
    · refine .bind (answers_edges h _) fun edges _ => ?_
      split
      · exact .pure trivial
      · exact .pure trivial

theorem answers_isLock (m : CallableId) : (l.isLock m).Answers := by
  unfold isLock
  split
  · refine .bind (.mapM (Q := fun _ => True) fun stmt _ => answers_inlined h stmt) fun _ _ => ?_
    exact .liftM (Program.succeeds_setsChecked h.arena _ _)
  · exact .pure trivial

theorem answers_isGuarded (f : CallableId) : (l.isGuarded f).Answers :=
  .bind (Lineage.answers_modifiersOf h f) fun _ _ => .anyM fun _ _ => answers_isLock h _

end Linkage

theorem Query.answers_orReport {α : Type} (q : Query α) (incident : Fault → Incident) :
    (q.orReport incident).Answers := by
  unfold orReport Answers Succeeds
  cases q.outcome <;> simp

theorem ControlFlow.answers_controlGraph? (c : ControlFlow) (spliced : Bool) (f : CallableId) :
    (c.controlGraph? spliced f).Answers := by
  unfold controlGraph?
  split
  · rw [Memo.get_eq]
    exact Query.answers_orReport _ _
  · rw [Memo.get_eq]
    exact Query.answers_orReport _ _

theorem ValueFlow.answers_form? (v : ValueFlow) (f : CallableId) : (v.form? f).Answers := by
  unfold form?
  rw [Memo.get_eq]
  refine .bind (v.answers_controlGraph? false f) fun graph _ => ?_
  split
  · exact .pure trivial
  · exact Query.answers_orReport _ _

namespace FlowModel

variable {m : FlowModel} (h : m.IsLegible)

include h

theorem answers_resultArity (call : NodeId) : (m.resultArity call).Answers := by
  unfold resultArity
  split
  · exact .pure trivial
  · exact .bind (Linkage.answers_callees h call) fun _ _ => .pure trivial

theorem succeeds_writeNodes (site target : NodeId) : Succeeds (m.writeNodes site target) := by
  unfold writeNodes
  split
  · exact .pure trivial
  · refine .bind (Program.succeeds_findVariable h.arena _) fun found _ => ?_
    split
    · exact .pure trivial
    · split
      · exact .pure trivial
      · split
        · exact .pure trivial
        · exact .pure trivial

theorem succeeds_allWriteNodes (site : NodeId) (targets : List NodeId) : Succeeds (m.allWriteNodes site targets) :=
  .bind (.mapM (Q := fun _ => True) fun target _ => succeeds_writeNodes h site target) fun _ _ => .pure trivial

theorem succeeds_hasOption (options : NodeId) (name : String) : Succeeds (m.hasOption options name) := by
  unfold hasOption
  split
  · exact .pure trivial
  · exact .pure trivial
  · exact .pure trivial
  · exact .pure trivial
  · next v hlist _ _ hv =>
    obtain ⟨names, rfl⟩ := Arena.names_eq_list h.arena hv
    exact absurd rfl (hlist names)

theorem succeeds_optionNodes (call : NodeId) : Succeeds (m.optionNodes call) := by
  unfold optionNodes
  split
  · exact .pure trivial
  · refine .bind (succeeds_hasOption h _ _) fun _ _ => ?_
    exact .bind (succeeds_hasOption h _ _) fun _ _ => .pure trivial

theorem answers_nodesOfCall (call : NodeId) : (m.nodesOfCall call).Answers := by
  have hpushed {c : Prop} [Decidable c] (front : List FlowNode) : Query.Answers
      (if c then do
        let pushed ← m.allWriteNodes call (m.arena.receiver? call).toList
        return front ++ pushed
      else do
        let pushed ← pure []
        return front ++ pushed : Query (List FlowNode)) := by
    split
    · exact .bind (.liftM (succeeds_allWriteNodes h _ _)) fun _ _ => .pure trivial
    · exact .pure trivial
  refine .bind (Linkage.answers_callKind h call) fun kind _ => ?_
  split
  · exact .pure trivial
  · refine .bind (.liftM (succeeds_optionNodes h call)) fun options _ => ?_
    dsimp only
    split
    · exact hpushed _
    · exact hpushed _
    · exact .bind (answers_resultArity h call) fun _ _ => hpushed _

theorem answers_nodesAt (n : NodeId) : (m.nodesAt n).Answers := by
  unfold nodesAt
  simp only
  split
  · exact .pure trivial
  · split
    · exact .bind (.liftM (Program.succeeds_stateReadOf h.arena n)) fun _ _ => .pure trivial
    · exact .bind (answers_nodesOfCall h n) fun _ _ => .pure trivial
    · exact .bind (.liftM (succeeds_allWriteNodes h _ _)) fun _ _ => .pure trivial
    · split
      · exact .bind (.liftM (succeeds_allWriteNodes h _ _)) fun _ _ => .pure trivial
      · exact .pure trivial
    · exact .pure trivial

theorem answers_nodesBelow (root : NodeId) : (m.nodesBelow root).Answers :=
  .bind (.mapM (Q := fun _ => True) fun n _ => answers_nodesAt h n) fun _ _ => .pure trivial

theorem answers_nodesIn (f : CallableId) : (m.nodesIn f).Answers := by
  have hbelow (roots : List NodeId) (front : List FlowNode) : Query.Answers (do
      let below ← roots.mapM m.nodesBelow
      return front ++ below.flatten : Query (List FlowNode)) :=
    .bind (.mapM (Q := fun _ => True) fun root _ => answers_nodesBelow h root) fun _ _ => .pure trivial
  unfold nodesIn
  dsimp only
  split
  · exact .bind (m.answers_form? f) fun _ _ => hbelow _ _
  · exact hbelow _ _

theorem answers_nodesOfContract (c : ContractId) : (m.nodesOfContract c).Answers := by
  refine .bind (.mapM (Q := fun _ => True) fun v _ => ?_) fun _ _ => ?_
  · unfold nodesOfVariable
    split
    · exact .pure trivial
    · exact .bind (answers_nodesBelow h _) fun _ _ => .pure trivial
  · refine .bind (.mapM (Q := fun _ => True) fun b _ => ?_) fun _ _ => .pure trivial
    exact .bind (.mapM (Q := fun _ => True) fun n _ => answers_nodesBelow h n) fun _ _ => .pure trivial

theorem answers_listNodes : m.listNodes.Answers fun xs =>
    ∀ f < m.callables.size, ∀ ys, (m.nodesIn f).outcome = .ok ys → ys ⊆ xs := by
  have hinside : (m.callableIds.mapM fun f => (m.nodesIn f).orElse []).Answers fun inside =>
      ∀ f < m.callables.size, ∀ ys, (m.nodesIn f).outcome = .ok ys → ys ∈ inside := by
    have hanswers : (m.callableIds.mapM fun f => (m.nodesIn f).orElse []).Answers :=
      (Query.Answers.mapM (Q := fun _ => True) fun f _ => ⟨_, rfl, trivial⟩).trivial
    obtain ⟨inside, houtcome, -⟩ := hanswers
    refine ⟨inside, houtcome, fun f hf ys hys => ?_⟩
    rw [Query.outcome_mapM] at houtcome
    refine (Outcome.mem_of_mapM_eq_ok houtcome ys).2 ⟨f, List.mem_range.2 hf, ?_⟩
    exact congrArg Except.ok (Query.getD_eq_of_outcome hys)
  refine .bind hinside fun inside hmem => ?_
  refine .bind (.mapM (Q := fun _ => True) fun c _ => answers_nodesOfContract h c) fun _ _ => ?_
  refine .pure fun f hf ys hys x hx => ?_
  rw [mem_distinct_iff]
  exact List.mem_append_left _ (List.mem_flatten_of_mem (hmem f hf ys hys) hx)

end FlowModel

end ContractFlow
