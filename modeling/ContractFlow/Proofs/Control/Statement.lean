import ContractFlow.Proofs.Control.Part
import ContractFlow.Proofs.Control.Program

/-! This module shows which statements of a body get a point in its control flow graph. -/

namespace ContractFlow

namespace Control

variable {cs : List Control} {c : Control} {n : NodeId} {entered : Bool}

theorem mem_made_all (hc : c ∈ cs) (h : ∀ entered, n ∈ c.made entered) (entered : Bool) :
    n ∈ (all cs).made entered := by
  induction cs generalizing entered with
  | nil => simp at hc
  | cons c' cs ih =>
    rw [all, made, List.mem_append]
    rcases List.mem_cons.1 hc with rfl | hc
    · exact .inl (h entered)
    · exact .inr (ih hc _)

theorem mem_made_anyOf (hc : c ∈ cs) (h : n ∈ c.made entered) : n ∈ (anyOf cs).made entered := by
  induction cs with
  | nil => simp at hc
  | cons c' cs ih =>
    rw [anyOf, made, List.mem_append]
    rcases List.mem_cons.1 hc with rfl | hc
    · exact .inl h
    · exact .inr (ih hc)

theorem IsPart.not_mem_made {test body next b : Control} (h : (loop test body next).IsPart b)
    (hnodup : b.visits.Nodup) (hn : n ∈ next.visits)
    (hclosed : (body.ends (test.ends true).falls).comesRound = false) : n ∉ b.made entered := by
  have hpart {b : Control} (hb : (loop test body next).IsPart b) : n ∈ b.visits :=
    hb.visits (List.mem_append_right _ hn)
  have hmade {entered : Bool} {c : Control} := made_sublist_visits entered c
  have hif {p : Prop} [Decidable p] {m : List NodeId} : (if p then m else []).Sublist m := by
    split
    · exact .refl m
    · exact List.nil_sublist m
  have hfront {v w m m' : List NodeId} (h : (v ++ w).Nodup) (hv : n ∈ v) (hm : n ∉ m) (hsub : m'.Sublist w) :
      n ∉ m ++ m' :=
    List.not_mem_append hm fun hmem => not_mem_right h hv (hsub.mem hmem)
  have hback {v w m m' : List NodeId} (h : (v ++ w).Nodup) (hw : n ∈ w) (hsub : m.Sublist v) (hm : n ∉ m') :
      n ∉ m ++ m' :=
    List.not_mem_append (fun hmem => not_mem_left h hw (hsub.mem hmem)) hm
  induction h generalizing entered with
  | refl =>
    simp only [made, hclosed]
    exact hback hnodup hn (hmade.append hmade) List.not_mem_nil
  | first h ih | left h ih => exact hfront hnodup (hpart h) (ih (.of_append_left hnodup)) hmade
  | second h ih | right h ih => exact hback hnodup (hpart h) hmade (ih (.of_append_right hnodup))
  | label _ ih | join _ ih => exact ih hnodup
  | condition h ih =>
    have hcond := List.Nodup.of_append_left hnodup
    exact hfront hnodup (List.mem_append_left _ (hpart h)) (hfront hcond (hpart h) (ih (.of_append_left hcond)) hmade)
      hmade
  | yes h ih =>
    have hcond := List.Nodup.of_append_left hnodup
    exact hfront hnodup (List.mem_append_right _ (hpart h)) (hback hcond (hpart h) hmade (ih (.of_append_right hcond)))
      hmade
  | no h ih => exact hback hnodup (hpart h) (hmade.append hmade) (ih (.of_append_right hnodup))
  | test h ih =>
    have hcond := List.Nodup.of_append_left hnodup
    exact hfront hnodup (List.mem_append_left _ (hpart h)) (hfront hcond (hpart h) (ih (.of_append_left hcond)) hmade)
      (hif.trans hmade)
  | body h ih =>
    have hcond := List.Nodup.of_append_left hnodup
    exact hfront hnodup (List.mem_append_right _ (hpart h)) (hback hcond (hpart h) hmade (ih (.of_append_right hcond)))
      (hif.trans hmade)
  | next h ih =>
    exact hback hnodup (hpart h) (hmade.append hmade) fun hmem => ih (.of_append_right hnodup) (hif.mem hmem)
  | doBody h ih => exact hfront hnodup (hpart h) (ih (.of_append_left hnodup)) (hif.trans hmade)
  | doTest h ih => exact hback hnodup (hpart h) hmade fun hmem => ih (.of_append_right hnodup) (hif.mem hmem)

end Control

namespace Arena

variable (a : Arena)

/-- Whether a loop has a way from one round to the next: its body comes to an end or continues. -/
def HasNextRound (n : NodeId) : Prop :=
  ((a.bodyPart true n "body").ends true).comesRound = true

inductive Holds (a : Arena) (n c : NodeId) : Prop
  | item (hkind : (a.kind n).isBlock = true) (hc : c ∈ a.items n "statements")
  | branch (hkind : a.kind n = .ifStatement) {role : String} (hrole : role = "trueBody" ∨ role = "falseBody")
      (hc : a.child? n role = some c)
  | round (hkind : a.kind n = .forStatement ∨ a.kind n = .whileStatement) {role : String}
      (hrole : role = "initializationExpression" ∨ role = "body") (hc : a.child? n role = some c)
  | next (hkind : a.kind n = .forStatement ∨ a.kind n = .whileStatement)
      (hc : a.child? n "loopExpression" = some c)
  | doRound (hkind : a.kind n = .doWhileStatement) (hc : a.child? n "body" = some c)
  | clause (hkind : a.kind n = .tryStatement) {k : NodeId} (hk : some k ∈ a.entries n "clauses")
      (hc : a.child? k "block" = some c)

def Within (n m : NodeId) : Prop :=
  Relation.ReflTransGen a.Holds n m

/-- `m` stands between the rounds of a loop in `n` that has no way to its next round. -/
def IsSkipped (n m : NodeId) : Prop :=
  ∃ l c, a.Within n l ∧ (a.kind l = .forStatement ∨ a.kind l = .whileStatement) ∧ ¬a.HasNextRound l ∧
    a.child? l "loopExpression" = some c ∧ a.Within c m

variable {a} {n c m : NodeId} {inLoop entered : Bool}

theorem IsSkipped.head (h : a.Within n c) (hm : a.IsSkipped c m) : a.IsSkipped n m := by
  obtain ⟨l, k, hl, hloop⟩ := hm
  exact ⟨l, k, h.trans hl, hloop⟩

theorem falls_partControl (n : NodeId) (role : String) : ((a.partControl n role).ends true).falls = true := by
  unfold partControl
  split
  · rfl
  · rw [expressionControl_eq]
    split
    · split <;> rfl
    · rfl
    · rfl

theorem mem_made_self (hn : (a.kind n).isBlock = false) : n ∈ (a.statementControl inLoop n).made entered := by
  rw [statementControl_eq]
  split
  all_goals simp_all [Control.made, Kind.isBlock]

theorem bodyPart_eq {role : String} (hc : a.child? n role = some c) :
    a.bodyPart inLoop n role = a.statementControl inLoop c := by
  rw [bodyPart, hc]

theorem statementControl_eq_all (hkind : (a.kind n).isBlock = true) :
    a.statementControl inLoop n = .all ((a.items n "statements").map (a.statementControl inLoop)) := by
  rw [statementControl_eq]
  cases hblock : a.kind n
  all_goals simp_all [Kind.isBlock]

theorem statementControl_eq_loop (hkind : a.kind n = .forStatement ∨ a.kind n = .whileStatement) :
    a.statementControl inLoop n = .seq (.visit n) (.seq (a.bodyPart inLoop n "initializationExpression")
      (.loop (a.partControl n "condition") (a.bodyPart true n "body")
        (a.bodyPart inLoop n "loopExpression"))) := by
  rw [statementControl_eq]
  rcases hkind with hkind | hkind
  all_goals rw [hkind]

theorem exists_mem_clauseControls {k : NodeId} (hk : some k ∈ a.entries n "clauses") (inLoop : Bool) :
    ∃ i, a.clauseControl inLoop i k ∈ a.clauseControls inLoop n := by
  obtain ⟨i, hi⟩ := List.mem_iff_getElem?.1 hk
  exact ⟨i, List.mem_filterMap.2 ⟨(some k, i), List.mem_zipIdx_iff_getElem?.2 hi, rfl⟩⟩

theorem statementControl_eq_try (hkind : a.kind n = .tryStatement) {k : Option NodeId}
    (hk : k ∈ a.entries n "clauses") :
    a.statementControl inLoop n = .seq (.visit n) (.seq (a.partControl n "externalCall")
      (.join (.anyOf (a.clauseControls inLoop n)))) := by
  rw [statementControl_eq, hkind]
  have hne : (a.entries n "clauses").isEmpty = false := List.isEmpty_eq_false_iff.2 (List.ne_nil_of_mem hk)
  simp [hne]

theorem Holds.mem_made (h : a.Holds n c)
    (hopen : (a.kind n = .forStatement ∨ a.kind n = .whileStatement) → a.child? n "loopExpression" = some c →
      a.HasNextRound n)
    (hm : ∀ inLoop entered, m ∈ (a.statementControl inLoop c).made entered) :
    m ∈ (a.statementControl inLoop n).made entered := by
  cases h with
  | item hkind hc =>
    rw [statementControl_eq_all hkind]
    exact Control.mem_made_all (List.mem_map_of_mem hc) (hm inLoop) entered
  | branch hkind hrole hc =>
    rw [statementControl_eq]
    rcases hrole with rfl | rfl
    all_goals simp [hkind, Control.made, bodyPart_eq hc, hm]
  | round hkind hrole hc =>
    rw [statementControl_eq_loop hkind]
    rcases hrole with rfl | rfl
    all_goals simp [Control.made, bodyPart_eq hc, hm]
  | next hkind hc =>
    have hopen := hopen hkind hc
    unfold HasNextRound at hopen
    rw [statementControl_eq_loop hkind]
    simp [Control.made, falls_partControl, hopen, bodyPart_eq hc, hm]
  | doRound hkind hc =>
    rw [statementControl_eq]
    simp [hkind, Control.made, bodyPart_eq hc, hm]
  | @clause hkind k hk hc =>
    obtain ⟨i, hi⟩ := exists_mem_clauseControls hk inLoop
    have hclause (entered : Bool) : m ∈ (a.clauseControl inLoop i k).made entered := by
      simp [clauseControl, Control.made, bodyPart_eq hc, hm]
    rw [statementControl_eq_try hkind hk]
    simp only [Control.made, List.mem_append]
    exact .inr (.inr (Control.mem_made_anyOf hi (hclause _)))

theorem Within.mem_made (h : a.Within n m) (hm : (a.kind m).isBlock = false) (hskip : ¬a.IsSkipped n m) :
    ∀ inLoop entered, m ∈ (a.statementControl inLoop n).made entered := by
  induction h using Relation.ReflTransGen.head_induction_on with
  | refl => exact fun _ _ => mem_made_self hm
  | @head n c hstep hrest ih =>
    intro inLoop entered
    refine hstep.mem_made (fun hkind hc => ?_) (ih fun h => hskip (.head (.single hstep) h))
    by_contra hclosed
    exact hskip ⟨n, c, .refl, hkind, hclosed, hc, hrest⟩

theorem Holds.exists_isPart (h : a.Holds n c) (inLoop : Bool) :
    ∃ inLoop', (a.statementControl inLoop' c).IsPart (a.statementControl inLoop n) := by
  cases h with
  | item hkind hc =>
    rw [statementControl_eq_all hkind]
    exact ⟨inLoop, .all (List.mem_map_of_mem hc)⟩
  | branch hkind hrole hc =>
    rw [statementControl_eq a inLoop n, hkind]
    rcases hrole with rfl | rfl
    · exact ⟨inLoop, bodyPart_eq hc ▸ .second (.join (.yes .refl))⟩
    · exact ⟨inLoop, bodyPart_eq hc ▸ .second (.join (.no .refl))⟩
  | round hkind hrole hc =>
    rw [statementControl_eq_loop hkind]
    rcases hrole with rfl | rfl
    · exact ⟨inLoop, bodyPart_eq hc ▸ .second (.first .refl)⟩
    · exact ⟨true, bodyPart_eq hc ▸ .second (.second (.body .refl))⟩
  | next hkind hc =>
    rw [statementControl_eq_loop hkind]
    exact ⟨inLoop, bodyPart_eq hc ▸ .second (.second (.next .refl))⟩
  | doRound hkind hc =>
    rw [statementControl_eq a inLoop n, hkind]
    exact ⟨true, bodyPart_eq hc ▸ .second (.doBody .refl)⟩
  | @clause hkind k hk hc =>
    obtain ⟨i, hi⟩ := exists_mem_clauseControls hk inLoop
    have hclause : (a.bodyPart inLoop k "block").IsPart (a.clauseControl inLoop i k) :=
      .label (.second .refl)
    rw [statementControl_eq_try hkind hk]
    exact ⟨inLoop, bodyPart_eq hc ▸ .second (.second (.join (hclause.trans (.anyOf hi))))⟩

theorem Within.exists_isPart (h : a.Within n m) (inLoop : Bool) :
    ∃ inLoop', (a.statementControl inLoop' m).IsPart (a.statementControl inLoop n) := by
  induction h with
  | refl => exact ⟨inLoop, .refl⟩
  | tail _ hstep ih =>
    obtain ⟨inLoop₁, hpart₁⟩ := ih
    obtain ⟨inLoop₂, hpart₂⟩ := hstep.exists_isPart inLoop₁
    exact ⟨inLoop₂, hpart₂.trans hpart₁⟩

theorem IsSkipped.not_mem_made (h : a.IsSkipped n m) (hm : (a.kind m).isBlock = false) :
    m ∉ (a.statementControl inLoop n).made entered := by
  obtain ⟨l, c, hl, hkind, hclosed, hc, hcm⟩ := h
  obtain ⟨inLoop₁, hpart⟩ := hl.exists_isPart inLoop
  obtain ⟨inLoop₂, hpart₂⟩ := hcm.exists_isPart inLoop₁
  have hself : m ∈ (a.statementControl inLoop₂ m).visits :=
    (Control.made_sublist_visits true _).mem (mem_made_self hm)
  rw [statementControl_eq_loop hkind] at hpart
  have hloop := (Control.IsPart.second (.second .refl)).trans hpart
  apply hloop.not_mem_made (a.stays_statementControl inLoop n).nodup
  · rw [bodyPart_eq hc]
    exact hpart₂.visits hself
  · rw [falls_partControl]
    exact Bool.eq_false_of_not_eq_true hclosed

theorem Within.mem_made_iff (h : a.Within n m) (hm : (a.kind m).isBlock = false) :
    m ∈ (a.statementControl inLoop n).made entered ↔ ¬a.IsSkipped n m :=
  ⟨fun hmade hskip => hskip.not_mem_made hm hmade, fun hskip => h.mem_made hm hskip inLoop entered⟩

end Arena

namespace ControlGraph

variable {g : ControlGraph} {n : NodeId}

theorem exists_node?_iff : (∃ i, g.node? i = some n) ↔ n ∈ g.points.toList.filterMap (·.kind.node?) := by
  rw [List.mem_filterMap]
  constructor
  · rintro ⟨i, hi⟩
    obtain ⟨p, hp, hn⟩ := Draft.getElem?_of_node? hi
    exact ⟨p, List.mem_of_getElem? hp, hn⟩
  · rintro ⟨p, hp, hn⟩
    obtain ⟨i, hi⟩ := List.mem_iff_getElem?.1 hp
    refine ⟨i, ?_⟩
    rw [node?, point, Array.getD_eq_getD_getElem?, ← Array.getElem?_toList, hi]
    exact hn

theorem mem_visited_iff_exists : n ∈ g.visited ↔ ∃ i, g.node? i = some n := by
  rw [visited, mem_distinct_iff, List.mem_filterMap]
  exact exists_congr fun i => and_iff_right_of_imp fun h => List.mem_range.2 (Draft.lt_size_of_node? h)

theorem mem_visited_ofLayers_iff (callable : CallableId) (body : Control) :
    n ∈ (ofLayers callable [] body).visited ↔ n ∈ body.made true := by
  rw [mem_visited_iff_exists, exists_node?_iff, filterMap_ofLayers]

theorem isBlock_of_isStatement {a : Arena} (h : isStatement a n = true) : (a.kind n).isBlock = false := by
  unfold isStatement at h
  cases hp : a.parent? n <;> cases hkind : a.kind n
  all_goals simp_all [Kind.isStatement, Kind.isBlock]

theorem exists_mem_statements_iff (a : Arena) :
    (∃ live, (n, live) ∈ g.statements a) ↔ n ∈ g.visited ∧ isStatement a n = true := by
  simp [statements]

theorem live_iff_of_mem_statements (hg : g.Sound) {a : Arena} {live : Bool} (h : (n, live) ∈ g.statements a) :
    live = true ↔ ∃ path i, g.Run path i ∧ g.node? i = some n := by
  obtain ⟨m, -, heq⟩ := List.mem_map.1 h
  obtain ⟨rfl, rfl⟩ := Prod.mk.inj heq
  rw [List.any_eq_true, exists_comm]
  refine exists_congr fun i => ?_
  rw [exists_and_right, exists_run_iff hg, and_comm, mem_pointsAt_iff]

end ControlGraph

/--
The graph of a body classifies each statement in it by whether a run comes to it, except those between the rounds
of a loop that has no way to its next round.
-/
theorem ControlFlow.statements_are_classified (c : ControlFlow) (f : CallableId) {body : NodeId}
    (hplan : c.plan.control.contains (c.qualifiedName f) = false)
    (hbody : (c.callableD f).body = some body) :
    ∃ g, (c.controlGraph? false f).outcome = .ok (some g) ∧
      ∀ n, c.arena.Within body n → ControlGraph.isStatement c.arena n = true →
        ((∃ live, (n, live) ∈ g.statements c.arena) ↔ ¬c.arena.IsSkipped body n) ∧
        ∀ live, (n, live) ∈ g.statements c.arena →
          (live = true ↔ ∃ path i, g.Run path i ∧ g.node? i = some n) := by
  have hg : (c.controlGraph? false f).outcome = .ok (some (.ofLayers f [] (c.control f))) :=
    outcome_controlGraph? hplan rfl
  have hcontrol : c.control f = c.arena.statementControl false body := by
    rw [Lineage.control, hbody]
    rfl
  refine ⟨_, hg, fun n hn hstatement => ⟨?_, fun live h => ?_⟩⟩
  · rw [ControlGraph.exists_mem_statements_iff, ControlGraph.mem_visited_ofLayers_iff, hcontrol,
      hn.mem_made_iff (ControlGraph.isBlock_of_isStatement hstatement), and_iff_left hstatement]
  · exact ControlGraph.live_iff_of_mem_statements (sound_of_controlGraph? hg) h

/-! A small program: a function whose body is `for (;; 1) { return; }`. -/

namespace SingleRound

open Sample

def nodes : Array Node := #[
  node .functionDefinition none "" [("body", .one 1)] [],
  block 0 [2],
  node .forStatement (some 1) "statements" [("body", .one 3), ("loopExpression", .one 5)] [],
  block 2 [4],
  node .returnStatement (some 3) "statements" [] [],
  node .expressionStatement (some 2) "loopExpression" [("expression", .one 6)] [],
  node .literal (some 5) "expression" [] []]

def arena : Arena :=
  arenaOf nodes (by decide +kernel)

def program : ControlFlow :=
  let outline : Outline := { Sample.outline with
    arena := arena, callables := #[{ callable with parameters := [], body := some 1 }] }
  .ofCallGraph (.ofLinkage (.ofLineage (.ofProgram (.ofOutline outline)) true)) {}

theorem holds_body : arena.Holds 1 2 :=
  .item rfl (by decide)

theorem roundControl_eq : arena.bodyPart true 2 "body" = .all [.seq .skip (.seq (.visit 4) (.leave .returns))] := by
  have hblock : arena.bodyPart true 2 "body" = .all [arena.statementControl true 4] := by
    rw [Arena.bodyPart_eq (show arena.child? 2 "body" = some 3 from rfl), Arena.statementControl_eq]
    rfl
  rw [hblock, Arena.statementControl_eq]
  rfl

theorem isSkipped_next : arena.IsSkipped 1 5 := by
  refine ⟨2, 5, .single holds_body, .inl rfl, ?_, rfl, .refl⟩
  rw [Arena.HasNextRound, roundControl_eq]
  decide

theorem not_isSkipped_return : ¬arena.IsSkipped 1 4 := by
  rintro ⟨l, c, -, hkind, -, hc, hwithin⟩
  have hlt : l < 7 := Nat.lt_trans (Arena.lt_of_child? hc).1 (Arena.lt_of_child? hc).2
  have hloop : ∀ l < 7, arena.kind l = .forStatement ∨ arena.kind l = .whileStatement → l = 2 := by decide
  obtain rfl := hloop l hlt hkind
  obtain rfl : 5 = c := Option.some.inj hc
  rcases hwithin.cases_head with h | ⟨x, hx, -⟩
  · cases h
  · rcases hx with h | h | h | h | h | h <;> revert h <;> decide

theorem statements_are_classified_single : ∃ g, (program.controlGraph? false 0).outcome = .ok (some g) ∧
    (∃ live, ((4 : NodeId), live) ∈ g.statements program.arena) ∧
    ¬∃ live, ((5 : NodeId), live) ∈ g.statements program.arena := by
  obtain ⟨g, hg, h⟩ := program.statements_are_classified 0 rfl rfl
  have hreturn : program.arena.Within 1 4 :=
    ((Relation.ReflTransGen.single holds_body).tail (.round (.inl rfl) (.inr rfl) rfl)).tail (.item rfl (by decide))
  have hnext : program.arena.Within 1 5 :=
    (Relation.ReflTransGen.single holds_body).tail (.next (.inl rfl) rfl)
  exact ⟨g, hg, (h 4 hreturn rfl).1.2 not_isSkipped_return,
    fun hlive => (h 5 hnext rfl).1.1 hlive isSkipped_next⟩

end SingleRound

end ContractFlow
