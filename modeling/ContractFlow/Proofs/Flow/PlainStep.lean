import ContractFlow.Proofs.Flow.Origin
import ContractFlow.Proofs.Flow.Target

/-! This module shows where the steps of flow lead in plain bodies. -/

namespace ContractFlow

theorem filter_eq_singleton_of_nodup {α : Type} {key : α → NodeId} {l : List α} {x : α} (h : (l.map key).Nodup)
    (hx : x ∈ l) : l.filter (key · == key x) = [x] := by
  induction l with
  | nil => simp at hx
  | cons y l ih =>
    rw [List.map_cons, List.nodup_cons] at h
    rcases List.mem_cons.1 hx with rfl | hx
    · rw [List.filter_cons_of_pos (by simp), List.filter_eq_nil_iff.2]
      intro z hz heq
      exact h.1 (eq_of_beq heq ▸ List.mem_map_of_mem hz)
    · rw [List.filter_cons_of_neg, ih h.2 hx]
      intro heq
      exact h.1 (eq_of_beq heq ▸ List.mem_map_of_mem hx)

namespace Program

variable {p : Program} {n c y : NodeId}

namespace IsPlainNode

theorem value_of_isRead (h : p.IsPlainNode n) (hkind : p.arena.kind n = .identifier) (hread : p.isRead n = true) :
    p.IsPlainExpression n ∧ p.Passes n := by
  rcases h.identifier_cases hkind with ⟨s, v, h⟩ | ⟨hn, hpasses, -⟩
  · obtain ⟨hparent, hrole⟩ := Arena.parent?_of_child? h.left
    simp only [isRead, hparent, h.kind, hrole, h.operator] at hread
    exact absurd hread (by decide)
  · exact ⟨hn, hpasses⟩

theorem isRead_of_role (h : p.IsPlainNode n) (hkind : p.arena.kind n = .identifier)
    (hrole : ∀ q, p.arena.parent? n = some q → p.arena.kind q = .assignment → p.arena.role n ≠ "leftHandSide") :
    p.isRead n = true := by
  rcases h.identifier_cases hkind with ⟨s, v, h⟩ | ⟨-, -, hread⟩
  · obtain ⟨hparent, hleft⟩ := Arena.parent?_of_child? h.left
    exact absurd hleft (hrole s hparent h.kind)
  · exact hread

theorem localOf?_eq (h : p.IsPlainNode n) (hy : p.variableOf? n = some y) : p.localOf? n = some y := by
  obtain ⟨y', hy'⟩ := h.exists_namesLocal (kind_of_variableOf? hy)
  obtain rfl := Option.some.inj (hy'.variableOf?.symm.trans hy)
  exact hy'.localOf?

theorem value_of_feeds (h : p.IsPlainNode n) (hfeeds : p.Feeds c n) : p.IsPlainExpression n ∧ p.Passes n := by
  have hkind : p.arena.kind n = .tupleExpression ∨ p.arena.kind n = .binaryOperation ∨
      p.arena.kind n = .conditional := by
    cases hfeeds with
    | parenthesis _ hkind => exact .inl hkind
    | operand _ hkind => exact .inr (.inl hkind)
    | branch _ hkind => exact .inr (.inr hkind)
  cases h with
  | statement h => rcases h with h | h | h | h | h <;> simp [h] at hkind
  | declaration h => simp [h] at hkind
  | assignment h => simp [h.kind] at hkind
  | target h =>
    obtain ⟨y, hy⟩ := h.name
    simp [hy.kind] at hkind
  | value hn hpasses => exact ⟨hn, hpasses⟩

end IsPlainNode

end Program

namespace FlowModel

structure IsPlainBody (m : FlowModel) (f : CallableId) (g : ControlGraph) : Prop where
  plain : m.IsPlain
  legible : m.IsLegible
  planted : m.IsPlanted
  lt_size : f < m.callables.size
  graph : (m.controlGraph? false f).outcome = .ok (some g)
  form : (m.form? f).outcome = .ok (some (m.formOver g))

inductive GoesTo (m : FlowModel) (f : CallableId) (g : ControlGraph) (n : NodeId) : FlowNode → Prop
  | feeds {q : NodeId} : m.Feeds n q → GoesTo m f g n (.expression q)
  | assigned {s y : NodeId} {j d : Nat} : m.Assigns s y n → g.node? j = some s →
      (m.formOver g).writersAt j y = [d] → GoesTo m f g n (.definition f d)
  | assignment {s y : NodeId} : m.Assigns s y n → m.arena.kind s = .assignment → GoesTo m f g n (.expression s)
  | result {f' : CallableId} : GoesTo m f g n (.result f' 0)

namespace IsPlainBody

variable {m : FlowModel} {f : CallableId} {g : ControlGraph} {i j k d e : Nat} {n s u v y : NodeId}
  {x : FlowNode} (h : m.IsPlainBody f g)

include h

theorem sound : g.Sound :=
  ControlFlow.sound_of_controlGraph? h.graph

theorem point_unique (i j : Nat) (n : NodeId) (hi : g.node? i = some n) (hj : g.node? j = some n) : i = j :=
  ControlFlow.point_unique h.graph hi hj

theorem isPlainNode (hk : g.node? k = some n) : m.IsPlainNode n :=
  ControlFlow.isPlainNode_of_node? h.plain h.graph hk

theorem definitionNode_eq (d : Nat) : definitionNode (m.formOver g) d = .definition f d := by
  unfold definitionNode
  rw [callable_of_form? h.form]

theorem owner?_eq (hk : g.node? k = some n) : m.owner? n = some f := by
  obtain ⟨body, hbody, hmem, -⟩ := ControlFlow.exists_body h.graph hk
  obtain ⟨contract, hmodel⟩ := h.planted.models f h.lt_size
  have hparent := (Arena.parent?_of_child? (hmodel.body.symm.trans hbody)).1
  rw [Program.owner?_eq h.legible]
  exact h.planted.holder f h.lt_size n (.head hparent ((m.arena.stays_statementControl false body).below n hmem))

theorem exists_definitionTarget_eq (hj : g.node? j = some s) (hlive : g.isLive j = true)
    (hassigns : m.Assigns s y v) : ∃ d, (m.definitionTarget s y).outcome = .ok [.definition f d] ∧
      (m.formOver g).writersAt j y = [d] := by
  obtain ⟨w, rfl, hw⟩ := (h.isPlainNode hj).exists_writesAt_eq hassigns
  obtain ⟨d, hd, hwriters, -⟩ := SsaForm.exists_definitionAt?_eq h.sound (fun i hi => h.point_unique i j s hi hj)
    hlive hj hassigns.ne (w := w) (by rw [hw]; simp)
  refine ⟨d, ?_, hwriters⟩
  have hform : (m.formAround s).outcome = .ok (some (m.formOver g)) := by
    unfold formAround
    rw [h.owner?_eq hj]
    exact h.form
  unfold definitionTarget
  rw [Query.outcome_bind_ok hform]
  change Except.ok ((((m.formOver g).definitionAt? s w.variableNode).toList).map _) = _
  rw [ControlFlow.formOver, hd]
  exact congrArg (fun x => Except.ok [x]) (h.definitionNode_eq d)

omit h in
theorem assignmentTargets_eq (hy : m.localOf? u = some y) : (m.assignmentTargets u s).outcome
    = (m.definitionTarget s y).outcome := by
  obtain ⟨hkind, -, hfind, hlocal⟩ := Program.of_localOf? hy
  have hroot : m.arena.rootExpression? u = some u := by
    unfold Arena.rootExpression?
    rw [hkind]
  have hfind : (liftM (m.findVariable u) : Query _).outcome = .ok (some y) := hfind
  unfold assignmentTargets
  simp only [hkind, hroot]
  rw [if_neg (by decide), Query.outcome_bind_ok hfind]
  simp [Program.isState_of_isLocal hlocal, hlocal]

omit h in
theorem expressionFlows_assigned (hassigns : m.Assigns s y v) : ∃ front, (m.expressionFlows v).outcome
      = (m.definitionTarget s y).outcome.map (front ++ ·) ∧
    (front = [] ∨ front = [.expression s] ∧ m.arena.kind s = .assignment) := by
  have hparent := hassigns.parent?
  cases hassigns with
  | declaration hkind hone hv =>
    refine ⟨[], ?_, .inl rfl⟩
    unfold expressionFlows
    simp only [hparent, hkind, (Arena.parent?_of_child? hv).2, hone]
    cases (m.definitionTarget s y).outcome <;> rfl
  | @assignment target hkind hoperator hleft hy hv =>
    refine ⟨[.expression s], ?_, .inr ⟨rfl, hkind⟩⟩
    obtain ⟨htarget, -⟩ := Program.of_localOf? hy
    unfold expressionFlows
    simp only [hparent, hkind, (Arena.parent?_of_child? hv).2, hoperator, hleft, htarget]
    rw [if_pos (by decide), if_neg (by decide), Query.outcome_bind, assignmentTargets_eq hy]
    cases (m.definitionTarget s y).outcome <;> rfl

omit h in
theorem expressionFlows_feeds (hfeeds : m.Feeds n u) : (m.expressionFlows n).outcome = .ok [.expression u] := by
  unfold expressionFlows
  cases hfeeds with
  | parenthesis hparent hkind hone =>
    simp only [hparent, hkind, componentFlows, hone]
    rfl
  | operand hparent hkind hpropagating =>
    have hlift : (liftM (m.arena.isPropagating u) : Query Bool).outcome = .ok true := hpropagating
    simp only [hparent, hkind]
    rw [Query.outcome_bind_ok hlift]
    rfl
  | branch hparent hkind hrole =>
    simp only [hparent, hkind]
    rcases hrole with hrole | hrole <;> rw [hrole] <;> rfl

theorem gives_goesTo (hpasses : m.Passes n)
    (hassigned : ∀ s y, m.Assigns s y n → ∃ j, g.node? j = some s ∧ g.isLive j = true) :
    (m.expressionFlows n).Gives fun xs => ∀ x ∈ xs, m.GoesTo f g n x := by
  have hfeeds {q : NodeId} (hfeeds : m.Feeds n q) :
      (m.expressionFlows n).Gives fun xs => ∀ x ∈ xs, m.GoesTo f g n x := by
    intro xs hxs
    rw [expressionFlows_feeds hfeeds] at hxs
    obtain rfl := Except.ok.inj hxs
    exact List.forall_mem_singleton.2 (.feeds hfeeds)
  cases hpasses with
  | assigned hassigns =>
    obtain ⟨j, hj, hlive⟩ := hassigned _ _ hassigns
    obtain ⟨d, hd, hwriters⟩ := h.exists_definitionTarget_eq hj hlive hassigns
    obtain ⟨front, heq, hfront⟩ := expressionFlows_assigned hassigns
    intro xs hxs
    rw [heq, hd] at hxs
    obtain rfl := Except.ok.inj hxs
    refine List.forall_mem_append.2 ⟨?_, List.forall_mem_singleton.2 (.assigned hassigns hj hwriters)⟩
    rcases hfront with rfl | ⟨rfl, hkind⟩
    · simp
    · exact List.forall_mem_singleton.2 (.assignment hassigns hkind)
  | parenthesis hparent hkind hone => exact hfeeds (.parenthesis hparent hkind (by rw [hone]; rfl))
  | @operand q hparent hkind =>
    cases hpropagating : m.arena.isPropagating q with
    | ok b =>
      cases b with
      | true => exact hfeeds (.operand hparent hkind hpropagating)
      | false =>
        unfold expressionFlows
        simp only [hparent, hkind, hpropagating]
        exact .pure (by simp)
    | error e =>
      unfold expressionFlows
      simp only [hparent, hkind, hpropagating]
      intro xs hxs
      exact absurd hxs (by simp [Query.outcome_bind, Except.bind])
  | branch hparent hkind =>
    by_cases hrole : m.arena.role n = "trueExpression" ∨ m.arena.role n = "falseExpression"
    · exact hfeeds (.branch hparent hkind hrole)
    · unfold expressionFlows
      simp only [hparent, hkind]
      rw [if_neg (by simpa using hrole)]
      exact .pure (by simp)
  | tested hparent hkind =>
    unfold expressionFlows
    simp only [hparent]
    rcases hkind with hkind | hkind | hkind <;> rw [hkind] <;> exact .pure (by simp)
  | @returned q hparent hkind =>
    unfold expressionFlows
    simp only [hparent, hkind]
    refine .pure ?_
    unfold returnFlows
    split
    · split
      · simp
      · split
        · simp
        · exact List.forall_mem_singleton.2 .result
    · simp

theorem exists_definitionFlows_eq (d : Nat) : ∃ results, (m.definitionFlows f d).outcome
      = .ok (((m.formOver g).usesOf d).map .expression ++
        ((m.formOver g).phis.filter fun phi => ((m.formOver g).phiInputs phi).contains d).map (.definition f)
          ++ results) ∧ ∀ x ∈ results, ∃ i, x = .result f i := by
  have hnode : definitionNode (m.formOver g) = .definition f := funext h.definitionNode_eq
  have hreads (x : NodeId) : (liftM (m.invocationReads f x) : Query _).outcome = .ok [] := by
    unfold invocationReads
    rw [h.plain.invocations f]
    rfl
  unfold definitionFlows
  rw [Query.outcome_bind_ok h.form]
  dsimp -zeta only
  extract_lets x uses merging returned join
  have hresults : ∀ y ∈ returned, ∃ i, y = .result f i := by
    intro y hy
    unfold returned at hy
    split at hy
    · split at hy
      · exact ⟨_, List.mem_singleton.1 hy⟩
      · simp at hy
    · simp at hy
  have hjoin : (join []).outcome = .ok (uses ++ merging ++ returned) := by
    unfold join
    rw [List.map_nil, List.append_nil]
    rfl
  refine ⟨returned, ?_, hresults⟩
  rw [← hnode]
  split
  · rw [Query.outcome_bind_ok (hreads _)]
    exact hjoin
  · exact hjoin

theorem exists_parameterFlows_eq {x : Parameter} (hx : (m.callableD f).parameters[i]? = some x) :
    ∃ d, (m.parameterFlows f i).outcome = .ok [.definition f d] ∧
      (m.formOver g).writersAt Draft.entry x.node = [d] := by
  obtain ⟨contract, hmodel⟩ := h.planted.models f h.lt_size
  have hwrites : (SsaSource.ofGraph m.toProgram g).writes Draft.entry = m.entryWrites f := by
    have hkind := (ControlGraph.kind_eq_entry_iff h.sound (Nat.lt_trans (by decide) h.sound.exit_lt)).2 rfl
    have hkind : ((SsaSource.ofGraph m.toProgram g).graph.point Draft.entry).kind = .entry := hkind
    have hcallable : g.callable = f := callable_of_form? h.form
    unfold SsaSource.writes
    rw [hkind]
    exact congrArg m.entryWrites hcallable
  have hnodup : ((m.entryWrites f).map (·.variableNode)).Nodup := by
    have hnodup := Outline.nodup_entry hmodel
    simpa [Program.entryWrites, Function.comp_def] using hnodup
  have hmem : ⟨x.node, .parameter, x.node⟩ ∈ m.entryWrites f :=
    List.mem_append_left _ (List.mem_map.2 ⟨x, List.mem_of_getElem? hx, rfl⟩)
  obtain ⟨d, hd, hwriters, -⟩ := SsaForm.exists_entryDefinition?_eq h.sound (p := m.toProgram) (x := x.node)
    (by rw [hwrites]; exact filter_eq_singleton_of_nodup hnodup hmem)
  refine ⟨d, ?_, hwriters⟩
  unfold parameterFlows
  rw [hx]
  rw [Query.outcome_bind_ok h.form]
  change Except.ok ((((m.formOver g).entryDefinition? x.node).toList).map _) = _
  rw [ControlFlow.formOver, hd]
  exact congrArg (fun x => Except.ok [x]) (h.definitionNode_eq d)

end IsPlainBody

end FlowModel

end ContractFlow
