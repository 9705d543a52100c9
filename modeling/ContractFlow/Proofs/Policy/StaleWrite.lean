import ContractFlow.Proofs.Flow.Listing

/-! This module shows which writes are found behind a call. -/

namespace ContractFlow

namespace ControlGraph

variable {c : ControlGraph} {i j : Nat} {n m : NodeId}

def Precedes (c : ControlGraph) (n m : NodeId) : Prop :=
  ∃ i j, c.node? i = some n ∧ c.node? j = some m ∧ Relation.TransGen (fun i j => j ∈ c.next i) i j

theorem exists_strictlyReaches_iff (hc : c.Sound) :
    (∃ i ∈ c.pointsAt n, ∃ j ∈ c.pointsAt m, c.strictlyReaches i j = true) ↔ c.Precedes n m := by
  simp only [mem_pointsAt_iff, strictlyReaches_iff hc]
  constructor
  · rintro ⟨i, hi, j, hj, h⟩
    exact ⟨i, j, hi, hj, h⟩
  · rintro ⟨i, j, hi, hj, h⟩
    exact ⟨i, hi, j, hj, h⟩

end ControlGraph

theorem Lineage.gives_modifierFor (l : Lineage) (i : Invocation) (context : Option ContractId) :
    (l.modifierFor i context).Gives fun found => ∀ m, found = some m → l.isModifier m = true := by
  have hfinal (found : Option CallableId) (hfound : ∀ m, found = some m → l.isModifier m = true) (m : CallableId)
      (hm : (found <|> ((l.invoked? i).bind l.callableAt?).filter l.isModifier) = some m) :
      l.isModifier m = true := by
    cases found with
    | none => exact (Option.filter_eq_some_iff.1 hm).2
    | some k => exact hfound m hm
  refine .bind fun base _ => ?_
  split
  · exact .pure (by simp)
  · refine .bind fun home _ => ?_
    split
    · exact .pure (hfinal none (by simp))
    · refine .bind fun found hfound => .pure (hfinal found fun m hm => ?_)
      obtain ⟨candidates, -, hfound⟩ := Query.outcome_bind_eq_ok.1 hfound
      rw [hm] at hfound
      exact List.find?_some (Except.ok.inj hfound)

theorem Lineage.isModifier_of_mem_modifiersOf {l : Lineage} {f m : CallableId} {i : Invocation}
    {modifiers : List (Invocation × CallableId)} (h : (l.modifiersOf f).outcome = .ok modifiers)
    (hm : (i, m) ∈ modifiers) : l.isModifier m = true := by
  rw [modifiersOf, Query.outcome_filterMapM] at h
  obtain ⟨j, -, hj⟩ := (Outcome.mem_of_filterMapM_eq_ok h (i, m)).1 hm
  obtain ⟨found, hfound, hj⟩ := Query.outcome_bind_eq_ok.1 hj
  obtain ⟨k, hk, heq⟩ := Option.map_eq_some_iff.1 (Except.ok.inj hj)
  obtain ⟨-, rfl⟩ := Prod.mk.inj heq
  exact l.gives_modifierFor j none found hfound k hk

theorem Linkage.outcome_isGuarded_of_isModifier {l : Linkage} {m : CallableId} (h : l.isModifier m = true) :
    (l.isGuarded m).outcome = .ok false := by
  have hnil : (l.callableD m).invocations = [] := Outline.invocations_eq_nil (by simpa [Lineage.isModifier] using h)
  unfold isGuarded Lineage.modifiersOf
  rw [hnil]
  rfl

namespace FlowGraph

variable {g : FlowGraph} {f : CallableId} {c : ControlGraph} {call site decl : NodeId} {x : FlowNode}
  {around writes : List FlowNode}

/-- The bodies that run together with that of a callable: its own, and those of its modifiers but for locks. -/
inductive RunsWith (g : FlowGraph) (f : CallableId) : CallableId → Prop
  | own : RunsWith g f f
  | modifier {modifiers : List (Invocation × CallableId)} {i : Invocation} {m : CallableId}
      (hmodifiers : (g.modifiersOf f).outcome = .ok modifiers) (hm : (i, m) ∈ modifiers)
      (hlock : (g.isLock m).outcome = .ok false) : RunsWith g f m

def IsAround (g : FlowGraph) (f : CallableId) (x : FlowNode) : Prop :=
  ∃ k, g.RunsWith f k ∧ ∃ xs, (g.nodesIn k).outcome = .ok xs ∧ x ∈ xs

/-- A write that follows a call in a graph, of state that is read before the call. -/
structure IsStaleWrite (g : FlowGraph) (f : CallableId) (c : ControlGraph) (call site decl : NodeId) :
    Prop where
  write : g.IsAround f (.stateWrite site decl)
  follows : c.Precedes call site
  read : ∃ n, g.IsAround f (.stateRead n decl) ∧ c.Precedes n call

theorem mem_nodesAround_iff (h : (g.nodesAround f).outcome = .ok around) : x ∈ around ↔ g.IsAround f x := by
  obtain ⟨own, hown, h⟩ := Query.outcome_bind_eq_ok.1 h
  obtain ⟨modifiers, hmodifiers, h⟩ := Query.outcome_bind_eq_ok.1 h
  obtain ⟨others, hothers, h⟩ := Query.outcome_bind_eq_ok.1 h
  obtain rfl := Except.ok.inj h
  rw [List.mem_append, Query.mem_flatten_iff hothers]
  constructor
  · rintro (hx | ⟨⟨i, m⟩, hm, xs, heq, hx⟩)
    · exact ⟨f, .own, own, hown, hx⟩
    · obtain ⟨lock, hlock, heq⟩ := Query.outcome_bind_eq_ok.1 heq
      cases lock with
      | true =>
        rw [← Except.ok.inj heq] at hx
        simp at hx
      | false => exact ⟨m, .modifier hmodifiers hm hlock, xs, heq, hx⟩
  · rintro ⟨k, hk, xs, hnodes, hx⟩
    cases hk with
    | own =>
      obtain rfl := Except.ok.inj (hown.symm.trans hnodes)
      exact .inl hx
    | modifier hmodifiers' hm hlock =>
      obtain rfl := Except.ok.inj (hmodifiers.symm.trans hmodifiers')
      exact .inr ⟨_, hm, xs, Query.outcome_bind_eq_ok.2 ⟨false, hlock, hnodes⟩, hx⟩

theorem mem_readBefore_iff (hc : c.Sound) (h : (g.nodesAround f).outcome = .ok around) :
    decl ∈ readBefore c (c.pointsAt call) around ↔
      ∃ n, g.IsAround f (.stateRead n decl) ∧ c.Precedes n call := by
  unfold readBefore
  rw [List.mem_filterMap]
  constructor
  · rintro ⟨x, hx, heq⟩
    split at heq
    · next n d =>
      split at heq
      · next hreach =>
        obtain rfl := Option.some.inj heq
        refine ⟨n, (mem_nodesAround_iff h).1 hx, (ControlGraph.exists_strictlyReaches_iff hc).1 ?_⟩
        simpa using hreach
      · simp at heq
    · simp at heq
  · rintro ⟨n, hn, hprecedes⟩
    refine ⟨_, (mem_nodesAround_iff h).2 hn, ?_⟩
    have hreach := (ControlGraph.exists_strictlyReaches_iff hc).2 hprecedes
    simpa using hreach

theorem isWriteAfter_iff (hc : c.Sound) (h : (g.nodesAround f).outcome = .ok around) :
    isWriteAfter c (c.pointsAt call) (readBefore c (c.pointsAt call) around) x = true ↔
      ∃ site decl, x = .stateWrite site decl ∧ c.Precedes call site ∧
        ∃ n, g.IsAround f (.stateRead n decl) ∧ c.Precedes n call := by
  unfold isWriteAfter
  split
  · next site decl =>
    rw [Bool.and_eq_true, List.contains_iff_mem, mem_readBefore_iff hc h]
    simp only [List.any_eq_true]
    constructor
    · rintro ⟨hread, j, hj, i, hi, hij⟩
      exact ⟨site, decl, rfl, (ControlGraph.exists_strictlyReaches_iff hc).1 ⟨i, hi, j, hj, hij⟩, hread⟩
    · rintro ⟨_, _, heq, hfollows, hread⟩
      obtain ⟨rfl, rfl⟩ := FlowNode.stateWrite.inj heq
      obtain ⟨i, hi, j, hj, hij⟩ := (ControlGraph.exists_strictlyReaches_iff hc).2 hfollows
      exact ⟨hread, j, hj, i, hi, hij⟩
  · next hx =>
    refine ⟨fun h => by simp at h, ?_⟩
    rintro ⟨site, decl, rfl, -⟩
    exact absurd rfl (hx site decl)

theorem mem_writesAfter_iff (h : (g.writesAfter call).outcome = .ok writes) :
    x ∈ writes ↔ ∃ f, g.owner? call = some f ∧
      ∃ c, (g.controlGraph? g.spliceModifiers f).outcome = .ok (some c) ∧
        ∃ site decl, x = .stateWrite site decl ∧ g.IsStaleWrite f c call site decl := by
  unfold writesAfter at h
  split at h
  · next hnone =>
    obtain rfl := Except.ok.inj h
    simp [hnone]
  · next f hf =>
    obtain ⟨graph, hgraph, h⟩ := Query.outcome_bind_eq_ok.1 h
    simp only [hf, Option.some.injEq, exists_eq_left', hgraph, Except.ok.injEq]
    split at h
    · obtain rfl := Except.ok.inj h
      simp
    · next c =>
      have hc := ControlFlow.sound_of_controlGraph? hgraph
      simp only [Option.some.injEq, exists_eq_left']
      dsimp only at h
      split at h
      · next hpoints =>
        obtain rfl := Except.ok.inj h
        refine ⟨fun hx => by simp at hx, ?_⟩
        rintro ⟨site, decl, -, -, ⟨i, j, hi, -, -⟩, -⟩
        have hmem := ControlGraph.mem_pointsAt_iff.2 hi
        rw [List.isEmpty_iff.1 hpoints] at hmem
        simp at hmem
      · obtain ⟨around, haround, h⟩ := Query.outcome_bind_eq_ok.1 h
        obtain rfl := Except.ok.inj h
        rw [List.mem_filter, mem_nodesAround_iff haround, isWriteAfter_iff hc haround]
        constructor
        · rintro ⟨hx, site, decl, rfl, hfollows, hread⟩
          exact ⟨site, decl, rfl, hx, hfollows, hread⟩
        · rintro ⟨site, decl, rfl, hx, hfollows, hread⟩
          exact ⟨hx, site, decl, rfl, hfollows, hread⟩

theorem answers_writesAfter (h : g.IsLegible) (call : NodeId) : (g.writesAfter call).Answers := by
  have haround (f : CallableId) : (g.nodesAround f).Answers := by
    refine .bind (FlowModel.answers_nodesIn h f) fun own _ => ?_
    refine .bind (Lineage.answers_modifiersOf h f) fun modifiers _ => ?_
    refine .bind (.mapM (Q := fun _ => True) fun m _ => ?_) fun _ _ => .pure trivial
    refine .bind (Linkage.answers_isLock h _) fun lock _ => ?_
    split
    · exact .pure trivial
    · exact FlowModel.answers_nodesIn h _
  unfold writesAfter
  split
  · exact .pure trivial
  · refine .bind (g.answers_controlGraph? _ _) fun graph _ => ?_
    split
    · exact .pure trivial
    · dsimp only
      split
      · exact .pure trivial
      · exact .bind (haround _) fun _ _ => .pure trivial

end FlowGraph

end ContractFlow
