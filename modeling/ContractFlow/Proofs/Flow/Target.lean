import ContractFlow.Flow.Universe
import ContractFlow.Proofs.Ssa.Exact
import ContractFlow.Proofs.Syntax.Shape

/-! This module shows what a value can be assigned to. -/

namespace ContractFlow

open Outcome (bind_eq_ok pure_eq_ok)

namespace Arena

variable {a : Arena} {n r root : NodeId}

/-- A path of members, indices and parentheses that starts with the identifier `root`. -/
inductive IsPath (a : Arena) (root : NodeId) : NodeId → Prop
  | name : a.kind root = .identifier → IsPath a root root
  | index {n base : NodeId} : a.kind n = .indexAccess ∨ a.kind n = .indexRangeAccess →
      a.child? n "baseExpression" = some base → IsPath a root base → IsPath a root n
  | member {n base : NodeId} : a.kind n = .memberAccess →
      a.child? n "expression" = some base → IsPath a root base → IsPath a root n
  | parentheses {n inner : NodeId} : a.kind n = .tupleExpression →
      a.entries n "components" = [some inner] → IsPath a root inner → IsPath a root n

theorem IsPath.rootExpression? (h : a.IsPath root n) : a.rootExpression? n = some root := by
  induction h with
  | name hkind =>
    rw [Arena.rootExpression?]
    simp [hkind]
  | index hkind hbase _ ih =>
    rw [Arena.rootExpression?]
    rcases hkind with hkind | hkind
    · simp only [hkind]
      split <;> simp_all
    · simp only [hkind]
      split <;> simp_all
  | member hkind hbase _ ih =>
    rw [Arena.rootExpression?]
    simp only [hkind]
    split <;> simp_all
  | parentheses hkind hinner _ ih =>
    rw [Arena.rootExpression?]
    simp only [hkind]
    split <;> simp_all [inner?]

theorem isPath_of_rootExpression? (h : a.rootExpression? n = some root) : a.IsPath root n := by
  fun_induction rootExpression? a n with
  | case1 n hkind =>
    obtain rfl := Option.some.inj h
    exact .name hkind
  | case2 | case4 | case6 | case8 | case10 => simp at h
  | case3 n hkind c hc _ ih => exact .index (.inl hkind) hc (ih h)
  | case5 n hkind c hc _ ih => exact .index (.inr hkind) hc (ih h)
  | case7 n hkind c hc _ ih => exact .member hkind hc (ih h)
  | case9 n hkind c hc _ ih =>
    refine .parentheses hkind ?_ (ih h)
    unfold inner? at hc
    split at hc
    · next entry hentries => rw [hentries, hc]
    · simp at hc

theorem IsPath.below_root (h : a.IsPath root n) : a.Below n root := by
  induction h with
  | name => exact .refl
  | index _ hbase _ ih | member _ hbase _ ih => exact .head (parent?_of_child? hbase).1 ih
  | parentheses _ hinner _ ih => exact .head (parent?_of_mem_entries (hinner ▸ List.mem_singleton_self _)).1 ih

theorem IsPath.eq_root (h : a.IsPath root n) (hkind : a.kind n = .identifier) : n = root := by
  cases h with
  | name => rfl
  | index hn | member hn | parentheses hn => simp [hkind] at hn

theorem kind_rootExpression? (h : a.rootExpression? n = some r) : a.kind r = .identifier := by
  fun_induction rootExpression? a n <;> simp_all

theorem of_container? (h : a.container? n = some r) : a.parent? n = some r ∧ (a.kind r = .tryStatement ∨
    1 < (a.slots r).length ∧ (a.kind r = .variableDeclarationStatement ∨ a.kind r = .assignment ∧
      ∃ target, a.child? r "leftHandSide" = some target ∧ a.kind target = .tupleExpression)) := by
  unfold container? at h
  split at h
  · simp at h
  · next p hp =>
    split at h
    · next hk =>
      simp only [Option.ite_none_right_eq_some, Bool.and_eq_true, decide_eq_true_eq, Option.some.injEq] at h
      obtain ⟨⟨-, hcount⟩, rfl⟩ := h
      exact ⟨hp, .inr ⟨by simpa only [slots, hk] using hcount, .inl hk⟩⟩
    · next hk =>
      split at h
      · split at h
        · simp at h
        · next target htarget =>
          simp only [Option.ite_none_right_eq_some, Bool.and_eq_true, decide_eq_true_eq, Option.some.injEq] at h
          obtain ⟨⟨htuple, hcount⟩, rfl⟩ := h
          exact ⟨hp, .inr ⟨by simpa only [slots, hk, htarget] using hcount,
            .inr ⟨hk, target, htarget, eq_of_beq htuple⟩⟩⟩
      · simp at h
    · next hk =>
      obtain ⟨-, h⟩ := Option.ite_none_right_eq_some.1 h
      exact ⟨hp.trans h, .inl (Option.some.inj h ▸ hk)⟩
    · simp at h

theorem parent?_of_container? (h : a.container? n = some r) : a.parent? n = some r :=
  (of_container? h).1

end Arena

namespace Program

variable {p : Program} {n d : NodeId} {f : CallableId}

theorem isState_of_isLocal (h : p.isLocal n = true) : p.isState n = false := by
  unfold isLocal at h
  unfold isState
  split at h
  · next hscope => rw [hscope]; rfl
  · next hscope => rw [hscope]; rfl
  · next hscope => rw [hscope]; rfl
  · simp at h

theorem parent?_of_isState (h : p.isState n = true) : p.arena.kind n = .variableDeclaration ∧
    ∃ above, p.arena.parent? n = some above ∧ p.arena.kind above = .contractDefinition := by
  have hscope : p.scope? n = some .state := eq_of_beq h
  unfold scope? at hscope
  simp only at hscope
  split at hscope
  · simp at hscope
  · next hk =>
    refine ⟨by simpa using hk, ?_⟩
    split at hscope
    · next hany =>
      obtain ⟨above, habove, hcontract⟩ := (Option.any_eq_true _ _).1 hany
      exact ⟨above, habove, eq_of_beq hcontract⟩
    · split at hscope
      · split at hscope <;> simp at hscope
      · simp at hscope

theorem kind_of_findVariable_eq (h : p.findVariable n = .ok (some d)) : p.arena.kind d = .variableDeclaration := by
  have hd := findVariable_eq h
  unfold variableOf? at hd
  split at hd
  · exact eq_of_beq (Option.filter_eq_some_iff.1 hd).2
  · simp at hd

theorem lt_size_of_findVariable (h : p.findVariable n = .ok (some d)) : d < p.arena.size :=
  Arena.lt_size_of_kind (kind_of_findVariable_eq h) (by decide)

theorem lt_size_of_owner? (h : p.owner? n = some f) : f < p.callables.size := by
  obtain ⟨hholder, -⟩ := Option.filter_eq_some_iff.1 h
  rw [holder?, Memo.get_eq] at hholder
  obtain ⟨m, -, hm⟩ := List.exists_of_findSome?_eq_some hholder
  exact List.mem_range.1 (List.mem_of_find?_eq_some hm)

end Program

namespace FlowModel

variable {m : FlowModel} {f : CallableId} {site decl target inner : NodeId} {s : SsaForm} {x : FlowNode}
  {xs : List FlowNode}

theorem callable_of_form? {v : ValueFlow} (hs : (v.form? f).outcome = .ok (some s)) : s.graph.callable = f := by
  rw [ControlFlow.eq_of_controlGraph? (ValueFlow.outcome_form?_eq_some.1 hs).1]
  rfl

inductive WriteAt (m : FlowModel) (site : NodeId) : FlowNode → Prop
  | state {decl : NodeId} (hdecl : decl < m.arena.size) : WriteAt m site (.stateWrite site decl)
  | element {root : NodeId} (hroot : m.arena.kind root = .identifier) : WriteAt m site (.postUpdate root site)

inductive DefinedAt (m : FlowModel) (site decl : NodeId) : FlowNode → Prop
  | intro {f : CallableId} {s : SsaForm} {d : Nat} (howner : m.owner? site = some f)
      (hs : (m.form? f).outcome = .ok (some s)) (hd : s.definitionAt? site decl = some d) :
      DefinedAt m site decl (definitionNode s d)

theorem owner?_of_formAround (hs : (m.formAround site).outcome = .ok (some s)) :
    ∃ f, m.owner? site = some f ∧ (m.form? f).outcome = .ok (some s) := by
  unfold formAround at hs
  split at hs
  · simp at hs
  · next f hf => exact ⟨f, hf, hs⟩

theorem gives_definedAt (site decl : NodeId) :
    (m.definitionTarget site decl).Gives fun xs => ∀ x ∈ xs, m.DefinedAt site decl x := by
  refine .bind fun form hform => ?_
  split
  · exact .pure (by simp)
  · obtain ⟨f, hf, hs⟩ := owner?_of_formAround hform
    exact .pure (List.forall_mem_map.2 fun d hd => .intro hf hs (Option.mem_toList.1 hd))

inductive Writes (m : FlowModel) (site target : NodeId) : FlowNode → Prop
  | state {root decl : NodeId} (hroot : m.arena.rootExpression? target = some root)
      (hdecl : m.findVariable root = .ok (some decl)) (hstate : m.isState decl = true) :
      Writes m site target (.stateWrite site decl)
  | element {root decl : NodeId} (hroot : m.arena.rootExpression? target = some root)
      (hdecl : m.findVariable root = .ok (some decl)) (hstate : m.isState decl = false)
      (hlocal : m.isLocal decl = true) (hne : root ≠ target) : Writes m site target (.postUpdate root site)

theorem Writes.exists_mem (h : m.Writes site target x) : ∃ xs, m.writeNodes site target = .ok xs ∧ x ∈ xs := by
  cases h with
  | state hroot hdecl hstate =>
    refine ⟨_, ?_, List.mem_singleton_self _⟩
    unfold writeNodes
    rw [hroot]
    exact Outcome.bind_eq_ok.2 ⟨_, hdecl, by simp [hstate, pure, Except.pure]⟩
  | element hroot hdecl hstate hlocal hne =>
    refine ⟨_, ?_, List.mem_singleton_self _⟩
    unfold writeNodes
    rw [hroot]
    exact Outcome.bind_eq_ok.2 ⟨_, hdecl, by simp [hstate, hlocal, hne, pure, Except.pure]⟩

theorem Writes.of_inner (hkind : m.arena.kind target = .tupleExpression) (hinner : m.arena.inner? target = some inner)
    (h : m.Writes site inner x) : m.Writes site target x := by
  have hroots : m.arena.rootExpression? target = m.arena.rootExpression? inner := by
    rw [Arena.rootExpression?]
    split <;> simp_all
    split <;> simp_all
  cases h with
  | state hroot hdecl hstate => exact .state (hroots.trans hroot) hdecl hstate
  | element hroot hdecl hstate hlocal _ =>
    have hlt := (Arena.lt_of_inner? hinner).1
    exact .element (hroots.trans hroot) hdecl hstate hlocal
      (Nat.ne_of_gt (Nat.lt_of_lt_of_le hlt (Arena.isPath_of_rootExpression? hroot).below_root.le))

inductive Assigned (m : FlowModel) (site target : NodeId) (x : FlowNode) : Prop
  | plain (hkind : m.arena.kind target ≠ .tupleExpression) (hx : m.Writes site target x)
  | within {inner : NodeId} (hkind : m.arena.kind target = .tupleExpression)
      (hinner : m.arena.inner? target = some inner) (hx : m.Writes site inner x)

theorem Assigned.writes (h : m.Assigned site target x) : m.Writes site target x := by
  cases h with
  | plain _ hx => exact hx
  | within hkind hinner hx => exact hx.of_inner hkind hinner

def Receives (m : FlowModel) (site target : NodeId) (x : FlowNode) : Prop :=
  (∃ decl, m.DefinedAt site decl x) ∨ m.Assigned site target x

theorem gives_receives (target : Nat) (site : NodeId) :
    (m.assignmentTargets target site).Gives fun xs => ∀ x ∈ xs, m.Receives site target x := by
  unfold assignmentTargets
  extract_lets direct
  have hdirect (hkind : (m.arena.rootExpression? target).isSome = true → m.arena.kind target ≠ .tupleExpression) :
      direct.Gives fun xs => ∀ x ∈ xs, m.Receives site target x := by
    unfold direct
    split
    · exact .pure (by simp)
    · next root hroot =>
      have hkind := hkind (by rw [hroot]; rfl)
      refine .bind fun found hfound => ?_
      split
      · exact .pure (by simp)
      · split
        · next hstate =>
          exact .pure (List.forall_mem_singleton.2 (.inr (.plain hkind (.state hroot hfound hstate))))
        · next hstate =>
          split
          · exact .pure (by simp)
          · next hlocal =>
            split
            · exact fun xs hxs x hx => .inl ⟨_, gives_definedAt _ _ xs hxs x hx⟩
            · next hne =>
              refine .pure (List.forall_mem_singleton.2 (.inr (.plain hkind ?_)))
              exact .element hroot hfound (by simpa using hstate) (by simpa using hlocal) (by simpa using hne)
  split
  · next htuple =>
    have htuple : m.arena.kind target = .tupleExpression := eq_of_beq htuple
    split
    · next inner hentries =>
      have hc : some inner ∈ m.arena.entries target "components" := by simp [hentries]
      have := m.arena.lt_of_mem_entries hc
      intro xs hxs x hx
      refine (gives_receives inner site xs hxs x hx).imp_right fun hinner => ?_
      exact .within htuple (by rw [Arena.inner?, hentries]) hinner.writes
    · exact .pure (by simp)
    · next hone hnone =>
      -- only parentheses around one component have a root
      refine hdirect fun hroot => absurd hroot ?_
      have hinner : m.arena.inner? target = none := by
        unfold Arena.inner?
        split
        · next entry hentry =>
          cases entry with
          | none => rfl
          | some inner => exact absurd hentry (hone inner)
        · rfl
      rw [Arena.rootExpression?]
      split <;> simp_all
      split <;> simp_all
  · next htuple => exact hdirect fun _ => by simpa using htuple
termination_by m.arena.size - target

theorem Writes.writeAt (h : m.Writes site target x) : m.WriteAt site x := by
  cases h with
  | state _ hdecl _ => exact .state (Program.lt_size_of_findVariable hdecl)
  | element hroot => exact .element (Arena.kind_rootExpression? hroot)

theorem writes_of_mem_writeNodes (h : m.writeNodes site target = .ok xs) (hx : x ∈ xs) : m.Writes site target x := by
  unfold writeNodes at h
  split at h
  · obtain rfl := Except.ok.inj h
    simp at hx
  · next root hroot =>
    obtain ⟨found, hfound, h⟩ := bind_eq_ok.1 h
    split at h
    · obtain rfl := pure_eq_ok.1 h
      simp at hx
    · split at h
      · next hstate =>
        obtain rfl := pure_eq_ok.1 h
        rw [List.mem_singleton.1 hx]
        exact .state hroot hfound hstate
      · next hstate =>
        split at h
        · next hlocal =>
          obtain rfl := pure_eq_ok.1 h
          rw [List.mem_singleton.1 hx]
          obtain ⟨hlocal, hne⟩ := Bool.and_eq_true_iff.1 hlocal
          exact .element hroot hfound (by simpa using hstate) hlocal (by simpa using hne)
        · obtain rfl := pure_eq_ok.1 h
          simp at hx

theorem writeAt_of_mem_writeNodes (h : m.writeNodes site target = .ok xs) (hx : x ∈ xs) : m.WriteAt site x :=
  (writes_of_mem_writeNodes h hx).writeAt

inductive TakenAt (m : FlowModel) (container : NodeId) (position : Int) (x : FlowNode) : Prop
  | declared {slot : NodeId} (hslot : m.arena.slot? container position = some slot)
      (hx : m.DefinedAt container slot x)
  | assigned {slot : NodeId} (hslot : m.arena.slot? container position = some slot)
      (hkind : m.arena.kind container = .assignment)
      (hx : m.Receives container slot x)
  | caught {slot clause : NodeId} (hslot : m.arena.slot? container position = some slot)
      (hdeclaration : m.arena.kind container ≠ .variableDeclarationStatement)
      (hassignment : m.arena.kind container ≠ .assignment)
      (hclause : m.arena.firstClause? container = some clause) (hx : m.DefinedAt clause slot x)

theorem gives_takenAt (container : NodeId) (position : Int) :
    (m.slotTargets container position).Gives fun xs => ∀ x ∈ xs, m.TakenAt container position x := by
  unfold slotTargets
  split
  · exact .pure (by simp)
  · next slot hslot =>
    split
    · exact fun xs hxs x hx => .declared hslot (gives_definedAt _ _ xs hxs x hx)
    · next hkind => exact fun xs hxs x hx => .assigned hslot hkind (gives_receives _ _ xs hxs x hx)
    · next hdeclaration hassignment =>
      split
      · exact .pure (by simp)
      · next clause hclause =>
        exact fun xs hxs x hx =>
          .caught hslot hdeclaration hassignment hclause (gives_definedAt _ _ xs hxs x hx)

def AreParameters (m : FlowModel) (xs : List FlowNode) : Prop :=
  ∀ x ∈ xs, ∃ f k, f < m.callables.size ∧ k < (m.callableD f).arity ∧ x = .parameter f k

theorem areParameters_nil : m.AreParameters [] := by
  simp [AreParameters]

theorem areParameters_parameterNode (f : CallableId) (i : Int) : m.AreParameters (m.parameterNode f i) := by
  intro x hx
  unfold parameterNode at hx
  split at hx
  · next hi =>
    simp only [Bool.and_eq_true, decide_eq_true_eq] at hi
    have hf : f < m.callables.size := by
      by_contra hf
      rw [Outline.callableD_of_not_lt hf] at hi
      exact absurd hi.2 (Int.not_lt.2 hi.1)
    exact ⟨f, i.toNat, hf, by omega, List.mem_singleton.1 hx⟩
  · simp at hx

theorem gives_parameters_constructor (contract : Value) (i : Int) :
    (liftM (m.constructorTargets contract i) : Query _).Gives m.AreParameters := by
  intro xs hxs
  obtain ⟨found, -, hxs⟩ := bind_eq_ok.1 hxs
  split at hxs
  · obtain rfl := pure_eq_ok.1 hxs
    exact areParameters_nil
  · obtain rfl := pure_eq_ok.1 hxs
    exact areParameters_parameterNode _ _

theorem gives_parameters_invocation (site : NodeId) (i : Int) : (m.invocationTargets site i).Gives m.AreParameters := by
  unfold invocationTargets
  simp only
  split
  · exact .pure areParameters_nil
  · refine .bind fun found _ => ?_
    split
    all_goals
      refine .bind fun target _ => ?_
      split
      · exact .pure areParameters_nil
      · exact .pure (areParameters_parameterNode _ _)

theorem gives_parameters (site : NodeId) (i : Int) : (m.argumentTargets site i).Gives m.AreParameters := by
  unfold argumentTargets
  split
  · exact gives_parameters_invocation site i
  · exact gives_parameters_constructor _ i
  · refine .bind fun kind _ => ?_
    split
    · exact gives_parameters_constructor _ i
    · refine .bind fun edges _ => .pure fun x hx => ?_
      obtain ⟨e, -, hx⟩ := List.mem_flatMap.1 hx
      unfold edgeTargets at hx
      split at hx
      · simp at hx
      · split at hx
        · split at hx
          · exact areParameters_parameterNode _ _ x hx
          · simp at hx
        · split at hx
          · simp at hx
          · exact areParameters_parameterNode _ _ x hx

end FlowModel

end ContractFlow
