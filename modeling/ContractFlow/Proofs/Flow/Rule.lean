import ContractFlow.Flow.Taint
import ContractFlow.Proofs.Flow.Target

/-! This module contains the rules of flow, one for every way in which a step leads from one flow node to another. -/

namespace ContractFlow

open Outcome (bind_eq_ok pure_eq_ok)

theorem Program.kind_of_stateReadOf {p : Program} {n decl : NodeId} (h : p.stateReadOf n = .ok (some decl)) :
    p.arena.kind n = .identifier := by
  obtain ⟨found, hfound, h⟩ := bind_eq_ok.1 h
  obtain ⟨rfl, -⟩ := Option.filter_eq_some_iff.1 (pure_eq_ok.1 h)
  exact kind_of_findVariable hfound

namespace FlowModel

variable {m : FlowModel} {f : CallableId} {n p site call decl : NodeId} {x y : FlowNode} {i : Int}

inductive LocalRule (m : FlowModel) : FlowNode → FlowNode → Prop
  | whole {n p : NodeId} (hp : m.arena.parent? n = some p) (hexpression : (m.arena.kind p).isExpression = true)
      (hoperation : m.arena.kind p = .binaryOperation ∨ m.arena.kind p = .unaryOperation →
        m.arena.isPropagating p = .ok true) : LocalRule m (.expression n) (.expression p)
  | assigned {n p target : NodeId} {y : FlowNode} (hp : m.arena.parent? n = some p)
      (hkind : m.arena.kind p = .assignment) (htarget : m.arena.child? p "leftHandSide" = some target)
      (hy : m.Receives p target y) : LocalRule m (.expression n) y
  | declared {n p decl : NodeId} {y : FlowNode} (hp : m.arena.parent? n = some p) (hy : m.DefinedAt p decl y) :
      LocalRule m (.expression n) y
  | initial {n p : NodeId} (hp : m.arena.parent? n = some p) (hrole : m.arena.role n = "value")
      (hstate : m.isState p = true) : LocalRule m (.expression n) (.stateWrite p p)
  | component {n p container : NodeId} {i : Int} {y : FlowNode} (hp : m.arena.parent? n = some p)
      (hkind : m.arena.kind p = .tupleExpression) (hcontainer : m.arena.container? p = some container)
      (hy : m.TakenAt container i y) : LocalRule m (.expression n) y
  | returned {n p : NodeId} {f : CallableId} {i : Int} (hp : m.arena.parent? n = some p)
      (hf : m.owner? p = some f) (hi : i = 0 ∨ i = m.arena.roleIndex n) : LocalRule m (.expression n) (.result f i)
  | receiver {n p call : NodeId} {kind : CallKind} (hp : m.arena.parent? n = some p)
      (hkind : m.arena.kind p = .memberAccess) (hcall : m.arena.callSiteOf? p = some call)
      (hcallKind : (m.callKind call).outcome = .ok kind) (hvalue : isValueCall kind = false) :
      LocalRule m (.expression n) (.argument call FlowNode.receiver)
  | argument {n p : NodeId} {kind : CallKind} (hp : m.arena.parent? n = some p)
      (hkind : m.arena.kind p = .functionCall) (hrole : m.arena.role n = "arguments")
      (hcallKind : (m.callKind p).outcome = .ok kind) (hvalue : isValueCall kind = false) :
      LocalRule m (.expression n) (.argument p (m.arena.roleIndex n))
  | held {n p : NodeId} (hp : m.arena.parent? n = some p)
      (hkind : m.arena.kind p = .modifierInvocation ∨ m.arena.kind p = .inheritanceSpecifier)
      (hrole : m.arena.role n = "arguments") : LocalRule m (.expression n) (.argument p (m.arena.roleIndex n))
  | option {n p call : NodeId} {i : Int} (hp : m.arena.parent? n = some p)
      (hkind : m.arena.kind p = .functionCallOptions) (hcall : m.arena.callSiteOf? p = some call)
      (hi : i = FlowNode.value ∨ i = FlowNode.gas) : LocalRule m (.expression n) (.argument call i)
  | entry {f : CallableId} {i d : Nat} {s : SsaForm} (hs : (m.form? f).outcome = .ok (some s))
      (hd : d ∈ s.indices) : LocalRule m (.parameter f i) (definitionNode s d)
  | use {f : CallableId} {d : Nat} {s : SsaForm} {u : NodeId} (hs : (m.form? f).outcome = .ok (some s))
      (hu : u ∈ s.usesOf d) : LocalRule m (.definition f d) (.expression u)
  | merged {f : CallableId} {d e : Nat} {s : SsaForm} (hs : (m.form? f).outcome = .ok (some s))
      (he : e ∈ s.indices) : LocalRule m (.definition f d) (definitionNode s e)
  | exit {f : CallableId} {d : Nat} {decl : NodeId} {p : Parameter} (hp : m.parameterAt? decl = some p) :
      LocalRule m (.definition f d) (.result f p.position)
  | invoked {f : CallableId} {d : Nat} {root n : NodeId}
      (hroot : root ∈ (m.callableD f).invocations.flatMap (·.arguments)) (hn : n ∈ m.arena.walk root)
      (hkind : m.arena.kind n = .identifier) : LocalRule m (.definition f d) (.expression n)
  | value {call : NodeId} : LocalRule m (.callResult call 0) (.expression call)
  | taken {call container : NodeId} {i : Int} {y : FlowNode} (hcontainer : m.arena.container? call = some container)
      (hy : m.TakenAt container i y) : LocalRule m (.callResult call i) y
  | passed {call p : NodeId} {f : CallableId} {i : Int} (hp : m.arena.parent? call = some p)
      (hf : m.owner? p = some f) : LocalRule m (.callResult call i) (.result f i)
  | later {n site u : NodeId} {f : CallableId} {s : SsaForm} {d : Nat} (hf : m.owner? n = some f)
      (hs : (m.form? f).outcome = .ok (some s)) (hu : u ∈ s.usesOf d) :
      LocalRule m (.postUpdate n site) (.expression u)
  | read {n decl : NodeId} : LocalRule m (.stateRead n decl) (.expression n)

inductive TaintRule (m : FlowModel) : FlowNode → FlowNode → Prop
  | whole {n p : NodeId} (hp : m.arena.parent? n = some p)
      (hkind : m.arena.kind p = .assignment ∨ m.arena.kind p = .memberAccess) :
      TaintRule m (.expression n) (.expression p)
  | assigned {n p target : NodeId} {y : FlowNode} (hp : m.arena.parent? n = some p)
      (hkind : m.arena.kind p = .assignment) (htarget : m.arena.child? p "leftHandSide" = some target)
      (hy : m.Receives p target y) : TaintRule m (.expression n) y
  | stepped {n p : NodeId} {y : FlowNode} (hp : m.arena.parent? n = some p)
      (hkind : m.arena.kind p = .unaryOperation) (htext : (m.arena.text p).isOneOf ["++", "--"] = true)
      (hy : m.Receives p n y) : TaintRule m (.expression n) y
  | mixed {call : NodeId} {i : Int} (hkind : m.arena.kind call = .functionCall)
      (hcallKind : (m.callKind call).outcome = .ok .builtin) : TaintRule m (.argument call i) (.callResult call 0)
  | result {call : NodeId} {i : Int} {kind : CallKind} {arity k : Nat} (hkind : m.arena.kind call = .functionCall)
      (hcallKind : (m.callKind call).outcome = .ok kind) (hmade : kind = .builtin ∨ kind = .lowLevel)
      (harity : (m.resultArity call).outcome = .ok arity) (hk : k < arity) :
      TaintRule m (.argument call i) (.callResult call k)
  | pushed {call base : NodeId} {i : Int} {y : FlowNode} (hkind : m.arena.kind call = .functionCall)
      (hcallKind : (m.callKind call).outcome = .ok .builtin) (hname : (m.arena.calledName call == ".push") = true)
      (hbase : m.arena.receiver? call = some base) (hy : m.Writes call base y) : TaintRule m (.argument call i) y
  | extended {call base decl : NodeId} {i : Int} (hkind : m.arena.kind call = .functionCall)
      (hname : (m.arena.calledName call == ".push") = true) (hbase : m.arena.receiver? call = some base)
      (hdecl : m.findVariable base = .ok (some decl)) : TaintRule m (.argument call i) (.postUpdate base call)

inductive JumpRule (m : FlowModel) : FlowNode → FlowNode → Prop
  | parameter {site : NodeId} {i : Int} {f : CallableId} {k : Nat} (hf : f < m.callables.size)
      (hk : k < (m.callableD f).arity) : JumpRule m (.argument site i) (.parameter f k)
  | caller {f : CallableId} {i : Int} {site : NodeId} {es : List CallEdge} {e : CallEdge}
      (hkind : m.arena.kind site = .functionCall) (hes : (m.edges site).outcome = .ok es) (he : e ∈ es)
      (hcallee : e.callee = some f) : JumpRule m (.result f i) (.callResult e.site i)
  | state {site decl n : NodeId} (hread : m.stateReadOf n = .ok (some decl)) :
      JumpRule m (.stateWrite site decl) (.stateRead n decl)

def AllBy (rule : FlowNode → FlowNode → Prop) (x : FlowNode) (ys : List FlowNode) : Prop :=
  ∀ y ∈ ys, rule x y

namespace AllBy

variable {rule : FlowNode → FlowNode → Prop} {ys : List FlowNode}

theorem nil : AllBy rule x [] := by
  simp [AllBy]

theorem singleton (hy : rule x y) : AllBy rule x [y] :=
  List.forall_mem_singleton.2 hy

theorem ite {c : Prop} [Decidable c] (h : c → AllBy rule x ys) : AllBy rule x (if c then ys else []) := by
  split
  · next hc => exact h hc
  · exact nil

end AllBy

section Local

theorem gives_component (hp : m.arena.parent? n = some p) (hkind : m.arena.kind p = .tupleExpression) :
    (m.componentFlows n p).Gives (AllBy m.LocalRule (.expression n)) := by
  have hwhole : m.LocalRule (.expression n) (.expression p) := .whole hp (by rw [hkind]; rfl) (by simp [hkind])
  unfold componentFlows
  simp only
  split
  · exact .pure (.singleton hwhole)
  · split
    · next container hcontainer =>
      exact fun ys hys y hy => .component hp hkind hcontainer (gives_takenAt _ _ ys hys y hy)
    · split
      · exact .pure (List.forall_mem_map.2 fun f hf => .returned hp (Option.mem_toList.1 hf) (.inr rfl))
      · exact .pure (.singleton hwhole)

theorem gives_member (hp : m.arena.parent? n = some p) (hkind : m.arena.kind p = .memberAccess) :
    (m.memberFlows p).Gives (AllBy m.LocalRule (.expression n)) := by
  unfold memberFlows
  split
  · next call hcall =>
    refine .bind fun kind hcallKind => ?_
    split
    · exact .pure (.singleton (.receiver hp hkind hcall hcallKind rfl))
    · exact .pure (.singleton (.receiver hp hkind hcall hcallKind rfl))
    · exact .pure (.singleton (.receiver hp hkind hcall hcallKind rfl))
    · exact .pure .nil
  · refine .bind fun found _ => ?_
    split
    · exact .pure .nil
    · exact .pure (.singleton (.whole hp (by rw [hkind]; rfl) (by simp [hkind])))

theorem allBy_optionFlows (hp : m.arena.parent? n = some p) (hkind : m.arena.kind p = .functionCallOptions) :
    AllBy m.LocalRule (.expression n) (m.optionFlows n p) := by
  unfold optionFlows
  split
  · next call _ _ hcall =>
    split
    · exact .singleton (.option hp hkind hcall (.inl rfl))
    · exact .singleton (.option hp hkind hcall (.inr rfl))
    · exact .nil
  · exact .nil

theorem allBy_returnFlows (hp : m.arena.parent? n = some p) :
    AllBy m.LocalRule (.expression n) (m.returnFlows n p) := by
  unfold returnFlows
  split
  · exact .nil
  · next f hf =>
    split
    · exact .nil
    · exact .singleton (.returned hp hf (.inl rfl))

theorem gives_operation (hp : m.arena.parent? n = some p) (hexpression : (m.arena.kind p).isExpression = true) :
    (do if ← m.arena.isPropagating p then return [.expression p] else return [] : Query (List FlowNode)).Gives
      (AllBy m.LocalRule (.expression n)) := by
  refine .bind fun found hfound => ?_
  split
  · next htrue => exact .pure (.singleton (.whole hp hexpression fun _ => htrue ▸ hfound))
  · exact .pure .nil

theorem gives_expression (n : NodeId) : (m.expressionFlows n).Gives (AllBy m.LocalRule (.expression n)) := by
  unfold expressionFlows
  simp only
  split
  · exact .pure .nil
  · next p hp =>
    have hwhole {k : Kind} (hkind : m.arena.kind p = k) (hexpression : k.isExpression = true)
        (hplain : k ≠ .binaryOperation ∧ k ≠ .unaryOperation) : m.LocalRule (.expression n) (.expression p) :=
      .whole hp (hkind ▸ hexpression) fun hk => by simp [hkind, hplain] at hk
    -- where the value goes is up to the kind of node that the expression is a part of
    split
    · next hkind =>
      have hwhole := hwhole hkind rfl (by decide)
      split
      · split
        · exact .pure (.singleton hwhole)
        · next target htarget =>
          split
          · exact .pure (.singleton hwhole)
          · refine .bind fun found hfound => .pure (List.forall_mem_cons.2 ⟨hwhole, fun y hy => ?_⟩)
            exact .assigned hp hkind htarget (gives_receives _ _ found hfound y hy)
      · exact .pure .nil
    · split
      · exact fun ys hys y hy => .declared hp (gives_definedAt _ _ ys hys y hy)
      · exact .pure .nil
    · refine .pure (.ite fun hvalue => .singleton ?_)
      obtain ⟨hrole, hstate⟩ := Bool.and_eq_true_iff.1 hvalue
      exact .initial hp (eq_of_beq hrole) hstate
    · next hkind => exact gives_component hp hkind
    · next hkind => exact .pure (.ite fun _ => .singleton (hwhole hkind rfl (by decide)))
    · next hkind => exact .pure (.ite fun _ => .singleton (hwhole hkind rfl (by decide)))
    · next hkind => exact .pure (.ite fun _ => .singleton (hwhole hkind rfl (by decide)))
    · next hkind => exact gives_member hp hkind
    · next hkind =>
      split
      · next hrole =>
        refine .bind fun kind hcallKind => .pure ?_
        split
        · exact .singleton (hwhole hkind rfl (by decide))
        · next hvalue => exact .singleton (.argument hp hkind (eq_of_beq hrole) hcallKind (by simpa using hvalue))
      · exact .pure .nil
    · next hkind => exact .pure (.ite fun _ => allBy_optionFlows hp hkind)
    · next hkind => exact .pure (.ite fun hrole => .singleton (.held hp (.inl hkind) (eq_of_beq hrole)))
    · next hkind => exact .pure (.ite fun hrole => .singleton (.held hp (.inr hkind) (eq_of_beq hrole)))
    · next hkind => exact gives_operation hp (by rw [hkind]; rfl)
    · next hkind => exact gives_operation hp (by rw [hkind]; rfl)
    · exact .pure (.ite fun _ => allBy_returnFlows hp)
    · exact .pure .nil

theorem gives_definition (f : CallableId) (d : Nat) :
    (m.definitionFlows f d).Gives (AllBy m.LocalRule (.definition f d)) := by
  refine .bind fun form hs => ?_
  split
  · exact .pure .nil
  · next s =>
    extract_lets x uses merging returned
    have huses : AllBy m.LocalRule (.definition f d) uses := List.forall_mem_map.2 fun u hu => .use hs hu
    have hmerging : AllBy m.LocalRule (.definition f d) merging :=
      List.forall_mem_map.2 fun phi hphi => .merged hs (List.mem_of_mem_filter (List.mem_of_mem_filter hphi))
    have hreturned : AllBy m.LocalRule (.definition f d) returned := by
      unfold returned
      split
      · next p hp => exact .ite fun _ => .singleton (.exit hp)
      · exact .nil
    have hinside := List.forall_mem_append.2 ⟨List.forall_mem_append.2 ⟨huses, hmerging⟩, hreturned⟩
    split
    · refine .bind fun reads hreads => .pure (List.forall_mem_append.2 ⟨hinside, List.forall_mem_map.2 ?_⟩)
      intro n hn
      obtain ⟨hmem, htrue⟩ := (Outcome.mem_of_filterM_eq_ok hreads n).1 hn
      obtain ⟨root, hroot, hwalk⟩ := List.mem_flatMap.1 hmem
      obtain ⟨found, hfound, heq⟩ := bind_eq_ok.1 htrue
      have hsome : found = some x.variableNode := by simpa using pure_eq_ok.1 heq
      exact .invoked hroot hwalk (Program.kind_of_findVariable (hsome ▸ hfound))
    · exact .pure (List.forall_mem_append.2 ⟨hinside, AllBy.nil⟩)

theorem gives_parameter (f : CallableId) (i : Nat) :
    (m.parameterFlows f i).Gives (AllBy m.LocalRule (.parameter f i)) := by
  unfold parameterFlows
  split
  · exact .pure .nil
  · refine .bind fun form hs => ?_
    split
    · exact .pure .nil
    · refine .pure (List.forall_mem_map.2 fun d hd => .entry hs ?_)
      exact List.mem_of_find?_eq_some (Option.mem_toList.1 hd)

theorem gives_callResult (call : NodeId) (i : Int) :
    (m.callResultFlows call i).Gives (AllBy m.LocalRule (.callResult call i)) := by
  have hplain : AllBy m.LocalRule (.callResult call i) (if i = 0 then [FlowNode.expression call] else []) := by
    refine .ite fun hi => .singleton ?_
    rw [hi]
    exact .value
  unfold callResultFlows
  simp only
  split
  · next container hcontainer => exact fun ys hys y hy => .taken hcontainer (gives_takenAt _ _ ys hys y hy)
  · split
    · exact .pure hplain
    · next p hp =>
      split
      · next f hf =>
        refine .pure ?_
        split
        · split at hf
          · exact .singleton (.passed hp hf)
          · simp at hf
        · exact hplain
      · exact .pure hplain

theorem gives_postUpdate (n site : NodeId) :
    (m.postUpdateFlows n site).Gives (AllBy m.LocalRule (.postUpdate n site)) := by
  refine .bind fun form hform => ?_
  split
  · exact .pure .nil
  · obtain ⟨f, hf, hs⟩ := owner?_of_formAround hform
    split
    · exact .pure (List.forall_mem_map.2 fun u hu => .later hf hs (List.mem_of_mem_filter hu))
    · exact .pure .nil

theorem gives_localRule (x : FlowNode) : (m.localFlows x).Gives (AllBy m.LocalRule x) := by
  cases x with
  | expression n => exact gives_expression n
  | parameter f i => exact gives_parameter f i
  | definition f d => exact gives_definition f d
  | callResult call i => exact gives_callResult call i
  | postUpdate n site => exact gives_postUpdate n site
  | stateRead n decl => exact .pure (.singleton .read)
  | result | argument | stateWrite => exact .pure .nil

end Local

section Taint

theorem gives_expressionTaint (n : NodeId) : (m.expressionTaint n).Gives (AllBy m.TaintRule (.expression n)) := by
  unfold expressionTaint
  simp only
  split
  · exact .pure .nil
  · next p hp =>
    split
    · next hkind =>
      split
      · exact .pure .nil
      · split
        · exact .pure .nil
        · next target htarget =>
          refine .bind fun found hfound => .pure (List.forall_mem_cons.2 ⟨.whole hp (.inl hkind), fun y hy => ?_⟩)
          exact .assigned hp hkind htarget (gives_receives _ _ found hfound y hy)
    · next hkind =>
      split
      · next htext => exact fun ys hys y hy => .stepped hp hkind htext (gives_receives _ _ ys hys y hy)
      · exact .pure .nil
    · next hkind => exact .pure (.ite fun _ => .singleton (.whole hp (.inr hkind)))
    · exact .pure .nil

theorem gives_results {kind : CallKind} (hkind : m.arena.kind call = .functionCall)
    (hcallKind : (m.callKind call).outcome = .ok kind) (hmade : kind = .builtin ∨ kind = .lowLevel) :
    (m.allResults call).Gives (AllBy m.TaintRule (.argument call i)) := by
  refine .bind fun arity harity => .pure (List.forall_mem_map.2 fun j hj => ?_)
  obtain ⟨k, hk, rfl⟩ := List.mem_map.1 hj
  exact .result hkind hcallKind hmade harity (List.mem_range.1 hk)

theorem gives_push {base : NodeId} (hkind : m.arena.kind call = .functionCall)
    (hcallKind : (m.callKind call).outcome = .ok .builtin) (hname : (m.arena.calledName call == ".push") = true)
    (hbase : m.arena.receiver? call = some base) :
    (liftM (m.pushTargets base call) : Query _).Gives (AllBy m.TaintRule (.argument call i)) := by
  intro ys hys
  obtain ⟨written, hwritten, hys⟩ := bind_eq_ok.1 hys
  obtain ⟨found, hfound, hys⟩ := bind_eq_ok.1 hys
  obtain rfl := pure_eq_ok.1 hys
  refine List.forall_mem_append.2 ⟨fun y hy => ?_, ?_⟩
  · exact .pushed hkind hcallKind hname hbase (writes_of_mem_writeNodes hwritten hy)
  · refine AllBy.ite fun hlocal => .singleton ?_
    cases found with
    | none => simp at hlocal
    | some decl => exact .extended hkind hname hbase hfound

theorem gives_argumentTaint (call : NodeId) (i : Int) :
    (m.argumentTaint call i).Gives (AllBy m.TaintRule (.argument call i)) := by
  unfold argumentTaint
  split
  · exact .pure .nil
  · next hkind =>
    have hkind : m.arena.kind call = .functionCall := by simpa using hkind
    refine .bind fun kind hcallKind => ?_
    split
    · unfold builtinTaint
      simp only
      split
      · exact .pure (.singleton (.mixed hkind hcallKind))
      · split
        · exact gives_results hkind hcallKind (.inl rfl)
        · split
          · next hpush =>
            split
            · exact .pure .nil
            · next base hbase => exact gives_push hkind hcallKind (Bool.and_eq_true_iff.1 hpush).1 hbase
          · exact .pure .nil
    · dsimp only
      split
      · exact gives_results hkind hcallKind (.inr rfl)
      · exact .pure .nil
    · exact .pure .nil

theorem gives_taintRule (x : FlowNode) : (m.taintFlows x).Gives (AllBy m.TaintRule x) := by
  cases x with
  | expression n => exact gives_expressionTaint n
  | argument call i => exact gives_argumentTaint call i
  | parameter | definition | result | callResult | postUpdate | stateRead | stateWrite => exact .pure .nil

end Taint

section Jump

theorem gives_callers (f : CallableId) (i : Int) :
    (do return (← m.callersOf f).map (.callResult · i) : Query (List FlowNode)).Gives
      (AllBy m.JumpRule (.result f i)) := by
  refine .bind fun callers hcallers => .pure (List.forall_mem_map.2 fun call hcall => ?_)
  obtain ⟨edges, hedges, hcallers⟩ := Query.outcome_bind_eq_ok.1 hcallers
  obtain rfl := Except.ok.inj hcallers
  obtain ⟨e, he, rfl⟩ := List.mem_map.1 hcall
  obtain ⟨he, hcallee⟩ := List.mem_filter.1 he
  obtain ⟨site, hsite, es, hes, he⟩ := (Query.mem_flatten_iff hedges).1 he
  exact .caller (eq_of_beq (List.mem_filter.1 hsite).2) hes he (eq_of_beq hcallee)

theorem gives_state (site decl : NodeId) :
    (liftM (m.stateFlows site decl) : Query _).Gives (AllBy m.JumpRule (.stateWrite site decl)) := by
  intro ys hys
  obtain ⟨reads, hreads, hys⟩ := bind_eq_ok.1 hys
  obtain rfl := pure_eq_ok.1 hys
  refine List.forall_mem_map.2 fun n hn => .state ?_
  obtain ⟨-, htrue⟩ := (Outcome.mem_of_filterM_eq_ok hreads n).1 (List.mem_of_mem_filter hn)
  obtain ⟨found, hfound, htrue⟩ := bind_eq_ok.1 htrue
  exact hfound.trans (congrArg Except.ok (eq_of_beq (pure_eq_ok.1 htrue)))

theorem gives_jumpRule (x : FlowNode) : (m.jumpFlows x).Gives (AllBy m.JumpRule x) := by
  cases x with
  | argument site i =>
    intro ys hys y hy
    obtain ⟨f, k, hf, hk, rfl⟩ := gives_parameters site i ys hys y hy
    exact .parameter hf hk
  | result f i => exact gives_callers f i
  | stateWrite site decl => exact gives_state site decl
  | expression | parameter | definition | callResult | postUpdate | stateRead => exact .pure .nil

end Jump

theorem localRule_of_mem (hy : y ∈ (m.localFlows x).getD []) : m.LocalRule x y := by
  obtain ⟨ys, hys, hy⟩ := Query.mem_getD_nil_iff.1 hy
  exact gives_localRule x ys hys y hy

theorem taintRule_of_mem (hy : y ∈ (m.taintFlows x).getD []) : m.TaintRule x y := by
  obtain ⟨ys, hys, hy⟩ := Query.mem_getD_nil_iff.1 hy
  exact gives_taintRule x ys hys y hy

theorem jumpRule_of_mem (hy : y ∈ (m.jumpFlows x).getD []) : m.JumpRule x y := by
  obtain ⟨ys, hys, hy⟩ := Query.mem_getD_nil_iff.1 hy
  exact gives_jumpRule x ys hys y hy

end FlowModel

end ContractFlow
