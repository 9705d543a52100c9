import ContractFlow.Proofs.Flow.Answer
import ContractFlow.Proofs.Flow.Place

/-! This module tells which flow nodes a program has. -/

namespace ContractFlow

open Outcome (Succeeds bind_eq_ok pure_eq_ok)

def FlowNode.optionPositions : List (String × Int) :=
  [("value", value), ("gas", gas)]

theorem FlowNode.mem_positions_iff {count : Nat} {i : Int} : i ∈ positions count ↔ ∃ k < count, (k : Int) = i := by
  unfold positions
  simp

theorem Query.mem_flatten_iff_of_mapM {α β : Type} {f : α → Query (List β)} {xs : List α} {all : List (List β)} {y : β}
    {P : α → Prop} (h : (xs.mapM f).outcome = .ok all)
    (hP : ∀ x ∈ xs, ∀ ys, (f x).outcome = .ok ys → (y ∈ ys ↔ P x)) : y ∈ all.flatten ↔ ∃ x ∈ xs, P x := by
  rw [mem_flatten_iff h]
  rw [outcome_mapM] at h
  refine exists_congr fun x => and_congr_right fun hx => ?_
  obtain ⟨ys, hys⟩ := Outcome.exists_mapM_eq_ok.1 ⟨all, h⟩ x hx
  simp [← hP x hx ys hys, hys]

namespace FlowModel

variable {m : FlowModel} {f : CallableId} {n call site decl target root : NodeId} {kind : CallKind} {x : FlowNode}
  {xs : List FlowNode}

def rootsOf (m : FlowModel) (f : CallableId) : List NodeId :=
  (m.callableD f).body.toList ++ (m.callableD f).invocations.flatMap (·.arguments)

theorem mem_allWriteNodes_iff {targets : List NodeId} (h : m.allWriteNodes site targets = .ok xs) :
    x ∈ xs ↔ ∃ target ∈ targets, ∃ ys, m.writeNodes site target = .ok ys ∧ x ∈ ys := by
  obtain ⟨all, hall, h⟩ := bind_eq_ok.1 h
  obtain rfl := pure_eq_ok.1 h
  exact Outcome.mem_flatten_of_mapM_eq_ok hall

inductive CallNode (m : FlowModel) (call : NodeId) (kind : CallKind) : FlowNode → Prop
  | argument {k : Nat} (hk : k < (m.arena.callArguments call).length) : CallNode m call kind (.argument call k)
  | receiver (hmember : (m.arena.calledMember? call).isSome = true) :
      CallNode m call kind (.argument call FlowNode.receiver)
  | option {options : NodeId} {o : String × Int} (hoptions : m.arena.child? call "expression" = some options)
      (hkind : m.arena.kind options = .functionCallOptions) (ho : o ∈ FlowNode.optionPositions)
      (hhas : m.hasOption options o.1 = .ok true) : CallNode m call kind (.argument call o.2)
  | result {arity k : Nat} (hevent : kind ≠ .event ∧ kind ≠ .error)
      (harity : (m.resultArity call).outcome = .ok arity) (hk : k < arity) : CallNode m call kind (.callResult call k)
  | pushed {base : NodeId} {xs : List FlowNode} {x : FlowNode} (hbuiltin : kind = .builtin)
      (hpush : (m.arena.memberName call == "push") = true) (hbase : m.arena.receiver? call = some base)
      (hxs : m.writeNodes call base = .ok xs) (hx : x ∈ xs) : CallNode m call kind x

theorem mem_optionNodes_iff (h : m.optionNodes call = .ok xs) :
    x ∈ xs ↔ ∃ options, m.arena.child? call "expression" = some options ∧
      m.arena.kind options = .functionCallOptions ∧
      ∃ o ∈ FlowNode.optionPositions, m.hasOption options o.1 = .ok true ∧ x = .argument call o.2 := by
  unfold optionNodes at h
  split at h
  · next hnone =>
    obtain rfl := Except.ok.inj h
    refine ⟨by simp, ?_⟩
    rintro ⟨options, hoptions, hkind, -⟩
    simp [hoptions, hkind] at hnone
  · next options hsome =>
    obtain ⟨hoptions, hkind⟩ := Option.filter_eq_some_iff.1 hsome
    obtain ⟨value, hvalue, h⟩ := bind_eq_ok.1 h
    obtain ⟨gas, hgas, h⟩ := bind_eq_ok.1 h
    obtain rfl := pure_eq_ok.1 h
    simp [hoptions, eq_of_beq hkind, FlowNode.optionPositions, hvalue, hgas]

theorem mem_pushed_iff {front : List FlowNode} (h : (if kind == .builtin && m.arena.memberName call == "push" then do
      let pushed ← m.allWriteNodes call (m.arena.receiver? call).toList
      return front ++ pushed
    else do
      let pushed ← pure []
      return front ++ pushed : Query (List FlowNode)).outcome = .ok xs) :
    x ∈ xs ↔ x ∈ front ∨ kind = .builtin ∧ (m.arena.memberName call == "push") = true ∧
      ∃ base, m.arena.receiver? call = some base ∧ ∃ ys, m.writeNodes call base = .ok ys ∧ x ∈ ys := by
  split at h
  · next hpush =>
    obtain ⟨pushed, hpushed, h⟩ := Query.outcome_bind_eq_ok.1 h
    obtain rfl := Except.ok.inj h
    obtain ⟨hbuiltin, hname⟩ := Bool.and_eq_true_iff.1 hpush
    simp [mem_allWriteNodes_iff hpushed, eq_of_beq hbuiltin, hname]
  · next hpush =>
    obtain rfl := Except.ok.inj h
    rw [List.append_nil]
    refine ⟨.inl, ?_⟩
    rintro (hx | ⟨rfl, hname, -⟩)
    · exact hx
    · simp [hname] at hpush

theorem mem_nodesOfCall_iff (hkind : (m.callKind call).outcome = .ok kind)
    (h : (m.nodesOfCall call).outcome = .ok xs) : x ∈ xs ↔ isValueCall kind = false ∧ m.CallNode call kind x := by
  obtain ⟨kind', hkind', h⟩ := Query.outcome_bind_eq_ok.1 h
  obtain rfl := Except.ok.inj (hkind.symm.trans hkind')
  split at h
  · next hvalue =>
    obtain rfl := Except.ok.inj h
    simp [hvalue]
  · next hvalue =>
    obtain ⟨options, hoptions, h⟩ := Query.outcome_bind_eq_ok.1 h
    dsimp only at h
    have hfront : (x ∈ (FlowNode.positions (m.arena.callArguments call).length).map (FlowNode.argument call)
        ++ (if (m.arena.calledMember? call).isSome then [FlowNode.argument call FlowNode.receiver] else [])
        ++ options) ↔ (∃ k < (m.arena.callArguments call).length, x = .argument call (k : Int)) ∨
          ((m.arena.calledMember? call).isSome = true ∧ x = .argument call FlowNode.receiver) ∨
          ∃ options, m.arena.child? call "expression" = some options ∧
            m.arena.kind options = .functionCallOptions ∧
            ∃ o ∈ FlowNode.optionPositions, m.hasOption options o.1 = .ok true ∧ x = .argument call o.2 := by
      rw [List.mem_append, List.mem_append, mem_optionNodes_iff hoptions, or_assoc]
      refine or_congr ?_ (or_congr ?_ .rfl)
      · simp [FlowNode.mem_positions_iff, eq_comm]
      · split <;> simp_all
    generalize (FlowNode.positions (m.arena.callArguments call).length).map (FlowNode.argument call)
      ++ (if (m.arena.calledMember? call).isSome then [FlowNode.argument call FlowNode.receiver] else [])
      ++ options = front at h hfront
    have hall (results : List FlowNode) (hresults : x ∈ results ↔ (kind ≠ .event ∧ kind ≠ .error) ∧
          ∃ arity, (m.resultArity call).outcome = .ok arity ∧ ∃ k < arity, x = .callResult call (k : Int))
        (h : (if kind == .builtin && m.arena.memberName call == "push" then do
            let pushed ← m.allWriteNodes call (m.arena.receiver? call).toList
            return front ++ results ++ pushed
          else do
            let pushed ← pure []
            return front ++ results ++ pushed : Query (List FlowNode)).outcome = .ok xs) :
        x ∈ xs ↔ isValueCall kind = false ∧ m.CallNode call kind x := by
      rw [mem_pushed_iff h, List.mem_append, hfront, hresults, eq_false_of_ne_true hvalue]
      simp only [true_and]
      constructor
      · rintro (((⟨k, hk, rfl⟩ | ⟨hmember, rfl⟩ | ⟨o, ho, hk, p, hp, hhas, rfl⟩) |
          ⟨hevent, arity, harity, k, hk, rfl⟩) | ⟨hbuiltin, hpush, base, hbase, ys, hys, hx⟩)
        · exact .argument hk
        · exact .receiver hmember
        · exact .option ho hk hp hhas
        · exact .result hevent harity hk
        · exact .pushed hbuiltin hpush hbase hys hx
      · intro hx
        cases hx with
        | argument hk => exact .inl (.inl (.inl ⟨_, hk, rfl⟩))
        | receiver hmember => exact .inl (.inl (.inr (.inl ⟨hmember, rfl⟩)))
        | option ho hk hp hhas => exact .inl (.inl (.inr (.inr ⟨_, ho, hk, _, hp, hhas, rfl⟩)))
        | result hevent harity hk => exact .inl (.inr ⟨hevent, _, harity, _, hk, rfl⟩)
        | pushed hbuiltin hpush hbase hys hx => exact .inr ⟨hbuiltin, hpush, _, hbase, _, hys, hx⟩
    split at h
    · exact hall [] (by simp) h
    · exact hall [] (by simp) h
    · next hevent herror =>
      obtain ⟨arity, harity, h⟩ := Query.outcome_bind_eq_ok.1 h
      refine hall ((FlowNode.positions arity).map (FlowNode.callResult call)) ?_ h
      have hother : ¬ kind = .event ∧ ¬ kind = .error := ⟨hevent, herror⟩
      simp [FlowNode.mem_positions_iff, hother, harity, eq_comm]

inductive NodeOf (m : FlowModel) (n : NodeId) : FlowNode → Prop
  | expression (hexpression : (m.arena.kind n).isExpression = true) : NodeOf m n (.expression n)
  | read {decl : NodeId} (hkind : m.arena.kind n = .identifier) (hread : m.stateReadOf n = .ok (some decl)) :
      NodeOf m n (.stateRead n decl)
  | call {kind : CallKind} {x : FlowNode} (hcall : m.arena.kind n = .functionCall)
      (hkind : (m.callKind n).outcome = .ok kind) (hvalue : isValueCall kind = false) (hx : m.CallNode n kind x) :
      NodeOf m n x
  | assigned {target : NodeId} {xs : List FlowNode} {x : FlowNode} (hkind : m.arena.kind n = .assignment)
      (htarget : target ∈ m.targetsOf n) (hxs : m.writeNodes n target = .ok xs) (hx : x ∈ xs) : NodeOf m n x
  | stepped {target : NodeId} {xs : List FlowNode} {x : FlowNode} (hkind : m.arena.kind n = .unaryOperation)
      (htext : (m.arena.text n).isOneOf ["++", "--", "delete"] = true)
      (htarget : m.arena.child? n "subExpression" = some target) (hxs : m.writeNodes n target = .ok xs)
      (hx : x ∈ xs) : NodeOf m n x

theorem mem_nodesAt_iff (h : (m.nodesAt n).outcome = .ok xs) : x ∈ xs ↔ m.NodeOf n x := by
  have hcons {more : List FlowNode} (hexpression : (m.arena.kind n).isExpression = true)
      (hmore : x ∈ more → m.NodeOf n x) (hother : m.NodeOf n x → x = .expression n ∨ x ∈ more)
      (h : (pure (FlowNode.expression n :: more) : Query _).outcome = .ok xs) : x ∈ xs ↔ m.NodeOf n x := by
    obtain rfl := Except.ok.inj h
    rw [List.mem_cons]
    refine ⟨?_, hother⟩
    rintro (rfl | hx)
    · exact .expression hexpression
    · exact hmore hx
  unfold nodesAt at h
  simp only at h
  split at h
  · next hexpression =>
    obtain rfl := Except.ok.inj h
    refine ⟨by simp, fun hx => ?_⟩
    cases hx <;> simp_all [Kind.isExpression]
  · next hexpression =>
    have hexpression : (m.arena.kind n).isExpression = true := by simpa using hexpression
    split at h
    · next hkind =>
      obtain ⟨found, hfound, h⟩ := Query.outcome_bind_eq_ok.1 h
      refine hcons hexpression (fun hx => ?_) (fun hx => ?_) h
      · obtain ⟨decl, hdecl, rfl⟩ := List.mem_map.1 hx
        obtain rfl := Option.mem_toList.1 hdecl
        exact .read hkind hfound
      · cases hx <;> simp_all
    · next hkind =>
      obtain ⟨more, hmore, h⟩ := Query.outcome_bind_eq_ok.1 h
      obtain ⟨kind, hcall, -⟩ := Query.outcome_bind_eq_ok.1 hmore
      refine hcons hexpression (fun hx => ?_) (fun hx => ?_) h
      · obtain ⟨hvalue, hx⟩ := (mem_nodesOfCall_iff hcall hmore).1 hx
        exact .call hkind hcall hvalue hx
      · rw [mem_nodesOfCall_iff hcall hmore]
        cases hx <;> simp_all
    · next hkind =>
      obtain ⟨more, hmore, h⟩ := Query.outcome_bind_eq_ok.1 h
      refine hcons hexpression (fun hx => ?_) (fun hx => ?_) h
      · obtain ⟨target, htarget, ys, hys, hx⟩ := (mem_allWriteNodes_iff hmore).1 hx
        exact .assigned hkind htarget hys hx
      · rw [mem_allWriteNodes_iff hmore]
        cases hx <;> simp_all
        exact .inr ⟨_, ‹_›, _, ‹_›, ‹_›⟩
    · next hkind =>
      split at h
      · next htext =>
        obtain ⟨more, hmore, h⟩ := Query.outcome_bind_eq_ok.1 h
        refine hcons hexpression (fun hx => ?_) (fun hx => ?_) h
        · obtain ⟨target, htarget, ys, hys, hx⟩ := (mem_allWriteNodes_iff hmore).1 hx
          exact .stepped hkind htext (Option.mem_toList.1 htarget) hys hx
        · rw [mem_allWriteNodes_iff hmore]
          cases hx <;> simp_all
      · next htext =>
        refine hcons hexpression (by simp) (fun hx => ?_) h
        cases hx <;> simp_all
    · refine hcons hexpression (by simp) (fun hx => ?_) h
      cases hx <;> simp_all

theorem NodeOf.isExpression (h : m.NodeOf n x) : (m.arena.kind n).isExpression = true := by
  cases h <;> simp_all [Kind.isExpression]

theorem NodeOf.lt_size (h : m.NodeOf n x) : n < m.arena.size := by
  by_contra hn
  have hexpression := h.isExpression
  rw [Arena.kind, Arena.node_of_not_lt hn] at hexpression
  cases hexpression

theorem NodeOf.writeAt (h : m.NodeOf n (.stateWrite site decl)) : m.WriteAt n (.stateWrite site decl) := by
  cases h with
  | call _ _ _ hx =>
    cases hx with
    | pushed _ _ _ hxs hx => exact writeAt_of_mem_writeNodes hxs hx
  | assigned _ _ hxs hx => exact writeAt_of_mem_writeNodes hxs hx
  | stepped _ _ _ hxs hx => exact writeAt_of_mem_writeNodes hxs hx

theorem NodeOf.kind_of_callResult {i : Int} (h : m.NodeOf n (.callResult call i)) :
    m.arena.kind call = .functionCall := by
  cases h with
  | call hcall _ _ hx =>
    cases hx with
    | result => exact hcall
    | pushed _ _ _ hxs hx => cases writeAt_of_mem_writeNodes hxs hx
  | assigned _ _ hxs hx => cases writeAt_of_mem_writeNodes hxs hx
  | stepped _ _ _ hxs hx => cases writeAt_of_mem_writeNodes hxs hx

theorem callResult_mem_nodesAt (h : (m.nodesAt call).outcome = .ok xs)
    (hcall : m.arena.kind call = .functionCall) (hexternal : (m.isExternalCall call).outcome = .ok true)
    {arity : Nat} (harity : (m.resultArity call).outcome = .ok arity) (hpos : 0 < arity) :
    .callResult call 0 ∈ xs := by
  obtain ⟨kind, hkind, hexternal⟩ := Query.outcome_bind_eq_ok.1 hexternal
  have hcalls : isValueCall kind = false ∧ kind ≠ .event ∧ kind ≠ .error := by
    cases kind <;> first | exact ⟨rfl, by decide, by decide⟩ | simp at hexternal
  exact (mem_nodesAt_iff h).2 (.call hcall hkind hcalls.1 (.result hcalls.2 harity hpos))

/-- The syntax nodes that the expressions of a program are below. -/
inductive IsRoot (m : FlowModel) : NodeId → Prop
  | inside {f : CallableId} {root : NodeId} (hf : f < m.callables.size) (hroot : root ∈ m.rootsOf f) : IsRoot m root
  | initial {c : ContractId} {v : StateVariable} {root : NodeId} (hc : c < m.contracts.size)
      (hv : v ∈ (m.contractD c).stateVariables) (hroot : m.arena.child? v.node "value" = some root) : IsRoot m root
  | base {c : ContractId} {b : BaseSpecifier} {root : NodeId} (hc : c < m.contracts.size)
      (hb : b ∈ (m.contractD c).bases) (hroot : root ∈ b.arguments) : IsRoot m root

/-- The syntax nodes at which a program evaluates an expression, if they are one. -/
def IsPlaced (m : FlowModel) (n : NodeId) : Prop :=
  ∃ root, m.IsRoot root ∧ n ∈ m.arena.walk root

inductive IsListed (m : FlowModel) : FlowNode → Prop
  | parameter {f : CallableId} {k : Nat} (hf : f < m.callables.size) (hk : k < (m.callableD f).arity) :
      IsListed m (.parameter f k)
  | result {f : CallableId} {k : Nat} (hf : f < m.callables.size) (hk : k < (m.callableD f).returns.length) :
      IsListed m (.result f k)
  | definition {f : CallableId} {s : SsaForm} {d : Nat} (hf : f < m.callables.size)
      (himplemented : (m.callableD f).isImplemented = true) (hs : (m.form? f).outcome = .ok (some s))
      (hd : d ∈ s.indices) : IsListed m (.definition f d)
  | invoked {f : CallableId} {i : Invocation} {k : Nat} (hf : f < m.callables.size)
      (hi : i ∈ (m.callableD f).invocations) (hk : k < i.arguments.length) : IsListed m (.argument i.node k)
  | initial {c : ContractId} {v : StateVariable} {root : NodeId} (hc : c < m.contracts.size)
      (hv : v ∈ (m.contractD c).stateVariables) (hroot : m.arena.child? v.node "value" = some root) :
      IsListed m (.stateWrite v.node v.node)
  | base {c : ContractId} {b : BaseSpecifier} {k : Nat} (hc : c < m.contracts.size)
      (hb : b ∈ (m.contractD c).bases) (hk : k < b.arguments.length) : IsListed m (.argument b.node k)
  | below {n : NodeId} {x : FlowNode} (hn : m.IsPlaced n) (hx : m.NodeOf n x) : IsListed m x

abbrev HasBelow (m : FlowModel) (root : NodeId) (x : FlowNode) : Prop :=
  ∃ n ∈ m.arena.walk root, ∃ ys, (m.nodesAt n).outcome = .ok ys ∧ x ∈ ys

theorem mem_nodesBelow_iff (h : (m.nodesBelow root).outcome = .ok xs) : x ∈ xs ↔ m.HasBelow root x := by
  obtain ⟨all, hall, h⟩ := Query.outcome_bind_eq_ok.1 h
  obtain rfl := Except.ok.inj h
  exact Query.mem_flatten_iff hall

theorem mem_below_iff {roots : List NodeId} {below : List (List FlowNode)}
    (h : (roots.mapM m.nodesBelow).outcome = .ok below) :
    x ∈ below.flatten ↔ ∃ root ∈ roots, m.HasBelow root x :=
  Query.mem_flatten_iff_of_mapM h fun _ _ _ hys => mem_nodesBelow_iff hys

theorem mem_nodesIn_iff_or (h : (m.nodesIn f).outcome = .ok xs) :
    x ∈ xs ↔ (∃ k < (m.callableD f).arity, x = .parameter f k) ∨
      (∃ k < (m.callableD f).returns.length, x = .result f k) ∨
      ((m.callableD f).isImplemented = true ∧
        ∃ s, (m.form? f).outcome = .ok (some s) ∧ ∃ d ∈ s.indices, x = .definition f d) ∨
      (∃ i ∈ (m.callableD f).invocations, ∃ k < i.arguments.length, x = .argument i.node k) ∨
      ∃ root ∈ m.rootsOf f, m.HasBelow root x := by
  obtain ⟨definitions, hdefinitions, h⟩ : ∃ definitions, (x ∈ definitions ↔ (m.callableD f).isImplemented = true ∧
        ∃ s, (m.form? f).outcome = .ok (some s) ∧ ∃ d ∈ s.indices, x = .definition f d) ∧
      (do
        let below ← (m.rootsOf f).mapM m.nodesBelow
        return (List.range (m.callableD f).arity).map (FlowNode.parameter f)
          ++ (FlowNode.positions (m.callableD f).returns.length).map (FlowNode.result f) ++ definitions
          ++ ((m.callableD f).invocations.flatMap fun i =>
            (FlowNode.positions i.arguments.length).map (FlowNode.argument i.node))
          ++ below.flatten : Query (List FlowNode)).outcome = .ok xs := by
    unfold nodesIn at h
    dsimp only at h
    split at h
    · next himplemented =>
      obtain ⟨form, hform, h⟩ := Query.outcome_bind_eq_ok.1 h
      refine ⟨_, ?_, h⟩
      cases form with
      | none => simp [hform]
      | some s => simp [hform, himplemented, definitionNode, callable_of_form? hform, eq_comm]
    · next himplemented => exact ⟨[], by simp [himplemented], h⟩
  obtain ⟨below, hbelow, h⟩ := Query.outcome_bind_eq_ok.1 h
  obtain rfl := Except.ok.inj h
  simp only [List.mem_append, mem_below_iff hbelow, hdefinitions, or_assoc]
  refine or_congr ?_ (or_congr ?_ (or_congr .rfl (or_congr ?_ .rfl)))
  · simp [eq_comm]
  · simp [FlowNode.mem_positions_iff, eq_comm]
  · simp [FlowNode.mem_positions_iff, eq_comm]

theorem mem_nodesOfContract_iff {c : ContractId} (h : (m.nodesOfContract c).outcome = .ok xs) :
    x ∈ xs ↔ (∃ v ∈ (m.contractD c).stateVariables, ∃ root, m.arena.child? v.node "value" = some root ∧
        (m.HasBelow root x ∨ x = .stateWrite v.node v.node)) ∨
      ∃ b ∈ (m.contractD c).bases, (∃ root ∈ b.arguments, m.HasBelow root x) ∨
        ∃ k < b.arguments.length, x = .argument b.node k := by
  have hvariable {v : StateVariable} {ys : List FlowNode} (hys : (m.nodesOfVariable v).outcome = .ok ys) :
      x ∈ ys ↔ ∃ root, m.arena.child? v.node "value" = some root ∧
        (m.HasBelow root x ∨ x = .stateWrite v.node v.node) := by
    unfold nodesOfVariable at hys
    split at hys
    · next hnone =>
      obtain rfl := Except.ok.inj hys
      simp [hnone]
    · next root hroot =>
      obtain ⟨below, hbelow, hys⟩ := Query.outcome_bind_eq_ok.1 hys
      obtain rfl := Except.ok.inj hys
      simp [mem_nodesBelow_iff hbelow, hroot]
  have hbase {b : BaseSpecifier} {ys : List FlowNode} (hys : (m.nodesOfBase b).outcome = .ok ys) :
      x ∈ ys ↔ (∃ root ∈ b.arguments, m.HasBelow root x) ∨
        ∃ k < b.arguments.length, x = .argument b.node k := by
    obtain ⟨below, hbelow, hys⟩ := Query.outcome_bind_eq_ok.1 hys
    obtain rfl := Except.ok.inj hys
    rw [List.mem_append, mem_below_iff hbelow]
    simp [FlowNode.mem_positions_iff, eq_comm]
  obtain ⟨initial, hinitial, h⟩ := Query.outcome_bind_eq_ok.1 h
  obtain ⟨bases, hbases, h⟩ := Query.outcome_bind_eq_ok.1 h
  obtain rfl := Except.ok.inj h
  rw [List.mem_append]
  exact or_congr (Query.mem_flatten_iff_of_mapM hinitial fun v _ ys hys => hvariable hys)
    (Query.mem_flatten_iff_of_mapM hbases fun b _ ys hys => hbase hys)

theorem mem_nodesIn_iff (h : (m.nodesIn f).outcome = .ok xs)
    (hkind : x.kind = .callResult ∨ x.kind = .stateRead ∨ x.kind = .stateWrite) :
    x ∈ xs ↔ ∃ root ∈ m.rootsOf f, m.HasBelow root x := by
  rw [mem_nodesIn_iff_or h]
  constructor
  · rintro (⟨_, -, rfl⟩ | ⟨_, -, rfl⟩ | ⟨-, _, -, _, -, rfl⟩ | ⟨_, -, _, -, rfl⟩ | hbelow)
    · simp [FlowNode.kind] at hkind
    · simp [FlowNode.kind] at hkind
    · simp [FlowNode.kind] at hkind
    · simp [FlowNode.kind] at hkind
    · exact hbelow
  · exact fun hbelow => .inr (.inr (.inr (.inr hbelow)))

theorem isListed_of_mem_nodesIn (hf : f < m.callables.size) (h : (m.nodesIn f).outcome = .ok xs) (hx : x ∈ xs) :
    m.IsListed x := by
  rcases (mem_nodesIn_iff_or h).1 hx with ⟨k, hk, rfl⟩ | ⟨k, hk, rfl⟩ | ⟨himplemented, s, hs, d, hd, rfl⟩ |
    ⟨i, hi, k, hk, rfl⟩ | ⟨root, hroot, n, hn, ys, hys, hx⟩
  · exact .parameter hf hk
  · exact .result hf hk
  · exact .definition hf himplemented hs hd
  · exact .invoked hf hi hk
  · exact .below ⟨root, .inside hf hroot, hn⟩ ((mem_nodesAt_iff hys).1 hx)

theorem isListed_of_mem_nodesOfContract {c : ContractId} (hc : c < m.contracts.size)
    (h : (m.nodesOfContract c).outcome = .ok xs) (hx : x ∈ xs) : m.IsListed x := by
  rcases (mem_nodesOfContract_iff h).1 hx with ⟨v, hv, root, hroot, ⟨n, hn, ys, hys, hx⟩ | rfl⟩ |
    ⟨b, hb, ⟨root, hroot, n, hn, ys, hys, hx⟩ | ⟨k, hk, rfl⟩⟩
  · exact .below ⟨root, .initial hc hv hroot, hn⟩ ((mem_nodesAt_iff hys).1 hx)
  · exact .initial hc hv hroot
  · exact .below ⟨root, .base hc hb hroot, hn⟩ ((mem_nodesAt_iff hys).1 hx)
  · exact .base hc hb hk

theorem mem_listNodes (h : m.listNodes.outcome = .ok xs) :
    x ∈ xs ↔ (∃ f ∈ m.callableIds, ∃ ys, (m.nodesIn f).outcome = .ok ys ∧ x ∈ ys) ∨
      ∃ c ∈ m.contractIds, ∃ ys, (m.nodesOfContract c).outcome = .ok ys ∧ x ∈ ys := by
  obtain ⟨inside, hinside, h⟩ := Query.outcome_bind_eq_ok.1 h
  obtain ⟨outside, houtside, h⟩ := Query.outcome_bind_eq_ok.1 h
  obtain rfl := Except.ok.inj h
  rw [mem_distinct_iff, List.mem_append]
  refine or_congr (Query.mem_flatten_iff_of_mapM hinside fun f _ ys hys => ?_) (Query.mem_flatten_iff houtside)
  rw [← Except.ok.inj hys, Query.mem_getD_nil_iff]

theorem isListed_of_mem_listNodes (h : m.listNodes.outcome = .ok xs) (hx : x ∈ xs) : m.IsListed x := by
  rcases (mem_listNodes h).1 hx with ⟨f, hf, ys, hys, hx⟩ | ⟨c, hc, ys, hys, hx⟩
  · exact isListed_of_mem_nodesIn (List.mem_range.1 hf) hys hx
  · exact isListed_of_mem_nodesOfContract (List.mem_range.1 hc) hys hx

theorem kind_of_callResult_mem (h : m.listNodes.outcome = .ok xs) {i : Int} (hx : .callResult call i ∈ xs) :
    m.arena.kind call = .functionCall := by
  cases isListed_of_mem_listNodes h hx with
  | below _ hx => exact hx.kind_of_callResult

theorem mem_listNodes_iff (hl : m.IsLegible) (h : m.listNodes.outcome = .ok xs) : x ∈ xs ↔ m.IsListed x := by
  refine ⟨isListed_of_mem_listNodes h, fun hx => (mem_listNodes h).2 ?_⟩
  have hin {f : CallableId} (hf : f < m.callables.size) (hx : ∀ ys, (m.nodesIn f).outcome = .ok ys → x ∈ ys) :
      ∃ f ∈ m.callableIds, ∃ ys, (m.nodesIn f).outcome = .ok ys ∧ x ∈ ys := by
    obtain ⟨ys, hys, -⟩ := answers_nodesIn hl f
    exact ⟨f, List.mem_range.2 hf, ys, hys, hx ys hys⟩
  have hout {c : ContractId} (hc : c < m.contracts.size)
      (hx : ∀ ys, (m.nodesOfContract c).outcome = .ok ys → x ∈ ys) :
      ∃ c ∈ m.contractIds, ∃ ys, (m.nodesOfContract c).outcome = .ok ys ∧ x ∈ ys := by
    obtain ⟨ys, hys, -⟩ := answers_nodesOfContract hl c
    exact ⟨c, List.mem_range.2 hc, ys, hys, hx ys hys⟩
  cases hx with
  | parameter hf hk => exact .inl (hin hf fun ys hys => (mem_nodesIn_iff_or hys).2 (.inl ⟨_, hk, rfl⟩))
  | result hf hk => exact .inl (hin hf fun ys hys => (mem_nodesIn_iff_or hys).2 (.inr (.inl ⟨_, hk, rfl⟩)))
  | definition hf himplemented hs hd =>
    refine .inl (hin hf fun ys hys => (mem_nodesIn_iff_or hys).2 (.inr (.inr (.inl ?_))))
    exact ⟨himplemented, _, hs, _, hd, rfl⟩
  | invoked hf hi hk =>
    refine .inl (hin hf fun ys hys => (mem_nodesIn_iff_or hys).2 (.inr (.inr (.inr (.inl ?_)))))
    exact ⟨_, hi, _, hk, rfl⟩
  | initial hc hv hroot =>
    exact .inr (hout hc fun ys hys => (mem_nodesOfContract_iff hys).2 (.inl ⟨_, hv, _, hroot, .inr rfl⟩))
  | base hc hb hk =>
    exact .inr (hout hc fun ys hys => (mem_nodesOfContract_iff hys).2 (.inr ⟨_, hb, .inr ⟨_, hk, rfl⟩⟩))
  | @below n _ hn hx =>
    obtain ⟨root, hroot, hn⟩ := hn
    obtain ⟨zs, hzs, -⟩ := answers_nodesAt hl n
    have hbelow : m.HasBelow root x := ⟨n, hn, zs, hzs, (mem_nodesAt_iff hzs).2 hx⟩
    cases hroot with
    | inside hf hroot =>
      refine .inl (hin hf fun ys hys => (mem_nodesIn_iff_or hys).2 (.inr (.inr (.inr (.inr ?_)))))
      exact ⟨root, hroot, hbelow⟩
    | initial hc hv hroot =>
      refine .inr (hout hc fun ys hys => (mem_nodesOfContract_iff hys).2 (.inl ?_))
      exact ⟨_, hv, root, hroot, .inl hbelow⟩
    | base hc hb hroot =>
      refine .inr (hout hc fun ys hys => (mem_nodesOfContract_iff hys).2 (.inr ?_))
      exact ⟨_, hb, .inl ⟨root, hroot, hbelow⟩⟩

section Holder

variable (hp : m.IsPlanted)

include hp

theorem holder?_of_below_root (hroot : root ∈ m.rootsOf f) (hn : m.arena.Below root n) : m.holder? n = some f := by
  have hf : f < m.callables.size := by
    by_contra hf
    rw [rootsOf, Outline.callableD_of_not_lt hf] at hroot
    simp [default, instInhabitedCallable.default, Callable.invocations,
      instInhabitedCallableForm.default] at hroot
  obtain ⟨contract, hmodel⟩ := hp.models f hf
  refine hp.holder f hf n (.trans ?_ hn)
  rcases List.mem_append.1 hroot with hbody | hargument
  · rw [hmodel.body] at hbody
    exact .single (Arena.parent?_of_child? (Option.mem_toList.1 hbody)).1
  · obtain ⟨i, hi, hargument⟩ := List.mem_flatMap.1 hargument
    rcases hmodel.definition with hk | hk
    · rw [(hmodel.function hk).2] at hi
      obtain ⟨k, hk, rfl⟩ := List.mem_map.1 hi
      exact .tail (.single (Arena.parent?_of_mem_items hk).1) (Arena.parent?_of_mem_items hargument).1
    · rw [Outline.invocations_eq_nil (hmodel.modifier hk).1] at hi
      simp at hi

theorem holder?_of_mem_rootsOf (hroot : root ∈ m.rootsOf f) (hn : n ∈ m.arena.walk root) : m.holder? n = some f :=
  holder?_of_below_root hp hroot (Arena.below_of_mem_walk hn)

theorem holder?_of_stateWrite_mem (h : (m.nodesIn f).outcome = .ok xs) (hx : .stateWrite site decl ∈ xs) :
    m.holder? site = some f ∧ site < m.arena.size ∧ decl < m.arena.size := by
  obtain ⟨root, hroot, n, hn, ys, hys, hx⟩ := (mem_nodesIn_iff h (.inr (.inr rfl))).1 hx
  have hnode := (mem_nodesAt_iff hys).1 hx
  cases hnode.writeAt with
  | state hdecl => exact ⟨holder?_of_mem_rootsOf hp hroot hn, hnode.lt_size, hdecl⟩

end Holder

end FlowModel

end ContractFlow
