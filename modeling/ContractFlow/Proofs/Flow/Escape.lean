import ContractFlow.Proofs.Flow.Placement

/-! This module tells which flow nodes the list of a program leaves out although steps can lead to them. -/

namespace ContractFlow

namespace FlowModel

variable {m : FlowModel} {f : CallableId} {n p call site decl target container : NodeId} {s : SsaForm}
  {x : FlowNode} {xs : List FlowNode} {i : Int} {d : Nat}

/-- The flow nodes that a step can lead to although they are not listed. -/
inductive Escapes (m : FlowModel) : FlowNode → Prop
  /-- A definition in a callable without a body. -/
  | definition {f : CallableId} {d : Nat} (hf : (m.callableD f).isImplemented = false) : Escapes m (.definition f d)
  /-- A value that is returned where the callable declares none. -/
  | result {f : CallableId} {i : Int} (hi : ∀ k < (m.callableD f).returns.length, (k : Int) ≠ i) :
      Escapes m (.result f i)
  /-- The result of a call that the program does not evaluate. -/
  | outside {call : NodeId} {i : Int} (hcall : ¬ m.IsPlaced call) : Escapes m (.callResult call i)
  /-- A result that the statement around the call has no target for. -/
  | untaken {call container : NodeId} {i : Int} (hcontainer : m.arena.container? call = some container)
      (hi : (m.arena.slots container).length ≤ i) : Escapes m (.callResult call i)
  /-- A read that the program does not evaluate. -/
  | read {n decl : NodeId} (hn : ¬ m.IsPlaced n) : Escapes m (.stateRead n decl)
  /-- A call option that only the inner ones of several braces name. -/
  | nested {call options : NodeId} {o : String × Int} (ho : o ∈ FlowNode.optionPositions)
      (hoptions : m.arena.child? call "expression" = some options) (hhas : m.hasOption options o.1 = .ok false) :
      Escapes m (.argument call o.2)
  /-- An option of a call that only gives its argument another type. -/
  | converted {call : NodeId} {kind : CallKind} {o : String × Int} (ho : o ∈ FlowNode.optionPositions)
      (hkind : (m.callKind call).outcome = .ok kind) (hvalue : isValueCall kind = true) :
      Escapes m (.argument call o.2)

def IsAt (m : FlowModel) (n : NodeId) : FlowNode → Prop
  | .expression k => k = n ∧ (m.arena.kind n).isExpression = true
  | .stateRead k _ => k = n ∧ m.arena.kind n = .identifier
  | .callResult call i => call = n ∧ m.arena.kind n = .functionCall ∧
      ∃ arity, (m.resultArity n).outcome = .ok arity ∧ i < arity
  | .argument call i => call = n ∧ m.arena.kind n = .functionCall ∧
      ∃ kind, (m.callKind n).outcome = .ok kind ∧ isValueCall kind = false ∧ m.CallNode n kind (.argument n i)
  | .stateWrite .. | .postUpdate .. => True
  | .parameter .. | .definition .. | .result .. => False

theorem isAt_of_mem_writeNodes (h : m.writeNodes site target = .ok xs) (hx : x ∈ xs) : m.IsAt n x := by
  cases writeAt_of_mem_writeNodes h hx with
  | state => trivial
  | element => trivial

theorem NodeOf.isAt (h : m.NodeOf n x) : m.IsAt n x := by
  cases h with
  | expression hexpression => exact ⟨rfl, hexpression⟩
  | read hkind => exact ⟨rfl, hkind⟩
  | call hcall hkind hvalue hx =>
    cases hx with
    | argument hk => exact ⟨rfl, hcall, _, hkind, hvalue, .argument hk⟩
    | receiver hmember => exact ⟨rfl, hcall, _, hkind, hvalue, .receiver hmember⟩
    | option hoptions hbraces ho hhas => exact ⟨rfl, hcall, _, hkind, hvalue, .option hoptions hbraces ho hhas⟩
    | result _ harity hk => exact ⟨rfl, hcall, _, harity, Int.ofNat_lt.2 hk⟩
    | pushed _ _ _ hxs hx => exact isAt_of_mem_writeNodes hxs hx
  | assigned _ _ hxs hx => exact isAt_of_mem_writeNodes hxs hx
  | stepped _ _ _ hxs hx => exact isAt_of_mem_writeNodes hxs hx

theorem IsListed.expression (h : m.IsListed (.expression n)) : m.IsPlaced n ∧ (m.arena.kind n).isExpression = true := by
  cases h with
  | below hn hx =>
    obtain ⟨rfl, hexpression⟩ := hx.isAt
    exact ⟨hn, hexpression⟩

theorem IsListed.stateRead (h : m.IsListed (.stateRead n decl)) : m.IsPlaced n ∧ m.arena.kind n = .identifier := by
  cases h with
  | below hn hx =>
    obtain ⟨rfl, hkind⟩ := hx.isAt
    exact ⟨hn, hkind⟩

theorem IsListed.callResult (h : m.IsListed (.callResult call i)) : m.IsPlaced call ∧
    m.arena.kind call = .functionCall ∧ ∃ arity, (m.resultArity call).outcome = .ok arity ∧ i < arity := by
  cases h with
  | below hn hx =>
    obtain ⟨rfl, hspec⟩ := hx.isAt
    exact ⟨hn, hspec⟩

theorem IsListed.argument (h : m.IsListed (.argument call i)) :
    (0 ≤ i ∧ (m.IsGrounded → (m.arena.kind call).isOuter = true)) ∨
      m.IsPlaced call ∧ m.arena.kind call = .functionCall ∧
        ∃ kind, (m.callKind call).outcome = .ok kind ∧ isValueCall kind = false ∧
          m.CallNode call kind (.argument call i) := by
  cases h with
  | invoked hf hi _ => exact .inl ⟨Int.natCast_nonneg _, fun hg => by rw [(invocation_spec hg hf hi).1]; rfl⟩
  | base hc hb _ => exact .inl ⟨Int.natCast_nonneg _, fun hg => by rw [(base_spec hg hc hb).1]; rfl⟩
  | below hn hx =>
    obtain ⟨rfl, hspec⟩ := hx.isAt
    exact .inr ⟨hn, hspec⟩

theorem eq_of_mem_optionPositions {o o' : String × Int} (ho : o ∈ FlowNode.optionPositions)
    (ho' : o' ∈ FlowNode.optionPositions) (h : o.2 = o'.2) : o = o' := by
  simp only [FlowNode.optionPositions, List.mem_cons, List.not_mem_nil, or_false] at ho ho'
  rcases ho with rfl | rfl <;> rcases ho' with rfl | rfl <;> first | rfl | exact absurd h (by decide)

theorem lt_of_mem_optionPositions {o : String × Int} (ho : o ∈ FlowNode.optionPositions) : o.2 < FlowNode.receiver := by
  simp only [FlowNode.optionPositions, List.mem_cons, List.not_mem_nil, or_false] at ho
  rcases ho with rfl | rfl <;> decide

theorem IsListed.option {o : String × Int} (ho : o ∈ FlowNode.optionPositions)
    (h : m.IsListed (.argument call o.2)) :
    (∃ kind, (m.callKind call).outcome = .ok kind ∧ isValueCall kind = false) ∧
      ∃ options, m.arena.child? call "expression" = some options ∧ m.hasOption options o.1 = .ok true := by
  have hlt := lt_of_mem_optionPositions ho
  have hneg : o.2 < 0 := Int.lt_trans hlt (by decide)
  rcases h.argument with ⟨hpos, -⟩ | ⟨-, -, kind, hkind, hvalue, hx⟩
  · exact absurd hpos (Int.not_le.2 hneg)
  · refine ⟨⟨kind, hkind, hvalue⟩, ?_⟩
    generalize hi : o.2 = i at hx hlt hneg
    cases hx with
    | argument hk => exact absurd (Int.natCast_nonneg _) (Int.not_le.2 hneg)
    | receiver => exact absurd hlt (Int.lt_irrefl _)
    | option hoptions _ ho' hhas => exact ⟨_, hoptions, eq_of_mem_optionPositions ho ho' hi ▸ hhas⟩
    | pushed _ _ _ hxs hx => cases writeAt_of_mem_writeNodes hxs hx

theorem Escapes.not_isListed (h : m.Escapes x) : ¬ m.IsListed x := by
  intro hx
  cases h with
  | definition hf =>
    cases hx with
    | definition _ himplemented => simp [hf] at himplemented
    | below _ hx => exact hx.isAt
  | result hi =>
    cases hx with
    | result _ hk => exact hi _ hk rfl
    | below _ hx => exact hx.isAt
  | outside hcall => exact hcall hx.callResult.1
  | @untaken call container i hcontainer hi =>
    obtain ⟨-, -, arity, harity, hlt⟩ := hx.callResult
    unfold resultArity at harity
    rw [hcontainer] at harity
    obtain rfl := Except.ok.inj harity
    exact absurd hlt (Int.not_lt.2 hi)
  | read hn => exact hn hx.stateRead.1
  | nested ho hoptions hhas =>
    obtain ⟨-, options', hoptions', hhas'⟩ := hx.option ho
    obtain rfl := Option.some.inj (hoptions.symm.trans hoptions')
    simp [hhas] at hhas'
  | converted ho hkind hvalue =>
    obtain ⟨⟨kind', hkind', hvalue'⟩, -⟩ := hx.option ho
    obtain rfl := Except.ok.inj (hkind.symm.trans hkind')
    simp [hvalue] at hvalue'

def AllLand (m : FlowModel) (xs : List FlowNode) : Prop :=
  ∀ x ∈ xs, m.IsListed x ∨ m.Escapes x

theorem lands_result (hf : f < m.callables.size) (i : Int) : m.IsListed (.result f i) ∨ m.Escapes (.result f i) := by
  by_cases hi : ∃ k < (m.callableD f).returns.length, (k : Int) = i
  · obtain ⟨k, hk, rfl⟩ := hi
    exact .inl (.result hf hk)
  · exact .inr (.result fun k hk heq => hi ⟨k, hk, heq⟩)

theorem lands_definition (hf : f < m.callables.size) (hs : (m.form? f).outcome = .ok (some s)) (hd : d ∈ s.indices) :
    m.IsListed (definitionNode s d) ∨ m.Escapes (definitionNode s d) := by
  unfold definitionNode
  rw [callable_of_form? hs]
  cases himplemented : (m.callableD f).isImplemented with
  | false => exact .inr (.definition himplemented)
  | true => exact .inl (.definition hf himplemented hs hd)

theorem DefinedAt.lands (h : m.DefinedAt site decl x) : m.IsListed x ∨ m.Escapes x := by
  cases h with
  | intro hf hs hd =>
    refine lands_definition (Program.lt_size_of_owner? hf) hs ?_
    exact List.mem_of_mem_filter (List.mem_of_find?_eq_some hd)

theorem IsPlaced.assigned (hsite : m.IsPlaced site) (hk : m.arena.kind site = .assignment)
    (htarget : target ∈ m.targetsOf site) (hx : m.Writes site target x) : m.IsListed x := by
  obtain ⟨xs, hxs, hmem⟩ := hx.exists_mem
  exact .below hsite (.assigned hk htarget hxs hmem)

theorem Receives.lands (hx : m.Receives site target x) (hsite : m.IsPlaced site)
    (hk : m.arena.kind site = .assignment) (htarget : m.arena.child? site "leftHandSide" = some target) :
    m.IsListed x ∨ m.Escapes x := by
  rcases hx with ⟨decl, hx⟩ | hx
  · exact hx.lands
  · refine .inl ?_
    cases hx with
    | plain hkind hx =>
      refine hsite.assigned hk ?_ hx
      simp [targetsOf, htarget, hkind]
    | @within inner hkind hinner hx =>
      refine hsite.assigned hk ?_ hx
      have hmem : inner ∈ m.arena.items target "components" := by
        unfold Arena.inner? at hinner
        split at hinner
        · next hentries => exact Arena.mem_items_iff.2 (by simp [hentries, hinner])
        · simp at hinner
      simpa [targetsOf, htarget, hkind] using hmem

end FlowModel

end ContractFlow
