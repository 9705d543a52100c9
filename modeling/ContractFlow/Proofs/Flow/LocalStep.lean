import ContractFlow.Proofs.Flow.Escape

/-!
This module shows that the steps inside a callable lead from listed flow nodes to listed ones or to those that escape.
-/

namespace ContractFlow.FlowModel

variable {m : FlowModel} {f : CallableId} {n p call decl container : NodeId} {x y : FlowNode} {i : Int}

section Local

variable (h : m.IsGrounded)

include h

theorem TakenAt.lands (hx : m.TakenAt container i x) (hn : m.IsPlaced n)
    (hcontainer : m.arena.container? n = some container) : m.IsListed x ∨ m.Escapes x := by
  cases hx with
  | declared _ hx => exact hx.lands
  | caught _ _ _ _ hx => exact hx.lands
  | @assigned slot hslot hk hx =>
    rcases hx with ⟨decl, hx⟩ | hx
    · exact hx.lands
    · obtain ⟨target, htarget, htuple, hentry⟩ := Arena.exists_tuple_of_slot? hcontainer hk hslot
      have hplaced : m.IsPlaced container :=
        IsPlaced.parent h hn (Arena.parent?_of_container? hcontainer) (by rw [hk]; rfl) (by simp [hk])
      have hmem : slot ∈ m.targetsOf container := by
        simpa [targetsOf, htarget, htuple] using Arena.mem_items_iff.2 hentry
      exact .inl (hplaced.assigned hk hmem hx.writes)

theorem isListed_parent (hn : m.IsPlaced n) (hp : m.arena.parent? n = some p)
    (hk : (m.arena.kind p).isExpression = true) : m.IsListed (.expression p) := by
  refine .below (IsPlaced.parent h hn hp ?_ ?_) (.expression hk)
  · cases hkind : m.arena.kind p <;> simp_all [Kind.isExpression, Kind.isOuter]
  · rintro hkind
    simp [hkind, Kind.isExpression] at hk

theorem isListed_receiver {kind : CallKind} (hp : m.IsPlaced p) (hk : m.arena.kind p = .memberAccess)
    (hcall : m.arena.callSiteOf? p = some call) (hcallKind : (m.callKind call).outcome = .ok kind)
    (hvalue : isValueCall kind = false) : m.IsListed (.argument call FlowNode.receiver) := by
  obtain ⟨hplaced, hkind⟩ := IsPlaced.callSite h hp hcall
  have hmember : m.arena.calledMember? call = some p := by
    rw [Arena.calledMember?, Arena.callee?_of_callSiteOf? (fun n p hp hrole _ =>
      h.shaped.expression n (Arena.lt_size_of_parent? hp) hrole p hp) hcall, Arena.withoutOptions?]
    simp [hk]
  exact .below hplaced (.call hkind hcallKind hvalue (.receiver (by rw [hmember]; rfl)))

theorem lands_option {o : String × Int} (ho : o ∈ FlowNode.optionPositions) (hcall : m.IsPlaced call)
    (hkind : m.arena.kind call = .functionCall) {options : NodeId}
    (hoptions : m.arena.child? call "expression" = some options)
    (hbraces : m.arena.kind options = .functionCallOptions) :
    m.IsListed (.argument call o.2) ∨ m.Escapes (.argument call o.2) := by
  obtain ⟨kind, hcallKind, -⟩ := Linkage.answers_callKind h.legible call
  cases hvalue : isValueCall kind with
  | true => exact .inr (.converted ho hcallKind hvalue)
  | false =>
    obtain ⟨b, hhas, -⟩ := succeeds_hasOption h.legible options o.1
    cases b with
    | false => exact .inr (.nested ho hoptions hhas)
    | true => exact .inl (.below hcall (.call hkind hcallKind hvalue (.option hoptions hbraces ho hhas)))

theorem isListed_initial (hn : m.IsPlaced n) (hp : m.arena.parent? n = some p) (hstate : m.isState p = true) :
    m.IsListed (.stateWrite p p) := by
  obtain ⟨hk, above, habove, hcontract⟩ := Program.parent?_of_isState hstate
  rcases IsPlaced.parent_or h hn hp with hplaced | hholds
  · -- a variable that is evaluated itself does not stand right below a contract
    exact absurd hcontract (IsPlaced.holds h hplaced habove (by rw [hcontract]; rfl)).not_contract
  · cases hholds with
    | body _ hkind | argument _ hkind => rcases hkind with hkind | hkind <;> simp [hk] at hkind
    | value _ _ hlisted => exact hlisted

theorem isListed_held (hn : m.IsPlaced n) (hp : m.arena.parent? n = some p)
    (houter : (m.arena.kind p).isOuter = true) (hrole : m.arena.role n = "arguments") :
    m.IsListed (.argument p (m.arena.roleIndex n)) := by
  obtain ⟨k, hk, hindex⟩ := h.shaped.exists_roleIndex hp hrole
  rw [hindex]
  cases IsPlaced.holds h hn hp houter with
  | body hrole' | value hrole' => simp [hrole] at hrole'
  | argument _ _ hlisted => exact hlisted k hk

omit h in
theorem IsListed.lt_of_parameter {k : Nat} (hx : m.IsListed (.parameter f k)) : f < m.callables.size := by
  cases hx with
  | parameter hf => exact hf
  | below _ hx => exact absurd hx.isAt id

omit h in
theorem IsListed.lt_of_definition {d : Nat} (hx : m.IsListed (.definition f d)) : f < m.callables.size := by
  cases hx with
  | definition hf => exact hf
  | below _ hx => exact absurd hx.isAt id

theorem LocalRule.lands (hrule : m.LocalRule x y) (hx : m.IsListed x) : m.IsListed y ∨ m.Escapes y := by
  have habove {n p : NodeId} {k : Kind} (hn : m.IsListed (.expression n)) (hp : m.arena.parent? n = some p)
      (hk : m.arena.kind p = k) (hinner : k.isOuter = false ∧ k ≠ .variableDeclaration) : m.IsPlaced p :=
    IsPlaced.parent h hn.expression.1 hp (hk ▸ hinner.1) (hk ▸ hinner.2)
  cases hrule with
  | whole hp hexpression => exact .inl (isListed_parent h hx.expression.1 hp hexpression)
  | assigned hp hk htarget hy => exact hy.lands (habove hx hp hk (by decide)) hk htarget
  | declared _ hy => exact hy.lands
  | initial hp _ hstate => exact .inl (isListed_initial h hx.expression.1 hp hstate)
  | component hp hk hcontainer hy => exact hy.lands h (habove hx hp hk (by decide)) hcontainer
  | returned _ hf | passed _ hf => exact lands_result (Program.lt_size_of_owner? hf) _
  | receiver hp hk hcall hcallKind hvalue =>
    exact .inl (isListed_receiver h (habove hx hp hk (by decide)) hk hcall hcallKind hvalue)
  | argument hp hk hrole hcallKind hvalue =>
    obtain ⟨i, hi, hindex⟩ := h.shaped.exists_roleIndex hp hrole
    rw [hindex]
    exact .inl (.below (habove hx hp hk (by decide)) (.call hk hcallKind hvalue (.argument hi)))
  | held hp hk hrole =>
    refine .inl (isListed_held h hx.expression.1 hp ?_ hrole)
    rcases hk with hk | hk <;> rw [hk] <;> rfl
  | option hp hk hcall hi =>
    obtain ⟨hplaced, hkind⟩ := IsPlaced.callSite h (habove hx hp hk (by decide)) hcall
    obtain ⟨options, hoptions, hbraces⟩ := h.shaped.exists_options hk hcall
    rcases hi with rfl | rfl
    · exact lands_option h (o := ("value", FlowNode.value)) (by decide) hplaced hkind hoptions hbraces
    · exact lands_option h (o := ("gas", FlowNode.gas)) (by decide) hplaced hkind hoptions hbraces
  | entry hs hd => exact lands_definition hx.lt_of_parameter hs hd
  | use hs hu => exact .inl (isListed_use h hs hx.lt_of_definition hu)
  | merged hs he => exact lands_definition hx.lt_of_definition hs he
  | exit => exact lands_result hx.lt_of_definition _
  | invoked hroot hn hkind =>
    refine .inl (.below ⟨_, .inside hx.lt_of_definition (List.mem_append_right _ hroot), hn⟩ (.expression ?_))
    rw [hkind]
    rfl
  | value =>
    obtain ⟨hcall, hk, -⟩ := hx.callResult
    exact .inl (.below hcall (.expression (by rw [hk]; rfl)))
  | taken hcontainer hy => exact hy.lands h hx.callResult.1 hcontainer
  | later hf hs hu => exact .inl (isListed_use h hs (Program.lt_size_of_owner? hf) hu)
  | read =>
    obtain ⟨hn, hk⟩ := hx.stateRead
    exact .inl (.below hn (.expression (by rw [hk]; rfl)))

end Local

end ContractFlow.FlowModel
