import ContractFlow.Proofs.Flow.Listing
import ContractFlow.Proofs.Flow.Origin

/-! This module shows which syntax nodes a program evaluates. -/

namespace ContractFlow

namespace Arena

variable {a : Arena} {n container : NodeId}

theorem kind_of_container? (h : a.container? n = some container) :
    a.kind container = .variableDeclarationStatement ∨ a.kind container = .tryStatement ∨
      a.kind container = .assignment ∧
        ∃ target, a.child? container "leftHandSide" = some target ∧ a.kind target = .tupleExpression := by
  obtain ⟨-, htry | ⟨-, hdeclaration | hassignment⟩⟩ := of_container? h
  · exact .inr (.inl htry)
  · exact .inl hdeclaration
  · exact .inr (.inr hassignment)

theorem mem_slots_of_slot? {slot : NodeId} {i : Int} (h : a.slot? container i = some slot) :
    some slot ∈ a.slots container := by
  unfold slot? at h
  split at h
  · simp at h
  · exact List.mem_of_getElem? (Option.join_eq_some_iff.1 h)

theorem exists_tuple_of_slot? {slot : NodeId} {i : Int} (h : a.container? n = some container)
    (hk : a.kind container = .assignment) (hslot : a.slot? container i = some slot) :
    ∃ target, a.child? container "leftHandSide" = some target ∧ a.kind target = .tupleExpression ∧
      some slot ∈ a.entries target "components" := by
  rcases kind_of_container? h with hk' | hk' | ⟨-, target, htarget, htuple⟩
  · simp [hk] at hk'
  · simp [hk] at hk'
  · exact ⟨target, htarget, htuple, by simpa only [slots, hk, htarget] using mem_slots_of_slot? hslot⟩

theorem IsShaped.exists_roleIndex {p : NodeId} (hs : a.IsShaped) (hp : a.parent? n = some p)
    (hrole : a.role n = "arguments") : ∃ k < (a.items p "arguments").length, a.roleIndex n = (k : Int) := by
  obtain ⟨k, hposition, hk⟩ := hs.arguments n (lt_size_of_parent? hp) hrole p hp
  refine ⟨k, hk, ?_⟩
  rw [roleIndex, Option.mem_def.1 hposition]

end Arena

namespace FlowModel

structure IsGrounded (m : FlowModel) : Prop where
  legible : m.IsLegible
  shaped : m.arena.IsShaped
  callables : ∀ f < m.callables.size, ∃ contract, (m.callableD f).IsModel m.arena contract
  contracts : ∀ c < m.contracts.size, m.arena.kind (m.contractD c).node = .contractDefinition
  stateVariables : ∀ c < m.contracts.size, ∀ v ∈ (m.contractD c).stateVariables,
    m.arena.kind v.node = .variableDeclaration
  bases : ∀ c < m.contracts.size,
    (m.contractD c).bases = (Outline.headOf m.arena (m.contractD c).node).bases

variable {m : FlowModel} {f : CallableId} {c : ContractId} {n p root site decl target inner : NodeId} {s : SsaForm}
  {x : FlowNode} {i : Invocation} {b : BaseSpecifier}

inductive Holds (m : FlowModel) (p root : NodeId) : Prop
  | body (hrole : m.arena.role root = "body")
      (hkind : m.arena.kind p = .functionDefinition ∨ m.arena.kind p = .modifierDefinition)
  | value (hrole : m.arena.role root = "value") (hkind : m.arena.kind p = .variableDeclaration)
      (hlisted : m.IsListed (.stateWrite p p))
  | argument (hrole : m.arena.role root = "arguments")
      (hkind : m.arena.kind p = .modifierInvocation ∨ m.arena.kind p = .inheritanceSpecifier)
      (hlisted : ∀ k < (m.arena.items p "arguments").length, m.IsListed (.argument p k))

theorem Holds.role_not_mem (h : m.Holds p root) : m.arena.role root ∉ Arena.outerRoles := by
  cases h with
  | body hrole | value hrole | argument hrole => rw [hrole]; decide

theorem Holds.isOuter_or (h : m.Holds p root) :
    (m.arena.kind p).isOuter = true ∨ m.arena.kind p = .variableDeclaration := by
  cases h with
  | body _ hkind | argument _ hkind => rcases hkind with hk | hk <;> exact .inl (by rw [hk]; rfl)
  | value _ hkind => exact .inr hkind

theorem Holds.not_contract (h : m.Holds p root) : m.arena.kind p ≠ .contractDefinition := by
  intro hcontract
  cases h <;> simp_all

theorem exists_root_of_use (hs : (m.form? f).outcome = .ok (some s)) {d : Nat} {u : NodeId} (hu : u ∈ s.usesOf d) :
    ∃ root ∈ m.rootsOf f, m.arena.Below root u ∧ m.arena.kind u = .identifier := by
  obtain ⟨hgraph, -, -, hform⟩ := ValueFlow.outcome_form?_eq_some.1 hs
  have hsound := ControlFlow.sound_of_controlGraph? hgraph
  rw [hform] at hu
  obtain ⟨k, y, -, hk, hy, -, -, -⟩ :=
    SsaForm.exists_of_mem_usesOf hsound (fun _ _ _ hi hj => ControlFlow.point_unique hgraph hi hj) hu
  obtain ⟨body, hbody, hvisit, -⟩ := ControlFlow.exists_body hgraph hk
  have hbelow := (Arena.stays_statementControl m.arena false body).below u hvisit
  exact ⟨body, List.mem_append_left _ (Option.mem_toList.2 hbody), hbelow, (Program.of_localOf? hy).1⟩

section Grounded

variable (h : m.IsGrounded)

include h

theorem invocation_spec (hf : f < m.callables.size) (hi : i ∈ (m.callableD f).invocations) :
    m.arena.kind i.node = .modifierInvocation ∧ i.arguments = m.arena.items i.node "arguments" := by
  obtain ⟨_, hmodel⟩ := h.callables f hf
  rcases hmodel.definition with hk | hk
  · rw [(hmodel.function hk).2] at hi
    obtain ⟨k, hmem, rfl⟩ := List.mem_map.1 hi
    obtain ⟨hparent, hrole⟩ := Arena.parent?_of_mem_items hmem
    exact ⟨h.shaped.modifiers k (Arena.lt_size_of_parent? hparent) hrole _ hparent hk, rfl⟩
  · rw [Outline.invocations_eq_nil (hmodel.modifier hk).1] at hi
    simp at hi

theorem base_spec (hc : c < m.contracts.size) (hb : b ∈ (m.contractD c).bases) :
    m.arena.kind b.node = .inheritanceSpecifier ∧ b.arguments = m.arena.items b.node "arguments" := by
  rw [h.bases c hc] at hb
  obtain ⟨k, hmem, rfl⟩ := List.mem_map.1 hb
  obtain ⟨hparent, hrole⟩ := Arena.parent?_of_mem_items hmem
  exact ⟨h.shaped.bases k (Arena.lt_size_of_parent? hparent) hrole _ hparent (h.contracts c hc), rfl⟩

theorem holds_of_isRoot (hroot : m.IsRoot root) : ∃ p, m.arena.parent? root = some p ∧ m.Holds p root := by
  cases hroot with
  | @inside f _ hf hroot =>
    obtain ⟨_, hmodel⟩ := h.callables f hf
    rcases List.mem_append.1 hroot with hbody | hargument
    · rw [hmodel.body] at hbody
      obtain ⟨hparent, hrole⟩ := Arena.parent?_of_child? (Option.mem_toList.1 hbody)
      exact ⟨_, hparent, .body hrole hmodel.definition⟩
    · obtain ⟨i, hi, hargument⟩ := List.mem_flatMap.1 hargument
      obtain ⟨hk, harguments⟩ := invocation_spec h hf hi
      rw [harguments] at hargument
      obtain ⟨hparent, hrole⟩ := Arena.parent?_of_mem_items hargument
      exact ⟨_, hparent, .argument hrole (.inl hk) fun k hk => .invoked hf hi (harguments ▸ hk)⟩
  | initial hc hv hroot =>
    obtain ⟨hparent, hrole⟩ := Arena.parent?_of_child? hroot
    exact ⟨_, hparent, .value hrole (h.stateVariables _ hc _ hv) (.initial hc hv hroot)⟩
  | base hc hb hroot =>
    obtain ⟨hk, harguments⟩ := base_spec h hc hb
    rw [harguments] at hroot
    obtain ⟨hparent, hrole⟩ := Arena.parent?_of_mem_items hroot
    exact ⟨_, hparent, .argument hrole (.inr hk) fun k hk => .base hc hb (harguments ▸ hk)⟩

theorem IsPlaced.not_isOuter (hn : m.IsPlaced n) : (m.arena.kind n).isOuter = false := by
  obtain ⟨root, hroot, hn⟩ := hn
  obtain ⟨q, hq, hholds⟩ := holds_of_isRoot h hroot
  -- going down from the root, a definition would have to stand right below another one
  induction Arena.below_of_mem_walk hn with
  | refl =>
    by_contra houter
    rw [Bool.not_eq_false] at houter
    exact hholds.role_not_mem (h.shaped.outer _ (Arena.lt_size_of_parent? hq) houter q hq).2
  | @tail k l hbelow hparent ih =>
    by_contra houter
    rw [Bool.not_eq_false] at houter
    have hk := (h.shaped.outer l (Arena.lt_size_of_parent? hparent) houter k hparent).1
    rw [ih (h.shaped.mem_walk_of_below hbelow)] at hk
    simp at hk

theorem IsPlaced.parent_or (hn : m.IsPlaced n) (hp : m.arena.parent? n = some p) : m.IsPlaced p ∨ m.Holds p n := by
  obtain ⟨root, hroot, hn⟩ := hn
  by_cases heq : n = root
  · subst heq
    obtain ⟨q, hq, hholds⟩ := holds_of_isRoot h hroot
    exact .inr (Option.some.inj (hp.symm.trans hq) ▸ hholds)
  · exact .inl ⟨root, hroot, Arena.parent_mem_walk hn heq hp⟩

theorem IsPlaced.parent (hn : m.IsPlaced n) (hp : m.arena.parent? n = some p)
    (houter : (m.arena.kind p).isOuter = false) (hvariable : m.arena.kind p ≠ .variableDeclaration) :
    m.IsPlaced p := by
  refine (IsPlaced.parent_or h hn hp).resolve_right fun hholds => ?_
  rcases hholds.isOuter_or with hk | hk
  · simp [houter] at hk
  · exact hvariable hk

theorem IsPlaced.holds (hn : m.IsPlaced n) (hp : m.arena.parent? n = some p)
    (houter : (m.arena.kind p).isOuter = true) : m.Holds p n := by
  refine (IsPlaced.parent_or h hn hp).resolve_left fun hplaced => ?_
  simp [IsPlaced.not_isOuter h hplaced] at houter

theorem IsPlaced.callSite {n call : NodeId} (hn : m.IsPlaced n) (hcall : m.arena.callSiteOf? n = some call) :
    m.IsPlaced call ∧ m.arena.kind call = .functionCall := by
  obtain ⟨p, hp, -, ⟨hk, hcall⟩ | ⟨hk, rfl⟩⟩ := Arena.callSiteOf?_eq_some_iff.1 hcall
  · have hlt := m.arena.lt_of_parent? hp
    exact IsPlaced.callSite (IsPlaced.parent h hn hp (by rw [hk]; rfl) (by simp [hk])) hcall
  · exact ⟨IsPlaced.parent h hn hp (by rw [hk]; rfl) (by simp [hk]), hk⟩
termination_by n

theorem isListed_use (hs : (m.form? f).outcome = .ok (some s)) (hf : f < m.callables.size) {d : Nat} {u : NodeId}
    (hu : u ∈ s.usesOf d) : m.IsListed (.expression u) := by
  obtain ⟨body, hroot, hbelow, hkind⟩ := exists_root_of_use hs hu
  refine .below ⟨body, .inside hf hroot, h.shaped.mem_walk_of_below hbelow⟩ (.expression ?_)
  rw [hkind]
  rfl

end Grounded

end FlowModel

end ContractFlow
