import ContractFlow.Call.Site
import ContractFlow.Proofs.Program.Owner

/-! This module says what the trees of a compiler have in common beyond what the fields of each node hold. -/

namespace ContractFlow

def Kind.isOuter : Kind → Bool
  | sourceUnit | contractDefinition | functionDefinition | modifierDefinition | modifierInvocation
  | inheritanceSpecifier => true
  | _ => false

namespace Arena

def outerRoles : List String :=
  ["nodes", "modifiers", "baseContracts"]

/-- An arena of trees as compilers write them. -/
structure IsShaped (a : Arena) : Prop where
  linked : ∀ n < a.size, ∀ p ∈ a.parent? n, n ∈ a.children p
  outer : ∀ n < a.size, (a.kind n).isOuter = true → ∀ p ∈ a.parent? n,
    (a.kind p).isOuter = true ∧ a.role n ∈ outerRoles
  modifiers : ∀ n < a.size, a.role n = "modifiers" → ∀ p ∈ a.parent? n, a.kind p = .functionDefinition →
    a.kind n = .modifierInvocation
  bases : ∀ n < a.size, a.role n = "baseContracts" → ∀ p ∈ a.parent? n, a.kind p = .contractDefinition →
    a.kind n = .inheritanceSpecifier
  expression : ∀ n < a.size, a.role n = "expression" → ∀ p ∈ a.parent? n, a.child? p "expression" = some n
  operand : ∀ n < a.size, ∀ p ∈ a.parent? n, a.kind p = .unaryOperation → a.child? p "subExpression" = some n
  arguments : ∀ n < a.size, a.role n = "arguments" → ∀ p ∈ a.parent? n,
    ∃ i ∈ (a.node n).position, i < (a.items p "arguments").length
  names : ∀ n < a.size, a.kind n = .identifier → (a.text n).holds = true

variable {a : Arena} {n m p c call : NodeId}

theorem parent_mem_walk {n : NodeId} (hm : m ∈ a.walk n) (hne : m ≠ n) (hp : a.parent? m = some p) : p ∈ a.walk n := by
  rcases mem_walk_iff.1 hm with rfl | ⟨k, hk, hm⟩
  · exact absurd rfl hne
  · have := a.lt_of_mem_children hk
    by_cases hmk : m = k
    · subst hmk
      obtain rfl := Option.some.inj (hp.symm.trans (parent?_of_mem_children hk))
      exact mem_walk_self a p
    · exact mem_walk_iff.2 (.inr ⟨k, hk, parent_mem_walk hm hmk hp⟩)
termination_by a.size - n

theorem callSiteOf?_eq_some_iff : a.callSiteOf? n = some call ↔ ∃ p, a.parent? n = some p ∧ a.role n = "expression" ∧
    (a.kind p = .functionCallOptions ∧ a.callSiteOf? p = some call ∨ a.kind p = .functionCall ∧ p = call) := by
  rw [callSiteOf?]
  split
  · next hp => simp [hp]
  · next p hp =>
    simp only [hp, Option.some.injEq, exists_eq_left']
    split
    · next hrole => simp_all
    · next hrole =>
      split
      · next hk => simp_all
      · next hk => simp_all
      · next hoptions hcall => simp_all

theorem callee?_of_callSiteOf? {n : NodeId}
    (hone : ∀ n p, a.parent? n = some p → a.role n = "expression" →
      a.kind p = .functionCall ∨ a.kind p = .functionCallOptions → a.child? p "expression" = some n)
    (h : a.callSiteOf? n = some call) : a.callee? call = a.withoutOptions? n := by
  obtain ⟨p, hp, hrole, ⟨hk, h⟩ | ⟨hk, rfl⟩⟩ := callSiteOf?_eq_some_iff.1 h
  · have hlt := a.lt_of_parent? hp
    have hchild := hone n p hp hrole (.inr hk)
    rw [callee?_of_callSiteOf? hone h, withoutOptions?, if_pos (by simp [hk])]
    split
    · next hnone => simp [hchild] at hnone
    · next c hc => rw [Option.some.inj (hchild.symm.trans hc)]
  · rw [callee?, hone n p hp hrole (.inl hk)]
    rfl
termination_by n

theorem callSiteOf?_of_withoutOptions? {n : NodeId} (h : a.withoutOptions? n = some c) :
    a.callSiteOf? c = a.callSiteOf? n := by
  rw [withoutOptions?] at h
  split at h
  · next hk =>
    split at h
    · simp at h
    · next d hd =>
      have hlt := a.lt_of_child? hd
      obtain ⟨hp, hrole⟩ := parent?_of_child? hd
      ext call
      rw [callSiteOf?_of_withoutOptions? h, callSiteOf?_eq_some_iff, hp, hrole]
      simp [eq_of_beq hk]
  · rw [Option.some.inj h]
termination_by a.size - n

theorem IsLinked.mem_childRoles (hl : a.IsLinked) (hp : a.parent? n = some p) {roles : List String}
    (hroles : (a.kind p).childRoles = some roles) : a.role n ∈ roles := by
  obtain ⟨⟨role, slot⟩, hslot, hn⟩ := List.mem_flatMap.1 (hl.listed n p hp)
  have hmade := hl.made p (Nat.lt_trans (lt_of_parent? hp) (lt_size_of_parent? hp))
  have hkey : role ∈ Holding.rolesOf (a.node p).fields := hmade.keys.subset (List.mem_map_of_mem hslot)
  rw [Holding.rolesOf, ← hmade.kind, ← kind, hroles] at hkey
  rwa [(parent?_of_mem_slot hslot hn).2]

theorem IsLinked.child?_eq (hl : a.IsLinked) (hp : a.parent? n = some p) (hrole : a.role n = "expression")
    (hk : a.kind p = .functionCall ∨ a.kind p = .functionCallOptions)
    (hone : ∀ children, (a.node p).slots.lookup "expression" ≠ some (.many children)) :
    a.child? p "expression" = some n := by
  obtain ⟨⟨role, slot⟩, hslot, hn⟩ := List.mem_flatMap.1 (hl.listed n p hp)
  obtain rfl : "expression" = role := hrole.symm.trans (parent?_of_mem_slot hslot hn).2
  have hmade := hl.made p (Nat.lt_trans (lt_of_parent? hp) (lt_size_of_parent? hp))
  have hroles : (Holding.rolesOf (a.node p).fields).Nodup := by
    rw [Holding.rolesOf, ← hmade.kind, ← kind]
    rcases hk with hk | hk <;> simp [hk, Kind.childRoles]
  have hkeys := List.inj_on_of_nodup_map (hroles.sublist hmade.keys)
  have hlookup := (lookup_eq_some_iff fun y hy z hz => (Prod.mk.inj (hkeys hy hz rfl)).2).2 hslot
  cases slot with
  | one child =>
    rw [child?, Node.child?, hlookup, Slot.mem_ids_one.1 hn]
  | many children => exact absurd hlookup (hone children)

/--
Looking up what a call calls and looking up the call of what is called are inverse, through any number of braces with
options around what is called, in trees where the field that holds what is called never holds a list.
-/
theorem callee_and_call_site_are_inverse {sources : List Source} (ha : ofSources sources = .ok a)
    (hone : ∀ p, a.kind p = .functionCall ∨ a.kind p = .functionCallOptions →
      ∀ children, (a.node p).slots.lookup "expression" ≠ some (.many children))
    {s e : NodeId} (hs : a.kind s = .functionCall) (he : a.kind e ≠ .functionCallOptions) :
    a.callee? s = some e ↔ a.callSiteOf? e = some s := by
  constructor
  · intro h
    obtain ⟨c, hc, h⟩ := Option.bind_eq_some_iff.1 h
    obtain ⟨hp, hrole⟩ := parent?_of_child? hc
    rw [callSiteOf?_of_withoutOptions? h]
    exact callSiteOf?_eq_some_iff.2 ⟨s, hp, hrole, .inr ⟨hs, rfl⟩⟩
  · intro h
    rw [callee?_of_callSiteOf? (fun n p hp hrole hk => (IsLinked.ofSources ha).child?_eq hp hrole hk (hone p hk)) h,
      withoutOptions?, if_neg (by simpa using he)]

namespace IsShaped

variable (hs : a.IsShaped)

include hs

theorem mem_walk_of_below (h : a.Below n m) : m ∈ a.walk n :=
  Arena.mem_walk_of_below h fun c p _ hp => hs.linked c (lt_size_of_parent? hp) p hp

/-- Contracts stand in source units, directly or in each other. -/
theorem kind_above_contract (hl : a.IsLinked) (hk : a.kind n = .sourceUnit ∨ a.kind n = .contractDefinition)
    (hp : a.parent? n = some p) : a.kind p = .sourceUnit ∨ a.kind p = .contractDefinition := by
  have hlt := lt_size_of_parent? hp
  obtain ⟨houter, hrole⟩ := hs.outer n hlt (by rcases hk with hk | hk <;> simp [hk, Kind.isOuter]) p hp
  have hmodifier (h : a.role n = "modifiers") := hs.modifiers n hlt h p hp
  -- the other kinds around what is evaluated have no field in which a contract can stand
  cases hkp : a.kind p <;> simp [hkp, Kind.isOuter] at houter ⊢
  all_goals
    have hfield := hl.mem_childRoles hp (congrArg Kind.childRoles hkp)
    simp only [outerRoles, List.mem_cons, List.not_mem_nil, or_false] at hrole hfield
    grind

theorem exists_options {n : NodeId} (hk : a.kind n = .functionCallOptions) (h : a.callSiteOf? n = some call) :
    ∃ options, a.child? call "expression" = some options ∧ a.kind options = .functionCallOptions := by
  obtain ⟨p, hp, hrole, ⟨hkp, h⟩ | ⟨-, rfl⟩⟩ := callSiteOf?_eq_some_iff.1 h
  · have hlt := a.lt_of_parent? hp
    exact exists_options hkp h
  · exact ⟨n, hs.expression n (lt_size_of_parent? hp) hrole p hp, hk⟩
termination_by n

end IsShaped

end Arena

/-! A call with two braces of options: `f{..}{..}()`. -/

namespace Braced

def braces (callee : Value) : Value :=
  .object [("nodeType", "FunctionCallOptions"), ("expression", callee)]

def fields : Fields :=
  [("nodeType", "FunctionCall"), ("expression", braces (braces (.object [("nodeType", "Identifier")])))]

def arena : Arena :=
  Arena.empty.plant fields "sample.sol" ""

theorem callee_and_call_site_of_braced : Arena.ofSources [⟨"sample.sol", .object fields, ""⟩] = .ok arena ∧
    arena.kind 0 = .functionCall ∧ arena.kind 3 = .identifier ∧ arena.child? 0 "expression" = some 1 ∧
    arena.callSiteOf? 3 = some 0 ∧ arena.callee? 0 = some 3 := by
  have hadd : Arena.empty.add ⟨"sample.sol", .object fields, ""⟩ = .ok arena :=
    if_neg (by decide +kernel : ¬arena.nodes.any Arena.badKind = true)
  have hall : Arena.ofSources [⟨"sample.sol", .object fields, ""⟩] = .ok arena :=
    Outcome.bind_eq_ok.2 ⟨_, rfl, Outcome.bind_eq_ok.2 ⟨arena, hadd, rfl⟩⟩
  have hchild : ∀ p < arena.size, arena.kind p = .functionCall ∨ arena.kind p = .functionCallOptions →
      (arena.child? p "expression").isSome = true := by decide +kernel
  have hsite : arena.callSiteOf? 3 = some 0 := by decide +kernel
  refine ⟨hall, by decide +kernel, by decide +kernel, by decide +kernel, hsite,
    (Arena.callee_and_call_site_are_inverse hall ?_ ?_ ?_).2 hsite⟩
  · intro p hp children hmany
    have hlt : p < arena.size := by
      rcases hp with hp | hp <;> exact Arena.lt_size_of_kind hp (by decide)
    have h := hchild p hlt hp
    simp [Arena.child?, Node.child?, hmany] at h
  · decide +kernel
  · decide +kernel

end Braced

end ContractFlow
