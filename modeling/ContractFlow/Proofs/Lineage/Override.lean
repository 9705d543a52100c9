import ContractFlow.Proofs.Lineage.CommonOrder
import ContractFlow.Proofs.Lineage.Dispatch

/-! This module compares the two directions of overriding. -/

namespace ContractFlow

namespace Outline

variable {o : Outline} {c d : ContractId}

theorem IsAbove.idxOf_lt (h : o.IsAbove c d) (hne : c ≠ d) (hcycle : ¬ o.IsBelowCycle d) :
    o.leaveOrder.idxOf c < o.leaveOrder.idxOf d := by
  have hacyclic {b : ContractId} (hb : o.IsAbove b d) : o.isAboveCycle o.cycles b = false := by
    apply isAboveCycle_of_not_isBelowCycle
    rintro ⟨a, ha, hloop⟩
    exact hcycle ⟨a, ha.trans hb, hloop⟩
  rcases h.eq_or_exists_base with heq | ⟨b, hb, hcb⟩
  · exact absurd heq hne
  · have hbase : o.IsAbove b d := .base hb (.refl b)
    apply Nat.lt_of_le_of_lt (idxOf_le_of_isAbove (fun a ha => hacyclic (ha.trans hbase)) hcb)
    exact NeedsOrderOf.idxOf_lt ⟨hb, hacyclic (.refl d)⟩

end Outline

namespace Lineage

variable (l : Lineage)

def SortsMembers : Prop :=
  ∀ c f, f ∈ l.members c ↔ (l.callableD f).contract = some c

def IsBelow (x y : CallableId) : Prop :=
  ∃ d c, (l.callableD x).contract = some d ∧ (l.callableD y).contract = some c ∧ c ≠ d ∧ l.IsAbove c d

/-- The definition `x` is one of the kind and the key of `y` in a contract that is derived from that of `y`. -/
structure Redefines (x y : CallableId) : Prop where
  below : l.IsBelow x y
  kind : (l.callableD x).kind = (l.callableD y).kind
  key : l.key x = l.key y

variable {l} {x y z : CallableId} {c d : ContractId}

theorem SortsMembers.lt_size (h : l.SortsMembers) (hx : (l.callableD x).contract = some c) : c < l.contracts.size := by
  by_contra hc
  have hmem := (h c x).2 hx
  rw [members, Outline.contractD_of_not_lt hc] at hmem
  cases hmem

theorem SortsMembers.knowsMembers (h : l.SortsMembers) : l.KnowsMembers := by
  intro c f hf
  have hcontract := (h c f).1 hf
  apply And.intro _ hcontract
  by_contra hlt
  rw [Outline.callableD_of_not_lt hlt] at hcontract
  cases hcontract

theorem key_beq_iff (h : l.IsLegible) (hy : y < l.callables.size) :
    (l.key x == l.key y) = true ↔ l.key x = l.key y := by
  show ((l.callableD x).name == (l.callableD y).name && _ == _) = true ↔ _
  rw [Bool.and_eq_true, Value.beq_eq_true_iff (h.names y hy), Value.beq_list_eq_true_iff]
  · exact Prod.mk.injEq .. ▸ Iff.rfl
  · intro type htype
    obtain ⟨p, hp, rfl⟩ := List.mem_map.1 htype
    exact h.types y p hp

theorem isDominatedBy_iff
    (horder : ∀ d, (l.callableD z).contract = some d → ∀ c, c ∈ l.order d ↔ l.IsAbove c d) :
    l.isDominatedBy y z = true ↔ l.IsBelow z y := by
  unfold isDominatedBy IsBelow
  split
  · next c d hc hd =>
    rw [isAncestor, Bool.and_eq_true, List.contains_iff_mem, horder d hd]
    simp [hc, hd]
  · next hnone =>
    apply iff_of_false
    · exact Bool.false_ne_true
    · rintro ⟨d, c, hd, hc, -⟩
      exact hnone c d hc hd

section Distinct

variable (hlegible : l.IsLegible) (hmembers : l.SortsMembers) (hnames : l.HasDistinctNames)

include hnames in
theorem mem_order_iff (hc : c < l.contracts.size) : d ∈ l.order c ↔ l.IsAbove d c := by
  rw [order_eq]
  exact (Outline.isOrder_linearization hnames hc).mem_iff d

include hlegible hmembers in
theorem matches_iff (hy : (l.callableD y).contract = some c) :
    ((l.callableD x).kind == (l.callableD y).kind && l.key x == (l.callableD y).key) = true ↔
      (l.callableD x).kind = (l.callableD y).kind ∧ l.key x = l.key y := by
  rw [Bool.and_eq_true, beq_iff_eq]
  exact and_congr_right fun _ => key_beq_iff hlegible (hmembers.knowsMembers c y ((hmembers c y).2 hy)).1

include hlegible hmembers hnames

theorem mem_overriddenBy_iff : x ∈ l.overriddenBy y ↔ l.Redefines x y := by
  cases hy : (l.callableD y).contract with
  | none =>
    apply iff_of_false
    · simp [overriddenBy, hy]
    · rintro ⟨⟨d, c, -, hc, -⟩, -, -⟩
      rw [hy] at hc
      cases hc
  | some c =>
    have hbelow : (∃ d, ((d ∈ l.contractIds ∧ c ∈ l.order d) ∧ d ≠ c) ∧ x ∈ l.members d) ↔ l.IsBelow x y := by
      constructor
      · rintro ⟨d, ⟨⟨hd, hc⟩, hne⟩, hx⟩
        rw [mem_order_iff hnames (List.mem_range.1 hd)] at hc
        exact ⟨d, c, (hmembers d x).1 hx, hy, hne.symm, hc⟩
      · rintro ⟨d, c', hx, hc', hne, habove⟩
        obtain rfl := Option.some.inj (hy.symm.trans hc')
        have hd := hmembers.lt_size hx
        exact ⟨d, ⟨⟨List.mem_range.2 hd, (mem_order_iff hnames hd).2 habove⟩, hne.symm⟩, (hmembers d x).2 hx⟩
    simp only [overriddenBy, hy, List.mem_filter, List.mem_flatMap, derived, bne_iff_ne, List.contains_iff_mem]
    rw [matches_iff hlegible hmembers hy, hbelow]
    exact ⟨fun h => ⟨h.1, h.2.1, h.2.2⟩, fun h => ⟨h.below, h.kind, h.key⟩⟩

theorem mem_replaceable_iff : y ∈ l.replaceable x ↔ l.Redefines x y ∧ (l.callableD x).isConstructor = false := by
  cases hx : (l.callableD x).contract with
  | none =>
    apply iff_of_false
    · simp [replaceable, hx]
    · rintro ⟨⟨⟨d, c, hd, -⟩, -, -⟩, -⟩
      rw [hx] at hd
      cases hd
  | some d =>
    simp only [replaceable, hx]
    split
    · next hconstructor => simp [hconstructor]
    · next hconstructor =>
      have hd := hmembers.lt_size hx
      have hbelow : (∃ c, (c ∈ l.order d ∧ c ≠ d) ∧ y ∈ l.members c) ↔ l.IsBelow x y := by
        constructor
        · rintro ⟨c, ⟨hc, hne⟩, hy⟩
          exact ⟨d, c, hx, (hmembers c y).1 hy, hne, (mem_order_iff hnames hd).1 hc⟩
        · rintro ⟨d', c, hd', hy, hne, habove⟩
          obtain rfl := Option.some.inj (hx.symm.trans hd')
          exact ⟨c, ⟨(mem_order_iff hnames hd).2 habove, hne⟩, (hmembers c y).2 hy⟩
      simp only [List.mem_filter, List.mem_flatMap, ancestors, bne_iff_ne]
      rw [matches_iff hlegible hmembers hx, hbelow]
      constructor
      · rintro ⟨h, hkind, hkey⟩
        exact ⟨⟨h, hkind.symm, hkey.symm⟩, Bool.eq_false_iff.2 hconstructor⟩
      · rintro ⟨h, -⟩
        exact ⟨h.below, h.kind.symm, h.key.symm⟩

theorem mem_overridden_iff : y ∈ l.overridden x ↔ y ∈ l.replaceable x ∧ ∀ z ∈ l.replaceable x, ¬ l.IsBelow z y := by
  rw [overridden, mem_maximal_iff]
  apply and_congr_right
  intro hy
  obtain ⟨⟨⟨d, c, -, hc, -⟩, -, -⟩, -⟩ := (mem_replaceable_iff hlegible hmembers hnames).1 hy
  simp only [hc, Option.isSome_some, true_and, Bool.eq_false_iff, ne_eq]
  apply forall₂_congr
  intro z _
  rw [isDominatedBy_iff fun d hd c => mem_order_iff hnames (hmembers.lt_size hd)]

theorem mem_overrideRecords_iff : (x, y) ∈ l.overrideRecords ↔ y ∈ l.overridden x := by
  simp only [overrideRecords, List.mem_flatMap, List.mem_map, Prod.mk.injEq]
  constructor
  · rintro ⟨_, -, _, hy, rfl, rfl⟩
    exact hy
  · intro hy
    obtain ⟨⟨⟨d, c, hd, -⟩, -, -⟩, -⟩ :=
      (mem_replaceable_iff hlegible hmembers hnames).1 ((mem_overridden_iff hlegible hmembers hnames).1 hy).1
    exact ⟨x, ⟨d, List.mem_range.2 (hmembers.lt_size hd), (hmembers d x).2 hd⟩, y, hy, rfl, rfl⟩

end Distinct

section Acyclic

variable (hacyclic : ∀ c, ¬ l.IsBelowCycle c)

include hacyclic

theorem IsBelow.trans (h : l.IsBelow x y) (h' : l.IsBelow y z) : l.IsBelow x z := by
  obtain ⟨e, d, he, hd, hde, habove⟩ := h
  obtain ⟨d', c, hd', hc, hcd, habove'⟩ := h'
  obtain rfl := Option.some.inj (hd.symm.trans hd')
  refine ⟨e, c, he, hc, ?_, habove'.trans habove⟩
  rintro rfl
  exact Nat.lt_asymm (habove.idxOf_lt hde (hacyclic c)) (habove'.idxOf_lt hcd (hacyclic d))

theorem Redefines.trans (h : l.Redefines x y) (h' : l.Redefines y z) : l.Redefines x z where
  below := h.below.trans hacyclic h'.below
  kind := h.kind.trans h'.kind
  key := h.key.trans h'.key

variable (hlegible : l.IsLegible) (hmembers : l.SortsMembers) (hnames : l.HasDistinctNames)

include hlegible hmembers hnames

theorem Redefines.transGen (h : l.Redefines x y) (hx : (l.callableD x).isConstructor = false) :
    Relation.TransGen (fun x y => y ∈ l.overridden x) x y := by
  obtain ⟨d, c, hd, hc, hne, habove⟩ := h.below
  -- by induction on how far apart the contracts are left, which any definition between them brings closer
  induction hn : l.leaveOrder.idxOf d - l.leaveOrder.idxOf c using Nat.strong_induction_on generalizing x y c d with
  | _ n ih =>
    by_cases hy : y ∈ l.overridden x
    · exact .single hy
    · have hreplaceable := (mem_replaceable_iff hlegible hmembers hnames).2 ⟨h, hx⟩
      rw [mem_overridden_iff hlegible hmembers hnames, not_and] at hy
      have hbetween := hy hreplaceable
      push Not at hbetween
      obtain ⟨z, hz, hzy⟩ := hbetween
      have hxz := ((mem_replaceable_iff hlegible hmembers hnames).1 hz).1
      have hzy : l.Redefines z y := ⟨hzy, hxz.kind.symm.trans h.kind, hxz.key.symm.trans h.key⟩
      have hzc : (l.callableD z).isConstructor = false := by
        rw [Callable.isConstructor, ← hxz.kind]
        exact hx
      obtain ⟨d', e, hd', he, hed, habove₁⟩ := hxz.below
      obtain rfl := Option.some.inj (hd.symm.trans hd')
      obtain ⟨e', c', he', hc', hce, habove₂⟩ := hzy.below
      obtain rfl := Option.some.inj (he.symm.trans he')
      obtain rfl := Option.some.inj (hc.symm.trans hc')
      have hlow := habove₂.idxOf_lt hce (hacyclic e)
      have hhigh := habove₁.idxOf_lt hed (hacyclic d)
      apply Relation.TransGen.trans (b := z)
      · exact ih _ (by omega) hxz hx d e hd he hed habove₁ rfl
      · exact ih _ (by omega) hzy hzc e c he hc hce habove₂ rfl

theorem transGen_overridden_iff : Relation.TransGen (fun x y => y ∈ l.overridden x) x y ↔
    l.Redefines x y ∧ (l.callableD x).isConstructor = false := by
  have hstep {x y : CallableId} (hy : y ∈ l.overridden x) :
      l.Redefines x y ∧ (l.callableD x).isConstructor = false :=
    (mem_replaceable_iff hlegible hmembers hnames).1 ((mem_overridden_iff hlegible hmembers hnames).1 hy).1
  constructor
  · intro h
    induction h with
    | single hy => exact hstep hy
    | tail _ hz ih => exact ⟨ih.1.trans hacyclic (hstep hz).1, ih.2⟩
  · rintro ⟨h, hx⟩
    exact h.transGen hacyclic hlegible hmembers hnames hx

end Acyclic

theorem sortsMembers_analyse (a : Arena) (plan : FailurePlan) (settings : Settings) :
    (Session.analyse a plan settings).SortsMembers := by
  intro c f
  constructor
  · intro hf
    exact (Outline.contract_of_mem_callables hf).2
  · intro hf
    exact Outline.mem_callables_of_contract hf

end Lineage

/--
What overrides a definition from below is what chains of direct overrides link to it, where names tell contracts apart
and there is no cycle of bases. Constructors are linked to nothing, but those of derived contracts with the same
parameters are still listed.
-/
theorem Session.overriders_close_records_unless_constructor (a : Arena) (plan : FailurePlan) (settings : Settings)
    (hlegible : a.isLegible = true) (hnames : (analyse a plan settings).HasDistinctNames)
    (hacyclic : ∀ c, ¬ (analyse a plan settings).IsBelowCycle c) :
    ∃ records, (analyse a plan settings).records.outcome = .ok records ∧
      ∀ y, ∃ overriders, ((analyse a plan settings).overridersOf y).outcome = .ok overriders ∧ ∀ x,
        (((analyse a plan settings).callableD y).isConstructor = false →
          (x ∈ overriders ↔ Relation.TransGen (fun x y => (x, y) ∈ records) x y)) ∧
        (((analyse a plan settings).callableD y).isConstructor = true →
          (x ∈ overriders ↔ (analyse a plan settings).Redefines x y) ∧
            ¬ Relation.TransGen (fun x y => (x, y) ∈ records) x y) := by
  have hl : (analyse a plan settings).IsLegible := Outline.isLegible_ofArena plan hlegible
  have hmembers := Lineage.sortsMembers_analyse a plan settings
  have hknown : ∀ cs : List ContractId, ∀ c ∈ cs, (analyse a plan settings).isKnown c = true :=
    fun _ c _ => hl.known c
  refine ⟨_, Lineage.outcome_answer (hknown _) _, fun y => ⟨_, Lineage.outcome_answer (hknown _) _, fun x => ?_⟩⟩
  simp only [Lineage.mem_overrideRecords_iff hl hmembers hnames, Lineage.mem_overriddenBy_iff hl hmembers hnames,
    Lineage.transGen_overridden_iff hacyclic hl hmembers hnames]
  constructor
  · intro hy
    apply Iff.symm
    apply and_iff_left_of_imp
    intro h
    rw [Callable.isConstructor, h.kind]
    exact hy
  · intro hy
    apply And.intro trivial
    rintro ⟨h, hx⟩
    rw [Callable.isConstructor, h.kind] at hx
    exact absurd (hy.symm.trans hx) (by simp)

namespace Chain

open Sample

/-- Three contracts in a row, each with its own `f`, the upper two with constructors as well. -/
def nodes : Array Node := #[
  unit [1, 4, 9],
  contract "A" [] [2, 3],
  node .functionDefinition (some 1) "nodes" [] [("kind", .text "constructor"), ("name", .text "")],
  named .functionDefinition 1 "nodes" "f",
  contract "B" [5] [7, 8],
  base 4 6,
  basePath 5 "A",
  node .functionDefinition (some 4) "nodes" [] [("kind", .text "constructor"), ("name", .text "")],
  named .functionDefinition 4 "nodes" "f",
  contract "C" [10] [12],
  base 9 11,
  basePath 10 "B",
  named .functionDefinition 9 "nodes" "f"]

def arena : Arena :=
  arenaOf nodes (by decide +kernel)

def analysis : FlowGraph :=
  Session.analyse arena {} {}

theorem hasDistinctNames : analysis.HasDistinctNames := by
  have hall : ∀ c < 3, ∀ d < 3, analysis.contractName c == analysis.contractName d → c = d := by
    decide +kernel
  exact hall

theorem not_isBelowCycle : ∀ c, ¬ analysis.IsBelowCycle c := by
  apply Outline.not_isBelowCycle_of_lt
  have hall : ∀ d < 3, ∀ b ∈ analysis.bases d, b < d := by
    decide +kernel
  exact hall

/-- The lowest `f` overrides the highest one, though not directly, and a constructor is listed for the upper one. -/
theorem overriders_of_upper : ∃ records, analysis.records.outcome = .ok records ∧
    (4, 1) ∉ records ∧ Relation.TransGen (fun x y => (x, y) ∈ records) 4 1 ∧
    ∃ overriders, (analysis.overridersOf 0).outcome = .ok overriders ∧ 2 ∈ overriders ∧
      ¬ Relation.TransGen (fun x y => (x, y) ∈ records) 2 0 := by
  obtain ⟨records, hrecords, hall⟩ := Session.overriders_close_records_unless_constructor arena {} {}
    (by decide +kernel) hasDistinctNames not_isBelowCycle
  have hvalues : analysis.records.outcome = .ok [(3, 1), (4, 3)] ∧
      (analysis.overridersOf 1).outcome = .ok [3, 4] ∧ (analysis.overridersOf 0).outcome = .ok [2] := by
    decide +kernel
  obtain rfl := Except.ok.inj (hvalues.1.symm.trans hrecords)
  obtain ⟨upper, hupper, hf⟩ := hall 1
  obtain rfl := Except.ok.inj (hvalues.2.1.symm.trans hupper)
  obtain ⟨constructors, hconstructors, hc⟩ := hall 0
  obtain rfl := Except.ok.inj (hvalues.2.2.symm.trans hconstructors)
  refine ⟨_, hrecords, by decide, ?_, _, hconstructors, by decide, ?_⟩
  · exact ((hf 4).1 (by decide +kernel)).1 (by decide)
  · exact ((hc 2).2 (by decide +kernel)).2

end Chain

end ContractFlow
