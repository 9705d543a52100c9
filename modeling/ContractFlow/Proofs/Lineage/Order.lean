import ContractFlow.Proofs.Graph.Cycle
import ContractFlow.Proofs.Lineage.Closure
import ContractFlow.Proofs.Query
import ContractFlow.Session
import Mathlib.Data.List.Perm.Subperm

/-!
This module shows that the order of a contract lists the contract and the contracts above it. Its recursion ends because
the cycle search has marked a contract above each one that a chain of bases could lead back to.
-/

namespace ContractFlow

namespace Merge

variable {sequences : List (List Nat)} {x y : Nat} {s : List Nat}

theorem notMem_tail_of_front? (h : front? sequences = some x) (hs : s ∈ sequences) : x ∉ s.tail := by
  have hfree : isFree sequences x = true := List.find?_some h
  simpa using List.all_eq_true.1 hfree s hs

theorem exists_head?_of_front? (h : front? sequences = some x) : ∃ s ∈ sequences, s.head? = some x :=
  List.mem_filterMap.1 (List.mem_of_find?_eq_some h)

theorem notMem_drop (h : x ∉ s.tail) : x ∉ drop x s := by
  unfold drop
  split
  · exact h
  · next hhead =>
    cases s with
    | nil => simp
    | cons y s => simp_all [Ne.symm]

theorem sublist_of_drop {m : List Nat} (h : (drop x s).Sublist m) : s.Sublist (x :: m) := by
  unfold drop at h
  split at h
  · next hhead =>
    rw [List.eq_cons_of_mem_head? hhead]
    exact h.cons_cons x
  · exact h.cons x

theorem mem_drop_of_mem (hy : y ∈ s) (hne : y ≠ x) : y ∈ drop x s := by
  unfold drop
  split
  · next hhead =>
    rw [List.eq_cons_of_mem_head? hhead] at hy
    exact (List.mem_cons.1 hy).resolve_left hne
  · exact hy

theorem drop_subset : drop x s ⊆ s := by
  unfold drop
  split
  · exact (List.tail_sublist s).subset
  · exact List.Subset.refl s

end Merge

inductive Merged : List (List Nat) → List Nat → Prop
  | done {sequences} (h : ∀ s ∈ sequences, s = []) : Merged sequences []
  | take {sequences x m} (hfront : Merge.front? sequences = some x)
      (h : Merged (sequences.map (Merge.drop x)) m) : Merged sequences (x :: m)

theorem merged_of_merge {sequences : List (List Nat)} {m : List Nat} (h : merge sequences = some m) :
    Merged sequences m := by
  rw [merge] at h
  split at h
  · next hempty =>
    obtain rfl := Option.some.inj h
    exact .done (by simpa using hempty)
  · split at h
    · simp at h
    · next x hfront =>
      have := Merge.size_drop_lt hfront
      obtain ⟨m, hm, rfl⟩ := Option.map_eq_some_iff.1 h
      exact .take hfront (merged_of_merge hm)
termination_by Merge.size sequences

namespace Merged

variable {sequences : List (List Nat)} {m : List Nat}

theorem mem_iff (h : Merged sequences m) (x : Nat) : x ∈ m ↔ ∃ s ∈ sequences, x ∈ s := by
  induction h with
  | done hempty => grind
  | @take sequences y m hfront _ ih =>
    rw [List.mem_cons, ih]
    constructor
    · rintro (rfl | ⟨_, hs, hx⟩)
      · obtain ⟨s, hs, hhead⟩ := Merge.exists_head?_of_front? hfront
        exact ⟨s, hs, List.mem_of_head? hhead⟩
      · obtain ⟨s, hmem, rfl⟩ := List.mem_map.1 hs
        exact ⟨s, hmem, Merge.drop_subset hx⟩
    · rintro ⟨s, hs, hx⟩
      by_cases hxy : x = y
      · exact .inl hxy
      · exact .inr ⟨_, List.mem_map_of_mem hs, Merge.mem_drop_of_mem hx hxy⟩

theorem nodup (h : Merged sequences m) : m.Nodup := by
  induction h with
  | done => exact List.nodup_nil
  | take hfront h ih =>
    refine List.nodup_cons.2 ⟨fun hmem => ?_, ih⟩
    obtain ⟨_, hs, hx⟩ := (h.mem_iff _).1 hmem
    obtain ⟨s, hmem, rfl⟩ := List.mem_map.1 hs
    exact Merge.notMem_drop (Merge.notMem_tail_of_front? hfront hmem) hx

theorem sublist (h : Merged sequences m) {s : List Nat} (hs : s ∈ sequences) : s.Sublist m := by
  induction h generalizing s with
  | done hempty => rw [hempty s hs]
  | take _ _ ih => exact Merge.sublist_of_drop (ih (List.mem_map_of_mem hs))

end Merged

namespace Outline

variable (o : Outline)
variable {c b : ContractId}

def leaveOrder : List ContractId :=
  Graph.leaves (Graph.searchAll o.bases o.contracts.size o.contractIds [])

/-- The order of `c` is found from that of `b`. -/
def NeedsOrderOf (b c : ContractId) : Prop :=
  b ∈ o.bases c ∧ o.isAboveCycle o.cycles c = false

variable {o}

theorem cycles_searched : Graph.SearchedAll o.bases o.contracts.size o.contractIds []
    (Graph.searchAll o.bases o.contracts.size o.contractIds []) :=
  Graph.searchAll_searched o.contractIds [] (by simp)

theorem mem_cycles_iff {cycle : List ContractId} : cycle ∈ o.cycles ↔
    .back cycle ∈ Graph.searchAll o.bases o.contracts.size o.contractIds [] := by
  refine List.mem_filterMap.trans ⟨?_, fun h => ⟨_, h, rfl⟩⟩
  rintro ⟨⟨⟩ | ⟨path⟩, hevent, heq⟩
  · cases heq
  · exact Option.some.inj heq ▸ hevent

theorem isCircuit_of_mem_cycles {cycle : List ContractId} (h : cycle ∈ o.cycles) : Graph.IsCircuit o.bases cycle :=
  Graph.isCircuit_of_searchAll o.contractIds [] (by simp) (mem_cycles_iff.1 h)

theorem mem_leaveOrder (hc : c < o.contracts.size) : c ∈ o.leaveOrder :=
  (cycles_searched.roots_found c (List.mem_range.2 hc)).resolve_left List.not_mem_nil

theorem length_leaveOrder_le : o.leaveOrder.length ≤ o.contracts.size := by
  have hsub : o.leaveOrder ⊆ o.contractIds := fun c hc =>
    List.mem_range.2 (cycles_searched.bounded (fun r hr => List.mem_range.1 hr) c hc)
  calc
    o.leaveOrder.length ≤ o.contractIds.length :=
      (List.Nodup.subperm cycles_searched.nodup hsub).length_le
    _ = o.contracts.size := List.length_range

theorem idxOf_leaveOrder_lt (hc : c < o.contracts.size) : o.leaveOrder.idxOf c < o.contracts.size :=
  Nat.lt_of_lt_of_le (List.idxOf_lt_length_of_mem (mem_leaveOrder hc)) length_leaveOrder_le

theorem sublist_leaveOrder (hb : b ∈ o.bases c) (hc : c < o.contracts.size)
    (hcycles : ∀ path ∈ o.cycles, c ∉ path) : [b, c].Sublist o.leaveOrder := by
  rcases cycles_searched.settled c (mem_leaveOrder hc) b hb (lt_size_of_mem_bases hb)
    with hnil | hsub | ⟨path, hpath, hcp, -⟩
  · simp at hnil
  · exact hsub
  · exact absurd hcp (hcycles path (mem_cycles_iff.2 hpath))

theorem lt_size_of_base (hb : b ∈ o.bases c) : c < o.contracts.size := by
  by_contra hc
  have hdefault : o.contractD c = default := by
    simp only [contractD, Array.getD_eq_getD_getElem?, Array.getElem?_eq_none (Nat.le_of_not_lt hc)]
    rfl
  simp [bases, hdefault, default, instInhabitedContract.default] at hb

theorem isAboveCycle_iff {cycles : List (List ContractId)} :
    o.isAboveCycle cycles c = true ↔ ∃ b ∈ o.baseClosure c, ∃ path ∈ cycles, b ∈ path := by
  simp [isAboveCycle]

namespace NeedsOrderOf

theorem idxOf_lt {b c : ContractId} (h : o.NeedsOrderOf b c) : o.leaveOrder.idxOf b < o.leaveOrder.idxOf c := by
  have hc := lt_size_of_base h.1
  have hcycles : ∀ path ∈ o.cycles, c ∉ path := by
    intro path hpath hmem
    have : o.isAboveCycle o.cycles c = true :=
      isAboveCycle_iff.2 ⟨c, List.mem_of_head? (head?_baseClosure o c), path, hpath, hmem⟩
    rw [h.2] at this
    exact absurd this Bool.false_ne_true
  exact Graph.idxOf_lt_of_sublist cycles_searched.nodup (sublist_leaveOrder h.1 hc hcycles)

theorem wellFounded (o : Outline) : WellFounded o.NeedsOrderOf :=
  Subrelation.wf (fun h => h.idxOf_lt) (measure o.leaveOrder.idxOf).wf

end NeedsOrderOf

section Recursion

variable (o) in
variable {c : ContractId}
def orderFrom (orders : ContractId → List ContractId) (c : ContractId) : List ContractId :=
  if o.isAboveCycle o.cycles c then o.baseClosure c
  else (o.mergeBases orders c).getD (o.baseClosure c)

theorem mergeBases_congr {orders orders' : ContractId → List ContractId}
    (h : ∀ b ∈ o.bases c, orders b = orders' b) : o.mergeBases orders c = o.mergeBases orders' c := by
  have hmap : (o.bases c).reverse.map orders = (o.bases c).reverse.map orders' :=
    List.map_congr_left fun b hb => h b (List.mem_reverse.1 hb)
  simp only [mergeBases, hmap]

theorem orderFrom_congr {orders orders' : ContractId → List ContractId}
    (h : ∀ b, o.NeedsOrderOf b c → orders b = orders' b) :
    o.orderFrom orders c = o.orderFrom orders' c := by
  unfold orderFrom
  by_cases hcycle : o.isAboveCycle o.cycles c = true
  · rw [if_pos hcycle, if_pos hcycle]
  · rw [mergeBases_congr fun b hb => h b ⟨hb, Bool.eq_false_iff.2 hcycle⟩]

theorem linearize_eq {fuel fuel' : Nat} (h : o.leaveOrder.idxOf c < fuel)
    (h' : o.leaveOrder.idxOf c < fuel') : o.linearize o.cycles fuel c = o.linearize o.cycles fuel' c := by
  induction fuel generalizing fuel' c with
  | zero => omega
  | succ fuel ih =>
    obtain ⟨fuel', rfl⟩ : ∃ k, fuel' = k + 1 := ⟨fuel' - 1, by omega⟩
    refine orderFrom_congr fun b hb => ?_
    have := hb.idxOf_lt
    exact ih (by omega) (by omega)

theorem linearization_eq (hc : c < o.contracts.size) : o.linearization c = o.orderFrom o.linearization c :=
  linearize_eq (idxOf_leaveOrder_lt hc) (Nat.lt_succ_of_lt (idxOf_leaveOrder_lt hc))

end Recursion

structure IsOrder (o : Outline) (order : List ContractId) (c : ContractId) : Prop where
  nodup : order.Nodup
  head : order.head? = some c
  mem_iff : ∀ a, a ∈ order ↔ o.IsAbove a c

theorem idxOf_le_of_isAbove {a : ContractId}
    (hcycle : ∀ b, o.IsAbove b c → o.isAboveCycle o.cycles b = false) (ha : o.IsAbove a c) :
    o.leaveOrder.idxOf a ≤ o.leaveOrder.idxOf c := by
  induction ha with
  | refl => exact Nat.le_refl _
  | tail hb ha ih => exact Nat.le_trans (Nat.le_of_lt (NeedsOrderOf.idxOf_lt ⟨ha, hcycle _ hb⟩)) ih

theorem isOrder_of_mergeBases {orders : ContractId → List ContractId} {order : List ContractId}
    (hself : ∀ b ∈ o.bases c, ¬ o.IsAbove c b) (horders : ∀ b ∈ o.bases c, o.IsOrder (orders b) b)
    (hm : o.mergeBases orders c = some order) : o.IsOrder order c := by
  simp only [mergeBases] at hm
  split at hm
  · next hempty =>
    have hbases : o.bases c = [] := by simpa using hempty
    obtain rfl := Option.some.inj hm
    refine ⟨List.nodup_singleton c, rfl, fun a => ?_⟩
    rw [List.mem_singleton]
    constructor
    · rintro rfl
      exact .refl a
    · intro ha
      rcases ha.eq_or_exists_base with rfl | ⟨b, hb, -⟩
      · rfl
      · simp [hbases] at hb
  · obtain ⟨m, hmerge, rfl⟩ := Option.map_eq_some_iff.1 hm
    have hmerged := merged_of_merge hmerge
    have hmem : ∀ a, a ∈ m ↔ ∃ b ∈ o.bases c, o.IsAbove a b := by
      intro a
      rw [hmerged.mem_iff]
      constructor
      · rintro ⟨s, hs, ha⟩
        rcases List.mem_append.1 hs with hs | hs
        · obtain ⟨b, hb, rfl⟩ := List.mem_map.1 hs
          have hb := List.mem_reverse.1 hb
          exact ⟨b, hb, ((horders b hb).mem_iff a).1 ha⟩
        · rw [List.mem_singleton.1 hs] at ha
          exact ⟨a, List.mem_reverse.1 ha, .refl a⟩
      · rintro ⟨b, hb, ha⟩
        refine ⟨orders b, List.mem_append_left _ (List.mem_map_of_mem (List.mem_reverse.2 hb)), ?_⟩
        exact ((horders b hb).mem_iff a).2 ha
    refine ⟨List.nodup_cons.2 ⟨fun hc => ?_, hmerged.nodup⟩, rfl, fun a => ?_⟩
    · obtain ⟨b, hb, hcb⟩ := (hmem c).1 hc
      exact hself b hb hcb
    · rw [List.mem_cons, hmem]
      constructor
      · rintro (rfl | ⟨b, hb, ha⟩)
        · exact .refl a
        · exact .base hb ha
      · exact IsAbove.eq_or_exists_base

theorem not_isAbove_base (hb : b ∈ o.bases c)
    (hcycle : ∀ a, o.IsAbove a c → o.isAboveCycle o.cycles a = false) : ¬ o.IsAbove c b := by
  intro hcb
  have hle := idxOf_le_of_isAbove (fun a ha => hcycle a (ha.trans (.base hb (.refl b)))) hcb
  have hlt := NeedsOrderOf.idxOf_lt ⟨hb, hcycle c (.refl c)⟩
  exact Nat.not_lt_of_le hle hlt

section Distinct

variable (h : o.HasDistinctNames)
variable {c : ContractId}

include h

theorem isAboveCycle_eq_false {a : ContractId} (hc : c < o.contracts.size) (habove : o.IsAbove a c)
    (hcycle : o.isAboveCycle o.cycles c = false) : o.isAboveCycle o.cycles a = false := by
  have ha := habove.lt_size hc
  by_contra hne
  obtain ⟨b, hb, path, hpath, hbp⟩ := isAboveCycle_iff.1 (eq_true_of_ne_false hne)
  have hbc : o.IsAbove b c := ((mem_baseClosure_iff h ha).1 hb).trans habove
  have : o.isAboveCycle o.cycles c = true :=
    isAboveCycle_iff.2 ⟨b, (mem_baseClosure_iff h hc).2 hbc, path, hpath, hbp⟩
  rw [hcycle] at this
  exact absurd this Bool.false_ne_true

theorem isOrder_baseClosure (hc : c < o.contracts.size) : o.IsOrder (o.baseClosure c) c :=
  ⟨nodup_baseClosure h hc, head?_baseClosure o c, fun _ => mem_baseClosure_iff h hc⟩

theorem isOrder_linearization (hc : c < o.contracts.size) : o.IsOrder (o.linearization c) c := by
  induction c using (NeedsOrderOf.wellFounded o).induction with
  | _ c ih =>
    rw [linearization_eq hc]
    unfold orderFrom
    split
    · exact isOrder_baseClosure h hc
    · next hcycle =>
      have hcycle : o.isAboveCycle o.cycles c = false := Bool.eq_false_iff.2 hcycle
      cases hm : o.mergeBases o.linearization c with
      | none => exact isOrder_baseClosure h hc
      | some order =>
        refine isOrder_of_mergeBases (fun b hb => ?_) (fun b hb => ?_) hm
        · exact not_isAbove_base hb fun a ha => isAboveCycle_eq_false h hc ha hcycle
        · exact ih b ⟨hb, hcycle⟩ (lt_size_of_mem_bases hb)

end Distinct

section Unmerged

variable {c d : ContractId}

/-- The orders of the bases of a contract, which is below no cycle, cannot be merged. -/
def HasNoMerge (o : Outline) (c : ContractId) : Prop :=
  o.isAboveCycle o.cycles c = false ∧ o.mergeBases o.linearization c = none

theorem bases_eq_nil (hc : ¬ c < o.contracts.size) : o.bases c = [] :=
  List.eq_nil_iff_forall_not_mem.2 fun _ hb => hc (lt_size_of_base hb)

theorem HasNoMerge.lt_size (h : o.HasNoMerge c) : c < o.contracts.size := by
  by_contra hc
  have hmerge := h.2
  simp [mergeBases, bases_eq_nil hc] at hmerge

theorem mergeBases_linearize {fuel : Nat} (hcycle : o.isAboveCycle o.cycles c = false)
    (hc : o.leaveOrder.idxOf c ≤ fuel) :
    o.mergeBases (o.linearize o.cycles fuel) c = o.mergeBases o.linearization c := by
  refine mergeBases_congr fun b hb => linearize_eq ?_ (idxOf_leaveOrder_lt (lt_size_of_mem_bases hb))
  exact Nat.lt_of_lt_of_le (NeedsOrderOf.idxOf_lt ⟨hb, hcycle⟩) hc

theorem hasNoMerge_of_mem_unmerged {fuel : Nat} (hc : o.leaveOrder.idxOf c < fuel)
    (hd : d ∈ o.unmerged o.cycles fuel c) : o.HasNoMerge d := by
  -- bases are left before what is derived from them, so the fuel that is left does for them
  induction fuel generalizing c with
  | zero => omega
  | succ fuel ih =>
    unfold unmerged at hd
    split at hd
    · cases hd
    · next hcycle =>
      have hcycle : o.isAboveCycle o.cycles c = false := Bool.eq_false_iff.2 hcycle
      rw [List.mem_append, List.mem_eraseDups, List.mem_flatMap] at hd
      obtain ⟨b, hb, hd⟩ | hd := hd
      · have hlt := NeedsOrderOf.idxOf_lt ⟨List.mem_reverse.1 hb, hcycle⟩
        exact ih (by omega) hd
      · split at hd
        · next hnone =>
          obtain rfl := List.mem_singleton.1 hd
          rw [mergeBases_linearize hcycle (by omega), Option.isNone_iff_eq_none] at hnone
          exact ⟨hcycle, hnone⟩
        · cases hd

theorem hasNoMerge_of_mem_mergeFailures (hd : d ∈ o.mergeFailures c) : o.HasNoMerge d := by
  by_cases hc : c < o.contracts.size
  · exact hasNoMerge_of_mem_unmerged (idxOf_leaveOrder_lt hc) hd
  · have hnil (fuel : Nat) : o.unmerged o.cycles fuel c = [] := by
      cases fuel <;> simp [unmerged, mergeBases, bases_eq_nil hc]
    rw [mergeFailures, hnil] at hd
    cases hd

theorem HasNoMerge.mem_mergeFailures (h : o.HasNoMerge c) : c ∈ o.mergeFailures c := by
  have hlt := idxOf_leaveOrder_lt h.lt_size
  obtain ⟨fuel, hfuel⟩ : ∃ fuel, o.contracts.size = fuel + 1 := Nat.exists_eq_add_one.2 (by omega)
  rw [mergeFailures, hfuel, unmerged, h.1, mergeBases_linearize h.1 (by omega), h.2]
  simp

end Unmerged

end Outline

namespace Lineage

variable {l : Lineage} {c : ContractId}

theorem outcome_consult {cs : List ContractId} (h : ∀ c ∈ cs, l.isKnown c = true) :
    (l.consult cs).outcome = .ok () := by
  induction cs with
  | nil => rfl
  | cons c cs ih =>
    have hone : (l.consultOne c).outcome = .ok () := by
      rw [consultOne, if_pos (h c List.mem_cons_self)]
      rfl
    show (l.consultOne c >>= fun _ => l.consult cs).outcome = _
    rw [Query.outcome_bind_ok hone]
    exact ih fun d hd => h d (List.mem_cons_of_mem _ hd)

theorem outcome_answer {α : Type} {cs : List ContractId} (h : ∀ c ∈ cs, l.isKnown c = true) (x : α) :
    (l.answer cs x).outcome = .ok x := by
  unfold answer
  rw [Query.outcome_bind_ok (outcome_consult h)]
  rfl

theorem order_eq : l.order c = l.linearization c :=
  l.orders.get_eq c

end Lineage

/--
The order of a contract is found from those of its bases by a recursion that ends, and lists the contract first and then
the contracts above it, each of them once.
-/
theorem Session.order_lists_contracts_above (s : Session) (hnames : s.analysis.HasDistinctNames)
    {c : ContractId} (hc : c < s.analysis.contracts.size) (hknown : s.analysis.isKnown c = true) :
    WellFounded s.analysis.NeedsOrderOf ∧
      (∀ d < s.analysis.contracts.size,
        s.analysis.linearization d = s.analysis.orderFrom s.analysis.linearization d) ∧
      (∃ order, (s.ask (s.analysis.orderOf c)).1 = .ok order ∧ order.Nodup ∧ order.head? = some c ∧
        ∀ a, a ∈ order ↔ s.analysis.IsAbove a c) ∧
      ∀ a, ∃ answer, (s.ask (s.analysis.isAncestorOf a c)).1 = .ok answer ∧
        (answer = true ↔ a ≠ c ∧ s.analysis.IsAbove a c) := by
  have horder := Outline.isOrder_linearization hnames hc
  refine ⟨Outline.NeedsOrderOf.wellFounded _, fun d hd => Outline.linearization_eq hd, ?_, fun a => ?_⟩
  · refine ⟨_, Lineage.outcome_answer (by simpa using hknown) _, ?_⟩
    rw [Lineage.order_eq]
    exact ⟨horder.nodup, horder.head, horder.mem_iff⟩
  · refine ⟨_, Lineage.outcome_answer ?_ _, ?_⟩
    · intro b hb
      split at hb
      · simp at hb
      · rw [List.mem_singleton.1 hb]
        exact hknown
    · simp [Lineage.isAncestor, Lineage.order_eq, horder.mem_iff]

namespace CyclicSample

def contract (name : String) (bases : List String) : Contract :=
  { (default : Contract) with
    name := .text name
    bases := bases.map fun b => { (default : BaseSpecifier) with name := .text b } }

def outline : Outline :=
  { (default : Outline) with
    contracts := #[contract "A" ["B"], contract "B" ["A"], contract "C" ["A", "Unknown", "B", "A"]] }

def session : Session where
  analysis := .ofModel
    ⟨.ofControlFlow (.ofCallGraph (.ofLinkage (.ofLineage (.ofProgram (.ofOutline outline)) true)) default),
      .container, true⟩
  settings := {}

theorem hasDistinctNames : outline.HasDistinctNames := by
  unfold Outline.HasDistinctNames
  decide +kernel

end CyclicSample

theorem Session.order_lists_contracts_above_sample :
    CyclicSample.session.analysis.HasDistinctNames ∧
    ∃ order, (CyclicSample.session.ask (CyclicSample.session.analysis.orderOf 2)).1 = .ok order ∧
      order.Nodup ∧ order.head? = some 2 ∧
      ∀ a, a ∈ order ↔ CyclicSample.session.analysis.IsAbove a 2 :=
  ⟨CyclicSample.hasDistinctNames,
    (Session.order_lists_contracts_above CyclicSample.session CyclicSample.hasDistinctNames
      (c := 2) (by decide) rfl).2.2.1⟩

end ContractFlow
