import ContractFlow.Proofs.Graph.DepthFirst
import ContractFlow.Proofs.Graph.DominatorRound

/-! This module contains the dominator tree of a graph: what stands above a vertex lies on every path to it. -/

namespace ContractFlow.Graph.Dominators

variable {succ pred : Nat → List Nat} {n root : Nat} {t : Dominators}

structure IsSpanning (t : Dominators) (succ : Nat → List Nat) (n root : Nat) : Prop where
  nodup : t.order.toList.Nodup
  head : t.order[0]? = some root
  mem_order : ∀ v, v ∈ t.order ↔ Reaches succ n root v
  mem_predecessors : ∀ q < t.size, ∀ r,
    r ∈ t.predecessors q ↔ r < t.size ∧ t.vertex q ∈ succ (t.vertex r)
  settled : DominatorTable.Settled t.predecessors t.table
  size_table : t.table.size = t.size

structure IsTree (t : Dominators) (succ : Nat → List Nat) (n root : Nat) : Prop
    extends t.IsSpanning succ n root where
  root_free : ∀ u, root ∉ succ u

theorem idxOf?_eq_some_iff {order : Array Nat} (hn : order.toList.Nodup) {v p : Nat} :
    order.idxOf? v = some p ↔ order[p]? = some v := by
  obtain ⟨l⟩ := order
  rw [List.idxOf?_toArray, List.getElem?_toArray, List.idxOf?_eq_some_iff,
    List.getElem?_eq_some_iff]
  constructor
  · rintro ⟨hp, hv, -⟩
    exact ⟨hp, by simpa using hv⟩
  · rintro ⟨hp, hv⟩
    refine ⟨hp, by simpa using hv, fun j hj heq => ?_⟩
    have heq : l[j] = v := by simpa using heq
    have hjp : j = p := (List.Nodup.getElem_inj_iff hn).1 (heq.trans hv.symm)
    omega

theorem getElem?_order {p : Nat} (hp : p < t.size) : t.order[p]? = some (t.vertex p) := by
  rw [vertex, Array.getD_eq_getD_getElem?, Array.getElem?_eq_getElem hp]
  rfl

theorem number?_eq_some_iff_of_nodup {v p : Nat} (hn : t.order.toList.Nodup) :
    t.number? v = some p ↔ p < t.size ∧ t.vertex p = v := by
  rw [number?, idxOf?_eq_some_iff hn]
  constructor
  · intro h
    obtain ⟨hp, -⟩ := Array.getElem?_eq_some_iff.1 h
    exact ⟨hp, Option.some.inj ((getElem?_order hp).symm.trans h)⟩
  · rintro ⟨hp, rfl⟩
    exact getElem?_order hp

theorem mem_runners_iff {stop p a : Nat} (hstop : t.table.Above stop p) :
    a ∈ t.runners stop p ↔ t.table.Above a p ∧ ¬t.table.Above a stop := by
  induction hstop with
  | refl =>
    rw [runners, if_pos rfl]
    simp
  | @up p hp hstop ih =>
    have hlt := DominatorTable.up_lt (t := t.table) hp
    have hle := hstop.le
    rw [runners, if_neg (by omega), dif_neg hp, List.mem_cons, ih]
    by_cases hap : a = p
    · subst hap
      have hnot : ¬t.table.Above a stop := fun h => by
        have := h.le
        omega
      exact iff_of_true (.inl rfl) ⟨.refl, hnot⟩
    · rw [or_iff_right hap]
      exact and_congr_left fun _ => ⟨.up hp, fun ha => (ha.up_of_ne hap).2⟩

namespace IsSpanning

variable (h : t.IsSpanning succ n root)
variable {v p q : Nat}

include h

theorem size_pos : 0 < t.size := by
  obtain ⟨hlt, -⟩ := Array.getElem?_eq_some_iff.1 h.head
  exact hlt

theorem vertex_zero : t.vertex 0 = root := by
  rw [vertex, Array.getD_eq_getD_getElem?, h.head]
  rfl

theorem number?_eq_some_iff : t.number? v = some p ↔ p < t.size ∧ t.vertex p = v :=
  number?_eq_some_iff_of_nodup h.nodup

theorem number?_vertex (hp : p < t.size) : t.number? (t.vertex p) = some p :=
  h.number?_eq_some_iff.2 ⟨hp, rfl⟩

theorem vertex_inj (hp : p < t.size) (hq : q < t.size) (heq : t.vertex p = t.vertex q) : p = q := by
  have hp := h.number?_vertex hp
  rw [heq, h.number?_vertex hq] at hp
  exact (Option.some.inj hp).symm

theorem exists_number_iff : (∃ p < t.size, t.vertex p = v) ↔ Reaches succ n root v := by
  rw [← h.mem_order v]
  constructor
  · rintro ⟨p, hp, rfl⟩
    exact Array.mem_of_getElem? (getElem?_order hp)
  · intro hv
    obtain ⟨p, hp⟩ := Array.mem_iff_getElem?.1 hv
    exact ⟨p, h.number?_eq_some_iff.1 ((idxOf?_eq_some_iff h.nodup).2 hp)⟩

theorem parent_eq_up (hp : p < t.size) : t.parent p = t.table.up p := by
  have hfilled := h.settled.filled
  rw [h.size_table] at hfilled
  unfold parent
  by_cases hz : p = 0
  · rw [hz, hfilled.zero]
    unfold DominatorTable.up
    simp
  · rw [hfilled.known p (by omega) (by omega)]
    rfl

theorem climbs_of_above (hp : p < t.size) (ha : t.table.Above q p) :
    Relation.ReflTransGen (fun v w => t.immediate? v = some w) (t.vertex p) (t.vertex q) := by
  induction ha with
  | refl => exact .refl
  | @up p hz _ ih =>
    have hlt := DominatorTable.up_lt (t := t.table) hz
    refine .head ?_ (ih (by omega))
    rw [immediate?, h.number?_vertex hp, Option.map_some, h.parent_eq_up hp]

theorem mem_children_iff {c : Nat} : c ∈ t.children q ↔ q < c ∧ c < t.size ∧ t.table.up c = q := by
  unfold children numbers
  simp only [List.mem_filter, List.mem_range, Bool.and_eq_true, decide_eq_true_eq, beq_iff_eq]
  constructor
  · rintro ⟨hc, hqc, hp⟩
    exact ⟨hqc, hc, (h.parent_eq_up hc) ▸ hp⟩
  · rintro ⟨hqc, hc, hp⟩
    exact ⟨hc, hqc, (h.parent_eq_up hc).trans hp⟩

theorem exists_child_above (hp : p < t.size) (ha : t.table.Above q p) (hne : p ≠ q) :
    ∃ c ∈ t.children q, t.table.Above c p := by
  induction ha with
  | refl => exact absurd rfl hne
  | @up p hz hup ih =>
    have hlt := DominatorTable.up_lt (t := t.table) hz
    by_cases hq : t.table.up p = q
    · exact ⟨p, h.mem_children_iff.2 ⟨by omega, hp, hq⟩, .refl⟩
    · obtain ⟨c, hc, hac⟩ := ih (by omega) hq
      exact ⟨c, hc, .up hz hac⟩

theorem eq_of_above_children {c c' : Nat} (hc : c ∈ t.children q) (hc' : c' ∈ t.children q)
    (ha : t.table.Above c p) (ha' : t.table.Above c' p) : c = c' := by
  rw [h.mem_children_iff] at hc hc'
  by_contra hne
  rcases Nat.lt_or_gt_of_ne hne with hlt | hlt
  · have := ((ha.of_le ha' (by omega)).up_of_ne hne).2.le
    omega
  · have := ((ha'.of_le ha (by omega)).up_of_ne (Ne.symm hne)).2.le
    omega

end IsSpanning

namespace IsTree

variable (h : t.IsTree succ n root)
variable {v p q r : Nat}

include h

theorem pos_of_mem_predecessors (hq : q < t.size) (hr : r ∈ t.predecessors q) : 0 < q := by
  by_contra hz
  obtain rfl : q = 0 := by omega
  have := ((h.mem_predecessors 0 hq r).1 hr).2
  rw [h.vertex_zero] at this
  exact h.root_free _ this

theorem above_parent (hq : q < t.size) (hr : r ∈ t.predecessors q) : t.table.Above (t.parent q) r := by
  rw [h.parent_eq_up hq]
  exact h.settled.lower q (h.pos_of_mem_predecessors hq hr) (by rw [h.size_table]; exact hq) r hr

theorem above_parent_of_forall {a : Nat} (hz : 0 < q) (hq : q < t.size)
    (ha : ∀ r ∈ t.predecessors q, t.table.Above a r) : t.table.Above a (t.parent q) := by
  rw [h.parent_eq_up hq]
  exact h.settled.greatest q hz (by rw [h.size_table]; exact hq) a ha

theorem not_above_parent_iff {a : Nat} (hz : 0 < q) (hq : q < t.size) :
    ¬t.table.Above a (t.parent q) ↔ ¬(a ≠ q ∧ t.table.Above a q) := by
  have hlt := DominatorTable.up_lt (t := t.table) (Nat.ne_of_gt hz)
  rw [h.parent_eq_up hq, not_iff_not]
  constructor
  · intro ha
    have := ha.le
    exact ⟨by omega, .up (Nat.ne_of_gt hz) ha⟩
  · rintro ⟨hne, ha⟩
    exact (ha.up_of_ne hne).2

theorem endsAt_iff {a : Nat} (hq : q < t.size) : t.endsAt a q = true ↔
    ∃ r ∈ t.predecessors q, t.table.Above a r ∧ ¬t.table.Above a (t.parent q) := by
  have hrunners (r : Nat) (hr : r ∈ t.predecessors q) : (t.runners (t.parent q) r).contains a = true ↔
      t.table.Above a r ∧ ¬t.table.Above a (t.parent q) := by
    rw [List.contains_iff_mem, mem_runners_iff (h.above_parent hq hr)]
  unfold endsAt
  rw [Bool.and_eq_true, decide_eq_true_eq, List.any_eq_true]
  constructor
  · rintro ⟨-, r, hr, ha⟩
    exact ⟨r, hr, (hrunners r hr).1 ha⟩
  · rintro ⟨r, hr, ha, hne⟩
    refine ⟨?_, r, hr, (hrunners r hr).2 ⟨ha, hne⟩⟩
    by_contra hlen
    apply hne
    apply h.above_parent_of_forall (h.pos_of_mem_predecessors hq hr) hq
    -- there is no room for a second predecessor
    have hpos := List.length_pos_of_mem hr
    have hone : (t.predecessors q).length = 1 := by omega
    obtain ⟨r', hpreds⟩ := List.length_eq_one_iff.1 hone
    rw [hpreds, List.mem_singleton] at hr
    rw [hpreds, List.forall_mem_singleton, ← hr]
    exact ha

theorem mem_frontier_iff {w : Nat} : w ∈ t.frontier v ↔ ∃ p < t.size, ∃ q < t.size, t.vertex p = v ∧
    t.vertex q = w ∧ ∃ r ∈ t.predecessors q, t.table.Above p r ∧ ¬t.table.Above p (t.parent q) := by
  unfold frontier
  constructor
  · intro hw
    split at hw
    · simp at hw
    · next p hnumber =>
      obtain ⟨hp, rfl⟩ := h.number?_eq_some_iff.1 hnumber
      obtain ⟨q, hq, rfl⟩ := List.mem_map.1 hw
      obtain ⟨hq, hends⟩ := List.mem_filter.1 hq
      have hq := List.mem_range.1 hq
      exact ⟨p, hp, q, hq, rfl, rfl, (h.endsAt_iff hq).1 hends⟩
  · rintro ⟨p, hp, q, hq, rfl, rfl, hends⟩
    rw [h.number?_vertex hp]
    apply List.mem_map_of_mem
    exact List.mem_filter.2 ⟨List.mem_range.2 hq, (h.endsAt_iff hq).2 hends⟩

theorem exists_number_of_mem_frontier {w : Nat} (hw : w ∈ t.frontier v) : ∃ q, 0 < q ∧ q < t.size ∧ t.vertex q = w := by
  obtain ⟨p, -, q, hq, -, rfl, r, hr, -⟩ := h.mem_frontier_iff.1 hw
  exact ⟨q, h.pos_of_mem_predecessors hq hr, hq, rfl⟩

theorem root_not_mem_frontier (v : Nat) : root ∉ t.frontier v := by
  intro hroot
  obtain ⟨q, hz, hq, heq⟩ := h.exists_number_of_mem_frontier hroot
  have := h.vertex_inj hq h.size_pos (heq.trans h.vertex_zero.symm)
  omega

end IsTree

theorem idxOf?_lt_of_sublist {order : Array Nat} (hn : order.toList.Nodup) {u v : Nat}
    (huv : [u, v].Sublist order.toList) :
    ∃ i j, order.idxOf? u = some i ∧ order.idxOf? v = some j ∧ i < j := by
  obtain ⟨l⟩ := order
  have hidx (w : Nat) (hw : w ∈ [u, v]) : l.toArray.idxOf? w = some (l.idxOf w) := by
    rw [List.idxOf?_toArray]
    exact List.findIdx?_eq_some_of_exists ⟨w, huv.mem hw, beq_self_eq_true w⟩
  exact ⟨_, _, hidx u (by simp), hidx v (by simp), idxOf_lt_of_sublist hn huv⟩

/-- The table after some rounds, and after some entries of the round that follows. -/
def tableAt (t : Dominators) (rounds entries : Nat) : DominatorTable :=
  .sweep t.predecessors ((DominatorTable.round t.predecessors)^[rounds] (.start t.size)) entries

section Compute

variable (succ pred n root)

theorem nodup_order_compute : (compute succ pred n root).order.toList.Nodup :=
  List.nodup_reverse.2 (nodup_postorder succ n root)

theorem head_order_compute : (compute succ pred n root).order[0]? = some root := by
  unfold compute
  rw [List.getElem?_toArray, ← List.head?_eq_getElem?, List.head?_reverse, getLast?_postorder]

theorem mem_order_compute {v : Nat} : v ∈ (compute succ pred n root).order ↔ Reaches succ n root v := by
  unfold compute
  rw [List.mem_toArray, List.mem_reverse, mem_postorder_iff]

theorem predecessors_compute {q : Nat} (hq : q < (compute succ pred n root).size) :
    (compute succ pred n root).predecessors q
      = (pred ((compute succ pred n root).vertex q)).filterMap (compute succ pred n root).number? := by
  have hpreds : (compute succ pred n root).preds
      = (compute succ pred n root).order.map fun v =>
          (pred v).filterMap (compute succ pred n root).number? := rfl
  unfold predecessors vertex
  rw [hpreds, Array.getD_eq_getD_getElem?, Array.getD_eq_getD_getElem?, Array.getElem?_map,
    Array.getElem?_eq_getElem hq]
  rfl

theorem exists_tableAt_eq : ∃ k, (compute succ pred n root).table = (compute succ pred n root).tableAt k 0 :=
  DominatorTable.exists_iterate_eq_settle (compute succ pred n root).predecessors _

variable {succ pred n root}

theorem earlier_compute (hpred : ∀ u v, u ∈ pred v ↔ v ∈ succ u) {p : Nat} (hz : 0 < p)
    (hp : p < (compute succ pred n root).size) :
    ∃ r ∈ (compute succ pred n root).predecessors p, r < p := by
  have hnodup := nodup_order_compute succ pred n root
  have hvertex := getElem?_order hp
  generalize hv : (compute succ pred n root).vertex p = v at hvertex
  have hmem : v ∈ postorder succ n root := by
    rw [mem_postorder_iff, ← mem_order_compute succ pred n root]
    exact Array.mem_of_getElem? hvertex
  have hne : v ≠ root := by
    rintro rfl
    have h0 := (idxOf?_eq_some_iff hnodup).2 (head_order_compute succ pred n v)
    rw [(idxOf?_eq_some_iff hnodup).2 hvertex] at h0
    have := Option.some.inj h0
    omega
  obtain ⟨u, hu, hsub⟩ := exists_pred_postorder succ n root hmem hne
  obtain ⟨i, j, hi, hj, hij⟩ := idxOf?_lt_of_sublist hnodup hsub.reverse
  rw [(idxOf?_eq_some_iff hnodup).2 hvertex] at hj
  obtain rfl := Option.some.inj hj
  refine ⟨i, ?_, hij⟩
  rw [predecessors_compute succ pred n root hp, hv]
  exact List.mem_filterMap.2 ⟨u, (hpred u v).2 hu, hi⟩

theorem numbered_compute (hpred : ∀ u v, u ∈ pred v ↔ v ∈ succ u) :
    DominatorTable.Numbered (compute succ pred n root).predecessors
      (compute succ pred n root).size where
  lt p hp r hr := by
    rw [predecessors_compute succ pred n root hp] at hr
    obtain ⟨u, -, hu⟩ := List.mem_filterMap.1 hr
    exact ((number?_eq_some_iff_of_nodup (nodup_order_compute succ pred n root)).1 hu).1
  earlier _ hz hp := earlier_compute hpred hz hp

theorem isDescending_tableAt (hpred : ∀ u v, u ∈ pred v ↔ v ∈ succ u) (rounds : Nat) {entries : Nat}
    (h : entries < (compute succ pred n root).size) : ((compute succ pred n root).tableAt rounds entries).IsDescending :=
  DominatorTable.isDescending_sweep_iterate (numbered_compute hpred) rounds h

theorem isSpanning_compute (hpred : ∀ u v, u ∈ pred v ↔ v ∈ succ u) :
    (compute succ pred n root).IsSpanning succ n root := by
  have hpos : 0 < (compute succ pred n root).size := by
    obtain ⟨hpos, -⟩ := Array.getElem?_eq_some_iff.1 (head_order_compute succ pred n root)
    exact hpos
  have hnodup := nodup_order_compute succ pred n root
  obtain ⟨hsettled, hsize⟩ := DominatorTable.settled_settle_start (numbered_compute hpred) hpos
  refine ⟨hnodup, head_order_compute succ pred n root, fun v => mem_order_compute succ pred n root, fun q hq r => ?_,
    hsettled, hsize⟩
  rw [predecessors_compute succ pred n root hq, List.mem_filterMap]
  constructor
  · rintro ⟨u, hu, hr⟩
    obtain ⟨hlt, rfl⟩ := (number?_eq_some_iff_of_nodup hnodup).1 hr
    exact ⟨hlt, (hpred _ _).1 hu⟩
  · rintro ⟨hr, hq'⟩
    exact ⟨_, (hpred _ _).2 hq', (number?_eq_some_iff_of_nodup hnodup).2 ⟨hr, rfl⟩⟩

end Compute

end ContractFlow.Graph.Dominators
