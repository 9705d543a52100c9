import ContractFlow.Proofs.Data.Group
import ContractFlow.Proofs.Ssa.Dominator
import ContractFlow.Proofs.Ssa.Reaching
import ContractFlow.Proofs.Ssa.Renaming

/-! This module shows that the bindings that renaming makes are carried over the edges of the control flow graph. -/

namespace ContractFlow

namespace SsaSource

variable {s : SsaSource} {x : NodeId} {i j : Nat}

structure Fits (s : SsaSource) : Prop where
  sound : s.graph.Sound
  tree : s.dominators.IsTree s.graph.next s.graph.size Draft.entry

theorem fits_ofGraph (p : Program) {g : ControlGraph} (hg : g.Sound) : (ofGraph p g).Fits where
  sound := hg
  tree := isTree_ofGraph p hg

namespace Fits

variable (hs : s.Fits)

include hs

theorem exists_vertex_iff : (∃ v < s.dominators.size, s.dominators.vertex v = i) ↔ s.graph.isLive i = true :=
  ControlGraph.exists_number_iff_isLive hs.tree hs.sound

theorem isLive_vertex {v : Nat} (hv : v < s.dominators.size) : s.graph.isLive (s.dominators.vertex v) = true :=
  hs.exists_vertex_iff.1 ⟨v, hv, rfl⟩

theorem mem_order_iff : i ∈ s.dominators.order ↔ s.graph.isLive i = true := by
  rw [hs.tree.mem_order, ← hs.tree.exists_number_iff, hs.exists_vertex_iff]

theorem lt_size (hi : s.graph.isLive i = true) : i < s.graph.size := by
  obtain ⟨path, hrun⟩ := (ControlGraph.exists_run_iff hs.sound).2 hi
  cases hrun with
  | entry => exact Nat.lt_trans (by decide) hs.sound.exit_lt
  | step _ hnext => exact (hs.sound.edge _ _ (ControlGraph.mem_next_iff.1 hnext)).2.2.1

theorem mem_writers_iff : i ∈ s.writers x ↔ s.graph.isLive i = true ∧ ∃ w ∈ s.writes i, w.variableNode = x := by
  unfold writers
  rw [List.mem_filter, Array.mem_toList_iff, hs.mem_order_iff]
  simp

theorem isLive_of_mem_frontier (h : j ∈ s.dominators.frontier i) : s.graph.isLive j = true := by
  obtain ⟨v, -, hv, rfl⟩ := hs.tree.exists_number_of_mem_frontier h
  exact hs.isLive_vertex hv

end Fits

theorem mem_tracked_of_mem_writers (h : i ∈ s.writers x) : x ∈ s.tracked := by
  obtain ⟨hi, hw⟩ := List.mem_filter.1 h
  obtain ⟨w, hw, hx⟩ := List.any_eq_true.1 hw
  unfold tracked
  rw [mem_distinct_iff, List.mem_append]
  refine .inr (List.mem_flatMap.2 ⟨i, hi, List.mem_map.2 ⟨w, hw, by simpa using hx⟩⟩)

theorem mem_phiPoints_iff :
    i ∈ s.phiPoints x ↔ i < s.graph.size ∧ ∃ v ∈ s.writers x, ∃ u ∈ s.dominators.frontier v,
      Graph.Reaches s.dominators.frontier s.graph.size u i := by
  unfold phiPoints ControlGraph.indices
  rw [List.mem_filter, List.mem_range, List.contains_iff_mem,
    Graph.mem_closureFrom_iff (fun _ h => h) fun u hu hnu => absurd hu hnu]
  simp only [mem_distinct_iff, List.mem_flatMap]
  constructor
  · rintro ⟨hi, u, ⟨v, hv, hu⟩, hr⟩
    exact ⟨hi, v, hv, u, hu, hr⟩
  · rintro ⟨hi, v, hv, u, hu, hr⟩
    exact ⟨hi, u, ⟨v, hv, hu⟩, hr⟩

theorem exists_frontier_of_mem_phiPoints (h : i ∈ s.phiPoints x) : ∃ v, i ∈ s.dominators.frontier v := by
  obtain ⟨-, v, -, u, hu, hr⟩ := mem_phiPoints_iff.1 h
  cases hr with
  | refl => exact ⟨v, hu⟩
  | tail _ hstep => exact ⟨_, hstep.1⟩

theorem Fits.mem_phiPoints_of_writer (hs : s.Fits) (hi : i ∈ s.writers x)
    (hj : j ∈ s.dominators.frontier i) : j ∈ s.phiPoints x :=
  mem_phiPoints_iff.2 ⟨hs.lt_size (hs.isLive_of_mem_frontier hj), i, hi, j, hj, .refl⟩

theorem Fits.mem_phiPoints_of_phi (hs : s.Fits) (hi : i ∈ s.phiPoints x)
    (hj : j ∈ s.dominators.frontier i) : j ∈ s.phiPoints x := by
  obtain ⟨-, v, hv, u, hu, hr⟩ := mem_phiPoints_iff.1 hi
  have hlt := hs.lt_size (hs.isLive_of_mem_frontier hj)
  exact mem_phiPoints_iff.2 ⟨hlt, v, hv, u, hu, hr.tail ⟨hj, hlt⟩⟩

theorem Fits.entry_not_mem_phiPoints (hs : s.Fits) : Draft.entry ∉ s.phiPoints x := by
  intro h
  obtain ⟨v, hv⟩ := exists_frontier_of_mem_phiPoints h
  exact hs.tree.root_not_mem_frontier v hv

theorem mem_phis_iff {d : Definition} : d ∈ s.phis ↔ ∃ x ∈ s.tracked, ∃ i ∈ s.phiPoints x, d = ⟨.phi, x, i, none⟩ := by
  unfold phis
  rw [List.mem_flatMap]
  constructor
  · rintro ⟨x, hx, hd⟩
    obtain ⟨i, hi, rfl⟩ := List.mem_map.1 hd
    exact ⟨x, hx, i, hi, rfl⟩
  · rintro ⟨x, hx, i, hi, rfl⟩
    exact ⟨x, hx, List.mem_map.2 ⟨i, hi, rfl⟩⟩

theorem nodup_phis (s : SsaSource) : s.phis.Nodup := by
  unfold phis
  rw [List.nodup_flatMap]
  constructor
  · intro x _
    apply List.Nodup.map
    · intro i j hij
      exact (Definition.mk.inj hij).2.2.1
    · exact List.nodup_range.filter _
  · apply List.Pairwise.imp _ (nodup_distinct _)
    intro x y hxy d hd hd'
    obtain ⟨i, -, rfl⟩ := List.mem_map.1 hd
    obtain ⟨j, -, hj⟩ := List.mem_map.1 hd'
    exact hxy (Definition.mk.inj hj).2.1.symm

end SsaSource

namespace RenamingPlan

variable {p : RenamingPlan} {x : NodeId} {i d : Nat}

structure Fits (p : RenamingPlan) : Prop extends p.source.Fits where
  tracked : p.tracked = p.source.tracked
  phis : p.phis = p.source.phis.toArray

theorem fits_ofSource {s : SsaSource} (hs : s.Fits) : (ofSource s).Fits :=
  ⟨hs, rfl, rfl⟩

section Phis

variable (hp : p.Fits)

include hp

theorem getElem?_phis : p.phis[d]? = p.source.phis[d]? := by
  rw [hp.phis, List.getElem?_toArray]

theorem mem_phisAt_iff : (x, d) ∈ p.phisAt i ↔ p.phis[d]? = some ⟨.phi, x, i, none⟩ := by
  unfold phisAt
  rw [List.mem_filterMap]
  constructor
  · rintro ⟨e, he, hd⟩
    have he := Array.getElem?_eq_getElem (List.mem_range.1 he)
    rw [Array.getD_eq_getD_getElem?, he, Option.getD_some] at hd
    have hmem := he
    rw [getElem?_phis hp] at hmem
    obtain ⟨y, -, j, -, heq⟩ := SsaSource.mem_phis_iff.1 (List.mem_of_getElem? hmem)
    rw [heq] at hd he
    by_cases hj : j = i
    · simp only [hj, beq_self_eq_true, if_true, Option.some.injEq, Prod.mk.injEq] at hd
      rw [← hd.1, ← hd.2, he, hj]
    · simp [hj] at hd
  · intro hd
    have hlt : d < p.phis.size := (Array.getElem?_eq_some_iff.1 hd).1
    refine ⟨d, List.mem_range.2 hlt, ?_⟩
    rw [Array.getD_eq_getD_getElem?, hd]
    simp

theorem eq_of_getElem?_phis {e : Nat} {phi : Definition} (hd : p.phis[d]? = some phi)
    (he : p.phis[e]? = some phi) : d = e := by
  rw [getElem?_phis hp] at hd he
  obtain ⟨hd, hdphi⟩ := List.getElem?_eq_some_iff.1 hd
  obtain ⟨he, hephi⟩ := List.getElem?_eq_some_iff.1 he
  exact (List.Nodup.getElem_inj_iff (SsaSource.nodup_phis _)).1 (hdphi.trans hephi.symm)

theorem lookup_phisAt_eq_some_iff : (p.phisAt i).lookup x = some d ↔ p.phis[d]? = some ⟨.phi, x, i, none⟩ := by
  rw [lookup_eq_some_iff, mem_phisAt_iff hp]
  intro d hd e he
  rw [mem_phisAt_iff hp] at hd he
  exact eq_of_getElem?_phis hp hd he

theorem lookup_phisAt_eq_none_iff :
    (p.phisAt i).lookup x = none ↔ ¬(x ∈ p.source.tracked ∧ i ∈ p.source.phiPoints x) := by
  rw [lookup_eq_none_iff]
  simp only [mem_phisAt_iff hp, getElem?_phis hp]
  constructor
  · rintro h ⟨hx, hi⟩
    obtain ⟨d, hd⟩ := List.mem_iff_getElem?.1 (SsaSource.mem_phis_iff.2 ⟨x, hx, i, hi, rfl⟩)
    exact h d hd
  · intro h d hd
    obtain ⟨y, hy, j, hj, heq⟩ := SsaSource.mem_phis_iff.1 (List.mem_of_getElem? hd)
    obtain ⟨-, rfl, rfl, -⟩ := heq
    exact h ⟨hy, hj⟩

end Phis

theorem lookup_zipIdx_eq_some_iff {ds : List Definition} {k e : Nat} :
    ((ds.zipIdx k).map fun d => (d.1.variableNode, d.2)).reverse.lookup x = some e ↔
      ∃ j d, e = k + j ∧ ds[j]? = some d ∧ d.variableNode = x ∧
        ∀ j' d', ds[j']? = some d' → d'.variableNode = x → j' ≤ j := by
  induction ds using List.reverseRecOn with
  | nil => simp
  | append_singleton ds d ih =>
    have hget : ∀ {j : Nat} {d' : Definition}, (ds ++ [d])[j]? = some d' ↔
        ds[j]? = some d' ∨ j = ds.length ∧ d = d' := by
      grind
    rw [List.zipIdx_append, List.map_append, List.reverse_append, List.zipIdx_singleton,
      List.map_singleton, List.reverse_singleton, List.singleton_append, List.lookup_cons]
    by_cases hx : d.variableNode = x
    · rw [show (x == d.variableNode) = true by simp [hx]]
      constructor
      · intro he
        refine ⟨ds.length, d, (Option.some.inj he).symm, hget.2 (.inr ⟨rfl, rfl⟩), hx, ?_⟩
        intro j d' hj _
        have := (List.getElem?_eq_some_iff.1 hj).1
        simp only [List.length_append, List.length_singleton] at this
        omega
      · rintro ⟨j, d', rfl, hj, -, hlast⟩
        have := hlast ds.length d (hget.2 (.inr ⟨rfl, rfl⟩)) hx
        rcases hget.1 hj with hj | ⟨rfl, -⟩
        · have := (List.getElem?_eq_some_iff.1 hj).1
          omega
        · rfl
    · rw [show (x == d.variableNode) = false by simpa using Ne.symm hx, ih]
      constructor
      · rintro ⟨j, d', rfl, hj, hx', hlast⟩
        refine ⟨j, d', rfl, hget.2 (.inl hj), hx', fun j' d'' hj' hx'' => ?_⟩
        rcases hget.1 hj' with hj' | ⟨-, rfl⟩
        · exact hlast j' d'' hj' hx''
        · exact absurd hx'' hx
      · rintro ⟨j, d', rfl, hj, hx', hlast⟩
        rcases hget.1 hj with hj | ⟨-, rfl⟩
        · exact ⟨j, d', rfl, hj, hx', fun j' d'' hj' => hlast j' d'' (hget.2 (.inl hj'))⟩
        · exact absurd hx' hx

theorem lookup_bound_eq_none {k : Nat} (h : ∀ w ∈ p.source.writes i, w.variableNode ≠ x) :
    (p.bound i k).lookup x = none := by
  rw [Option.eq_none_iff_forall_ne_some]
  intro e he
  obtain ⟨j, d, -, hj, hx, -⟩ := lookup_zipIdx_eq_some_iff.1 he
  obtain ⟨w, hw, rfl⟩ := List.mem_map.1 (List.mem_of_getElem? hj)
  exact h w hw hx

def binding (p : RenamingPlan) (env : Nat → Bindings) (start : Nat → Nat) (x : NodeId) : VariableBinding where
  last i := (p.source.dominators.number? i).bind fun v => (p.bound i (start v)).lookup x
  phi i := (p.phisAt i).lookup x
  inward i := (p.source.dominators.number? i).bind fun v => (p.within i (env v)).lookup x

section Found

variable {r : Renaming} {env : Nat → Bindings} {start : Nat → Nat}

def outwardAt (p : RenamingPlan) (env : Nat → Bindings) (start : Nat → Nat) (x : NodeId) (v : Nat) :
    Option Nat :=
  (p.after (p.source.dominators.vertex v) (env v) (start v)).lookup x

variable (hp : p.Fits)

include hp

theorem outward_vertex {v : Nat} (hv : v < p.source.dominators.size) :
    (p.binding env start x).outward (p.source.dominators.vertex v) = p.outwardAt env start x v := by
  unfold VariableBinding.outward outwardAt after
  simp only [binding, hp.tree.number?_vertex hv, Option.bind_some, List.lookup_append]

variable (h : p.Found r env start)

include h

theorem outwardAt_eq_parent {v : Nat} (hz : 0 < v) (hv : v < p.source.dominators.size)
    (hw : p.source.dominators.vertex v ∉ p.source.writers x)
    (hphi : (p.phisAt (p.source.dominators.vertex v)).lookup x = none) :
    p.outwardAt env start x v = p.outwardAt env start x (p.source.dominators.parent v) := by
  have hnone : (p.bound (p.source.dominators.vertex v) (start v)).lookup x = none := by
    apply lookup_bound_eq_none
    intro w hmem hx
    exact hw (hp.mem_writers_iff.2 ⟨hp.isLive_vertex hv, w, hmem, hx⟩)
  conv_lhs => unfold outwardAt after within
  rw [List.lookup_append, hnone, Option.none_or, List.lookup_append, hphi, Option.none_or,
    h.child v hz hv]
  rfl

theorem outwardAt_eq_of_above {u v : Nat} (hv : v < p.source.dominators.size)
    (hu : p.source.dominators.table.Above u v)
    (hnone : ∀ a, p.source.dominators.table.Above a v → ¬p.source.dominators.table.Above a u →
      p.source.dominators.vertex a ∉ p.source.writers x ∧
        (p.phisAt (p.source.dominators.vertex a)).lookup x = none) :
    p.outwardAt env start x v = p.outwardAt env start x u := by
  induction hu with
  | refl => rfl
  | @up v hz hu ih =>
    have hlt := Graph.DominatorTable.up_lt (t := p.source.dominators.table) hz
    have hle := hu.le
    have hnot : ¬p.source.dominators.table.Above v u := by
      intro ha
      have := ha.le
      omega
    obtain ⟨hw, hphi⟩ := hnone v .refl hnot
    rw [outwardAt_eq_parent hp h (by omega) hv hw hphi, hp.tree.parent_eq_up hv]
    exact ih (by omega) fun a ha => hnone a (.up hz ha)

theorem outwardAt_eq_of_edge {u v : Nat} (hv : v < p.source.dominators.size)
    (hu : u ∈ p.source.dominators.predecessors v)
    (hphi : (p.phisAt (p.source.dominators.vertex v)).lookup x = none) :
    p.outwardAt env start x u = p.outwardAt env start x (p.source.dominators.parent v) := by
  have husize := ((hp.tree.mem_predecessors v hv u).1 hu).1
  apply outwardAt_eq_of_above hp h husize (hp.tree.above_parent hv hu)
  intro a ha hnot
  have hle := ha.le
  have hasize : a < p.source.dominators.size := by omega
  have hfrontier := hp.tree.mem_frontier_iff.2 ⟨a, hasize, v, hv, rfl, rfl, u, hu, ha, hnot⟩
  rw [lookup_phisAt_eq_none_iff hp] at hphi
  constructor
  · intro hw
    exact hphi ⟨SsaSource.mem_tracked_of_mem_writers hw, hp.mem_phiPoints_of_writer hw hfrontier⟩
  · rw [lookup_phisAt_eq_none_iff hp]
    rintro ⟨hx, hphi'⟩
    exact hphi ⟨hx, hp.mem_phiPoints_of_phi hphi' hfrontier⟩

theorem mem_inputs_iff {y : NodeId} {j d e : Nat} (hphi : p.phis[d]? = some ⟨.phi, y, j, none⟩) :
    (d, e) ∈ r.inputs ↔ ∃ v < p.source.dominators.size,
      j ∈ p.source.graph.next (p.source.dominators.vertex v) ∧ p.outwardAt env start y v = some e := by
  rw [h.inputs]
  apply exists_congr
  intro v
  apply and_congr_right
  intro hv
  unfold passed outwardAt
  rw [List.mem_flatMap]
  constructor
  · rintro ⟨j', hj', hpassed⟩
    obtain ⟨⟨y', d'⟩, hat, hlookup⟩ := List.mem_filterMap.1 hpassed
    obtain ⟨e', he', hpair⟩ := Option.map_eq_some_iff.1 hlookup
    obtain ⟨rfl, rfl⟩ := Prod.mk.inj hpair
    rw [mem_phisAt_iff hp, hphi] at hat
    obtain ⟨-, rfl, rfl, -⟩ := Definition.mk.inj (Option.some.inj hat)
    exact ⟨hj', he'⟩
  · rintro ⟨hj, he⟩
    refine ⟨j, hj, List.mem_filterMap.2 ⟨(y, d), (mem_phisAt_iff hp).2 hphi, ?_⟩⟩
    rw [he]
    rfl

theorem balanced_binding (x : NodeId) :
    (p.binding env start x).Balanced p.source.graph (fun d e => (d, e) ∈ r.inputs)
      (· < p.phis.size) where
  entry := by
    have hentry : p.source.dominators.number? Draft.entry = some 0 := by
      rw [hp.tree.number?_eq_some_iff]
      exact ⟨hp.tree.size_pos, hp.tree.vertex_zero⟩
    have hphi : (p.phisAt Draft.entry).lookup x = none := by
      rw [lookup_phisAt_eq_none_iff hp]
      exact fun h => hp.entry_not_mem_phiPoints h.2
    simp [binding, within, hentry, hphi, h.root]
  flow i j hi hj hphi := by
    obtain ⟨u, hu, rfl⟩ := hp.exists_vertex_iff.2 hi
    obtain ⟨path, hrun⟩ := (ControlGraph.exists_run_iff hp.sound).2 hi
    obtain ⟨v, hv, rfl⟩ := hp.exists_vertex_iff.2
      ((ControlGraph.exists_run_iff hp.sound).1 ⟨_, hrun.step hj⟩)
    have hpred := (hp.tree.mem_predecessors v hv u).2 ⟨hu, hj⟩
    have hz := hp.tree.pos_of_mem_predecessors hv hpred
    rw [outward_vertex hp hu, outwardAt_eq_of_edge hp h hv hpred hphi]
    simp only [binding, within, hp.tree.number?_vertex hv, Option.bind_some, List.lookup_append,
      show (p.phisAt (p.source.dominators.vertex v)).lookup x = none from hphi, h.child v hz hv]
    rfl
  merge j d hj hphi := by
    obtain ⟨v, hv, rfl⟩ := hp.exists_vertex_iff.2 hj
    simp only [binding, within, hp.tree.number?_vertex hv, Option.bind_some, List.lookup_append,
      show (p.phisAt (p.source.dominators.vertex v)).lookup x = some d from hphi, Option.some_or]
  input j d hphi e := by
    rw [mem_inputs_iff hp h ((lookup_phisAt_eq_some_iff hp).1 hphi)]
    constructor
    · rintro ⟨v, hv, hj, he⟩
      exact ⟨_, hp.isLive_vertex hv, hj, (outward_vertex hp hv).trans he⟩
    · rintro ⟨i, hi, hj, he⟩
      obtain ⟨v, hv, rfl⟩ := hp.exists_vertex_iff.2 hi
      exact ⟨v, hv, hj, (outward_vertex hp hv).symm.trans he⟩
  phi_isPhi j d hphi :=
    (Array.getElem?_eq_some_iff.1 ((lookup_phisAt_eq_some_iff hp).1 hphi)).1
  not_isPhi i d hlast := by
    obtain ⟨v, hv, hbound⟩ := Option.bind_eq_some_iff.1 hlast
    obtain ⟨hlt, -⟩ := hp.tree.number?_eq_some_iff.1 hv
    obtain ⟨j, -, rfl, -⟩ := lookup_zipIdx_eq_some_iff.1 hbound
    have := h.le_start v hlt
    omega
  not_merges d e hd := by
    intro hinput
    obtain ⟨v, -, hpassed⟩ := (h.inputs _).1 hinput
    obtain ⟨j, -, hnext⟩ := List.mem_flatMap.1 hpassed
    obtain ⟨⟨y, d'⟩, hat, hlookup⟩ := List.mem_filterMap.1 hnext
    obtain ⟨e', -, hpair⟩ := Option.map_eq_some_iff.1 hlookup
    rw [mem_phisAt_iff hp] at hat
    rw [← (Prod.mk.inj hpair).1] at hd
    exact hd (Array.getElem?_eq_some_iff.1 hat).1

end Found

end RenamingPlan

end ContractFlow
