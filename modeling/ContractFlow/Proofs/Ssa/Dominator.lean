import ContractFlow.Proofs.Control.Program
import ContractFlow.Proofs.Graph.DominatorTree
import ContractFlow.Ssa.Build

/-! This module shows that above a point in the dominator tree stand the points that every run to it comes to. -/

namespace ContractFlow

open ContractFlow.Graph (Dominators DominatorTable)

namespace ControlGraph

variable {g : ControlGraph} {t : Dominators} {a q v : Nat}
variable (ht : t.IsSpanning g.next g.size Draft.entry) (hg : g.IsClosed)

include ht hg

theorem exists_number_iff_run : (∃ q < t.size, t.vertex q = v) ↔ ∃ path, g.Run path v := by
  rw [ht.exists_number_iff, exists_run_iff_reaches hg]

theorem dominates_of_above (hq : q < t.size) (ha : t.table.Above a q) : g.Dominates (t.vertex a) (t.vertex q) := by
  intro path hrun
  generalize hv : t.vertex q = v at hrun
  -- what is above a point and not the point itself is above the one that the run comes from
  induction hrun generalizing q with
  | entry =>
    obtain rfl := ht.vertex_inj hq ht.size_pos (hv.trans ht.vertex_zero.symm)
    obtain rfl := Nat.le_zero.1 ha.le
    exact List.mem_singleton.2 hv
  | @step path i j hrun hnext ih =>
    by_cases haq : a = q
    · exact List.mem_append_right _ (List.mem_singleton.2 (haq ▸ hv))
    · obtain ⟨hz, hup⟩ := ha.up_of_ne haq
      obtain ⟨r, hr, rfl⟩ := (exists_number_iff_run ht hg).2 ⟨path, hrun⟩
      have hpred := (ht.mem_predecessors q hq r).2 ⟨hr, hv ▸ hnext⟩
      have hlower := ht.settled.lower q (by omega) (ht.size_table ▸ hq) r hpred
      exact List.mem_append_left _ (ih hr (hup.trans hlower) rfl)

theorem above_iff_dominates (ha : a < t.size) (hq : q < t.size) :
    t.table.Above a q ↔ g.Dominates (t.vertex a) (t.vertex q) := by
  refine ⟨dominates_of_above ht hg hq, fun hdom => ?_⟩
  let dom (a q : Nat) := a < t.size ∧ g.Dominates (t.vertex a) (t.vertex q)
  refine ht.settled.keeps dom ⟨?_, ?_⟩ a q (ht.size_table ▸ hq) ⟨ha, hdom⟩
  · rintro a ⟨ha, hdom⟩
    rw [ht.vertex_zero] at hdom
    have hentry := List.mem_singleton.1 (hdom _ .entry)
    exact ht.vertex_inj ha ht.size_pos (hentry.trans ht.vertex_zero.symm)
  · rintro a q - hq ⟨ha, hdom⟩ hne r hr
    rw [ht.size_table] at hq
    refine ⟨ha, fun path hrun => ?_⟩
    have hmem := hdom _ (hrun.step ((ht.mem_predecessors q hq r).1 hr).2)
    refine (List.mem_append.1 hmem).resolve_right fun hlast => hne ?_
    exact ht.vertex_inj ha hq (List.mem_singleton.1 hlast)

theorem isSome_immediate?_iff : (t.immediate? v).isSome = true ↔ ∃ path, g.Run path v := by
  rw [← exists_number_iff_run ht hg, Dominators.immediate?, Option.isSome_map, Option.isSome_iff_exists]
  exact exists_congr fun q => ht.number?_eq_some_iff

theorem immediate?_spec {d : Nat} (hv : v ≠ Draft.entry) (hd : t.immediate? v = some d) :
    d ≠ v ∧ g.Dominates d v ∧ ∀ e, e ≠ v → g.Dominates e v → g.Dominates e d := by
  obtain ⟨q, hnumber, rfl⟩ := Option.map_eq_some_iff.1 hd
  obtain ⟨hq, rfl⟩ := ht.number?_eq_some_iff.1 hnumber
  have hz : q ≠ 0 := fun hz => hv (hz ▸ ht.vertex_zero)
  rw [ht.parent_eq_up hq]
  have hup : t.table.up q < q := DominatorTable.up_lt hz
  refine ⟨fun heq => ?_, dominates_of_above ht hg hq (.up hz .refl), fun e he hdom => ?_⟩
  · have := ht.vertex_inj (by omega) hq heq
    omega
  · obtain ⟨path, hrun⟩ := (exists_number_iff_run ht hg).1 ⟨q, hq, rfl⟩
    obtain ⟨front, back, rfl⟩ := List.append_of_mem (hdom path hrun)
    obtain ⟨a, ha, rfl⟩ := (exists_number_iff_run ht hg).2 ⟨_, hrun.upTo⟩
    have habove := (above_iff_dominates ht hg ha hq).2 hdom
    exact dominates_of_above ht hg (by omega) (habove.up_of_ne fun haq => he (haq ▸ rfl)).2

end ControlGraph

namespace ControlGraph

variable {g : ControlGraph} {t : Dominators} {x y u : Nat}

/-- The first point dominates a live one right before the second, but does not dominate the second strictly. -/
def Frontier (g : ControlGraph) (x y : Nat) : Prop :=
  (∃ u ∈ g.prior y, g.isLive u = true ∧ g.Dominates x u) ∧ ¬(x ≠ y ∧ g.Dominates x y)

theorem Frontier.isLive (h : g.Frontier x y) (hg : g.Sound) : g.isLive x = true ∧ g.isLive y = true := by
  obtain ⟨⟨u, hu, hlive, hdom⟩, -⟩ := h
  obtain ⟨path, hrun⟩ := (exists_run_iff hg).2 hlive
  exact ⟨hrun.isLive hg (hdom path hrun), (exists_run_iff hg).1 ⟨_, hrun.step (mem_prior_iff.1 hu)⟩⟩

variable (ht : t.IsTree g.next g.size Draft.entry) (hg : g.Sound)

include ht hg

theorem exists_number_iff_isLive : (∃ q < t.size, t.vertex q = x) ↔ g.isLive x = true :=
  (exists_number_iff_run ht.toIsSpanning hg.isClosed).trans (exists_run_iff hg)

theorem mem_frontier_iff : y ∈ t.frontier x ↔ g.Frontier x y := by
  have habove {a q : Nat} := above_iff_dominates ht.toIsSpanning hg.isClosed (a := a) (q := q)
  have hstrict {p q r : Nat} (hp : p < t.size) (hq : q < t.size) (hr : r ∈ t.predecessors q) :
      ¬t.table.Above p (t.parent q) ↔ ¬(t.vertex p ≠ t.vertex q ∧ g.Dominates (t.vertex p) (t.vertex q)) := by
    rw [ht.not_above_parent_iff (ht.pos_of_mem_predecessors hq hr) hq, habove hp hq, ne_eq, ne_eq,
      show t.vertex p = t.vertex q ↔ p = q from ⟨ht.vertex_inj hp hq, congrArg _⟩]
  rw [ht.mem_frontier_iff]
  constructor
  · rintro ⟨p, hp, q, hq, rfl, rfl, r, hr, ha, hne⟩
    obtain ⟨hrsize, hnext⟩ := (ht.mem_predecessors q hq r).1 hr
    refine ⟨⟨t.vertex r, mem_prior_iff.2 hnext, ?_, (habove hp hrsize).1 ha⟩, (hstrict hp hq hr).1 hne⟩
    exact (exists_number_iff_isLive ht hg).1 ⟨r, hrsize, rfl⟩
  · intro h
    obtain ⟨hx, hy⟩ := h.isLive hg
    obtain ⟨p, hp, rfl⟩ := (exists_number_iff_isLive ht hg).2 hx
    obtain ⟨q, hq, rfl⟩ := (exists_number_iff_isLive ht hg).2 hy
    obtain ⟨⟨u, hu, hlive, hdom⟩, hne⟩ := h
    obtain ⟨r, hrsize, rfl⟩ := (exists_number_iff_isLive ht hg).2 hlive
    have hr := (ht.mem_predecessors q hq r).2 ⟨hrsize, mem_prior_iff.1 hu⟩
    exact ⟨p, hp, q, hq, rfl, rfl, r, hr, (habove hp hrsize).2 hdom, (hstrict hp hq hr).2 hne⟩

theorem exists_climb (hu : u ∈ g.prior y) (hlive : g.isLive u = true) : ∃ d, t.immediate? y = some d ∧
    Relation.ReflTransGen (fun v w => t.immediate? v = some w) u d := by
  obtain ⟨r, hrsize, rfl⟩ := (exists_number_iff_isLive ht hg).2 hlive
  obtain ⟨path, hrun⟩ := (exists_run_iff hg).2 hlive
  obtain ⟨q, hq, rfl⟩ := (exists_number_iff_run ht.toIsSpanning hg.isClosed).2 ⟨_, hrun.step (mem_prior_iff.1 hu)⟩
  have hr := (ht.mem_predecessors q hq r).2 ⟨hrsize, mem_prior_iff.1 hu⟩
  refine ⟨t.vertex (t.parent q), ?_, ht.climbs_of_above hrsize (ht.above_parent hq hr)⟩
  rw [Dominators.immediate?, ht.number?_vertex hq, Option.map_some]

end ControlGraph

namespace SsaSource

theorem isSpanning_ofGraph (p : Program) (g : ControlGraph) :
    (ofGraph p g).dominators.IsSpanning g.next g.size Draft.entry :=
  Dominators.isSpanning_compute fun _ _ => ControlGraph.mem_prior_iff

/--
The search for dominators ends in every control flow graph: some number of rounds gives the table, and one more leaves it
as it is. In all tables on the way the entries lead to smaller numbers with an entry, so that the loop over two of these
ends with their meet, which has one too. The points that a run comes to are those that have an immediate dominator. The
entry is its own. That of any other point is a different point on every run to it, and all else that lies on every run to
the point lies on every run to its immediate dominator.
-/
theorem immediate_dominators_are_found (p : Program) (g : ControlGraph) (hg : g.IsClosed) (v : Nat) :
    let t := (ofGraph p g).dominators
    (∃ k, t.table = t.tableAt k 0 ∧ t.table.round t.predecessors = t.table) ∧
      (∀ rounds, ∀ entries < t.size, (t.tableAt rounds entries).IsDescending ∧
        ∀ a b, ((t.tableAt rounds entries).get a).isSome → ((t.tableAt rounds entries).get b).isSome →
          (t.tableAt rounds entries).Meets a b ((t.tableAt rounds entries).meet a b) ∧
          ((t.tableAt rounds entries).get ((t.tableAt rounds entries).meet a b)).isSome) ∧
      ((t.immediate? v).isSome = true ↔ ∃ path, g.Run path v) ∧
      t.immediate? Draft.entry = some Draft.entry ∧
      ∀ d, v ≠ Draft.entry → t.immediate? v = some d →
        d ≠ v ∧ g.Dominates d v ∧ ∀ e, e ≠ v → g.Dominates e v → g.Dominates e d := by
  intro t
  have ht := isSpanning_ofGraph p g
  have hentry := ht.number?_eq_some_iff.2 ⟨ht.size_pos, ht.vertex_zero⟩
  have hdescending (rounds : Nat) {entries : Nat} (h : entries < t.size) : (t.tableAt rounds entries).IsDescending :=
    Dominators.isDescending_tableAt (fun _ _ => ControlGraph.mem_prior_iff) rounds h
  refine ⟨?_, fun rounds entries h => ⟨hdescending rounds h, fun _ _ => (hdescending rounds h).meets⟩,
    ControlGraph.isSome_immediate?_iff ht hg, ?_, fun d => ControlGraph.immediate?_spec ht hg⟩
  · obtain ⟨k, hk⟩ := Dominators.exists_tableAt_eq g.next g.prior g.size Draft.entry
    exact ⟨k, hk, ht.settled.stable⟩
  · rw [Dominators.immediate?, hentry, Option.map_some, ht.parent_eq_up ht.size_pos, Nat.le_zero.1 DominatorTable.up_le,
      ht.vertex_zero]

theorem isTree_ofGraph (p : Program) {g : ControlGraph} (hg : g.Sound) :
    (ofGraph p g).dominators.IsTree g.next g.size Draft.entry :=
  ⟨isSpanning_ofGraph p g, fun u hu => (hg.edge u _ (ControlGraph.mem_next_iff.1 hu)).2.2.2 rfl⟩

/--
The dominance frontier of a point is exact in the control flow graph of every callable. It is found on the ways up from
the points right before another one: each of them comes to the immediate dominator of that one.
-/
theorem frontiers_are_exact (c : ControlFlow) (spliced : Bool) (f : CallableId) (g : ControlGraph)
    (hg : (c.controlGraph? spliced f).outcome = .ok (some g)) (x y : Nat) :
    (y ∈ (ofGraph c.toProgram g).dominators.frontier x ↔ g.isLive y = true ∧ g.Frontier x y) ∧
      ∀ u ∈ g.prior y, g.isLive u = true → ∃ d, (ofGraph c.toProgram g).dominators.immediate? y = some d ∧
        Relation.ReflTransGen (fun v w => (ofGraph c.toProgram g).dominators.immediate? v = some w) u d := by
  have hsound := ControlFlow.sound_of_controlGraph? hg
  have ht := isTree_ofGraph c.toProgram hsound
  refine ⟨?_, fun u hu hlive => ControlGraph.exists_climb ht hsound hu hlive⟩
  rw [ControlGraph.mem_frontier_iff ht hsound, iff_and_self]
  exact fun h => (h.isLive hsound).2

theorem loop_head_is_own_frontier : (Sample.program.controlGraph? false 0).outcome = .ok (some Sample.graph) ∧
    Sample.graph.Frontier 3 3 := by
  refine ⟨Sample.controlGraph?_eq, ?_⟩
  have hmem : 3 ∈ (ofGraph Sample.program.toProgram Sample.graph).dominators.frontier 3 := by decide +kernel
  exact ((frontiers_are_exact Sample.program false 0 Sample.graph Sample.controlGraph?_eq 3 3).1.1 hmem).2

/-!
A graph in which a cycle of two points is entered at both, with a way back to the entry and a point that no run comes to.
-/

namespace Irreducible

def graph : ControlGraph :=
  .ofDraft ⟨#[⟨.entry, 0⟩, ⟨.exit, 0⟩, ⟨.join, 0⟩, ⟨.join, 0⟩, ⟨.join, 0⟩],
    #[⟨0, 2, .normal⟩, ⟨0, 3, .normal⟩, ⟨2, 3, .normal⟩, ⟨3, 2, .normal⟩, ⟨3, 1, .normal⟩, ⟨2, 0, .normal⟩,
      ⟨4, 1, .normal⟩]⟩ 0 false

/-- Every run to the exit comes to one of the two points of the cycle, and that is the immediate dominator. -/
theorem exit_is_dominated : graph.IsClosed ∧ (ofGraph default graph).dominators.immediate? 1 = some 3 ∧
    graph.Dominates 3 1 ∧ ¬∃ path, graph.Run path 4 := by
  have hclosed : graph.IsClosed := by
    rintro _ _ ⟨e, he, rfl, rfl⟩
    revert e
    decide +kernel
  have hexit : (ofGraph default graph).dominators.immediate? 1 = some 3 := by decide +kernel
  refine ⟨hclosed, hexit, ?_, fun hrun => ?_⟩
  · exact ((immediate_dominators_are_found default graph hclosed 1).2.2.2.2 3 (by decide) hexit).2.1
  · have hdead := (immediate_dominators_are_found default graph hclosed 4).2.2.1.2 hrun
    exact absurd hdead (by decide +kernel)

end Irreducible

end SsaSource

end ContractFlow
