import ContractFlow.Proofs.Flow.Path
import ContractFlow.Proofs.Flow.Trail
import Mathlib.Data.List.Chain

/-! This module shows that the ways which searches report are genuine. -/

namespace ContractFlow

namespace Search

namespace Rules

variable (r : Rules) (source : FlowNode)

/-- A way from the source to `x` that follows the steps, enters no barrier and comes to no node twice. -/
structure IsWay (x : FlowNode) (path : List FlowNode) : Prop where
  head : path.head? = some source
  last : path.getLast? = some x
  nodup : path.Nodup
  steps : path.IsChain r.Step
  clear : ∀ y ∈ path.tail, (r.isBarrier y).outcome = .ok false

inductive Linked : List (FlowNode × Option FlowNode) → Prop
  | start : Linked [(source, none)]
  | step {x y : FlowNode} {record : List (FlowNode × Option FlowNode)} : Linked record → x ∈ record.map (·.1) →
      y ∉ record.map (·.1) → r.Step x y → (r.isBarrier y).outcome = .ok false → Linked ((y, some x) :: record)

variable {r source} {x y : FlowNode} {path : List FlowNode} {record : List (FlowNode × Option FlowNode)}

theorem isWay_singleton (source : FlowNode) : r.IsWay source source [source] where
  head := rfl
  last := rfl
  nodup := List.nodup_singleton _
  steps := .singleton _
  clear := by simp

theorem IsWay.append_singleton (h : r.IsWay source x path) (hy : y ∉ path) (hstep : r.Step x y)
    (hclear : (r.isBarrier y).outcome = .ok false) : r.IsWay source y (path ++ [y]) where
  head := by rw [List.head?_append, h.head, Option.some_or]
  last := List.getLast?_concat
  nodup := List.concat_eq_append ▸ h.nodup.concat hy
  steps := by
    refine List.isChain_append.2 ⟨h.steps, .singleton y, fun z hz w hw => ?_⟩
    rw [h.last] at hz
    cases hz
    cases hw
    exact hstep
  clear z hz := by
    have hne : path ≠ [] := by
      rintro rfl
      simpa using h.head
    rw [List.tail_append_of_ne_nil hne, List.mem_append, List.mem_singleton] at hz
    rcases hz with hz | rfl
    · exact h.clear z hz
    · exact hclear

namespace Linked

theorem nodup (h : r.Linked source record) : (record.map (·.1)).Nodup := by
  induction h with
  | start => exact List.nodup_singleton _
  | step _ _ hy _ _ ih => exact List.nodup_cons.2 ⟨hy, ih⟩

theorem source_mem (h : r.Linked source record) : (source, none) ∈ record := by
  induction h with
  | start => exact List.mem_singleton_self _
  | step _ _ _ _ _ ih => exact List.mem_cons_of_mem _ ih

theorem mem_of_mem_trace (h : r.Linked source record) (hy : y ∈ FlowReach.trace record x) : y ∈ record.map (·.1) := by
  induction h generalizing x with
  | start =>
    unfold FlowReach.trace at hy
    split at hy
    · next heq => exact List.mem_singleton.2 ((List.mem_singleton.1 hy).trans heq.symm)
    · simp [FlowReach.trace] at hy
  | step _ _ _ _ _ ih =>
    unfold FlowReach.trace at hy
    split at hy
    · next heq =>
      rcases List.mem_append.1 hy with hy | hy
      · exact List.mem_cons_of_mem _ (ih hy)
      · exact List.mem_cons.2 (.inl ((List.mem_singleton.1 hy).trans heq.symm))
    · exact List.mem_cons_of_mem _ (ih hy)

theorem isWay_trace (h : r.Linked source record) (hx : x ∈ record.map (·.1)) :
    r.IsWay source x (FlowReach.trace record x) := by
  induction h generalizing x with
  | start =>
    obtain rfl := List.mem_singleton.1 hx
    rw [FlowReach.trace, if_pos rfl]
    exact isWay_singleton _
  | @step z y record hrecord hz hy hstep hclear ih =>
    rw [FlowReach.trace]
    split
    · next heq =>
      subst heq
      exact (ih hz).append_singleton (fun hmem => hy (hrecord.mem_of_mem_trace hmem)) hstep hclear
    · next hne => exact ih ((List.mem_cons.1 hx).resolve_left (Ne.symm hne))

theorem isChain_trace (h : r.Linked source record) (hx : x ∈ record.map (·.1)) :
    (FlowReach.trace record x).IsChain fun y z => (z, some y) ∈ record := by
  induction h generalizing x with
  | start =>
    obtain rfl := List.mem_singleton.1 hx
    rw [FlowReach.trace, if_pos rfl]
    exact .singleton _
  | @step z y record hrecord hz hy hstep hclear ih =>
    have hlater {x : FlowNode} (hx : x ∈ record.map (·.1)) :
        (FlowReach.trace record x).IsChain fun a b => (b, some a) ∈ (y, some z) :: record :=
      (ih hx).imp fun _ _ => List.mem_cons_of_mem _
    rw [FlowReach.trace]
    split
    · next heq =>
      subst heq
      refine List.isChain_append.2 ⟨hlater hz, .singleton y, fun w hw v hv => ?_⟩
      rw [(hrecord.isWay_trace hz).last] at hw
      cases hw
      cases hv
      exact List.mem_cons_self
    · next hne => exact hlater ((List.mem_cons.1 hx).resolve_left (Ne.symm hne))

end Linked

end Rules

theorem extends_linked {r : Rules} {source : FlowNode} : r.Extends (r.Linked source) fun _ _ => True :=
  fun hrecord _ hx hsteps hmem _ hclear =>
    ⟨trivial, fun hy => .step hrecord hx hy ⟨_, _, hsteps, hmem⟩ hclear⟩

end Search

/-! Ways of limited length -/

namespace FlowReach

variable {r : FlowReach} {x : FlowNode}

theorem lastPathTo_isSuffix (r : FlowReach) (x : FlowNode) (m : Int) : r.lastPathTo x (some m) <:+ r.pathTo x :=
  List.drop_suffix _ _

theorem length_lastPathTo (r : FlowReach) (x : FlowNode) (m : Int) :
    (r.lastPathTo x (some m)).length = min (max 1 m.toNat) (r.pathTo x).length := by
  unfold lastPathTo
  rw [List.length_drop]
  omega

theorem lastPathTo_eq_of_length_lt {m : Int} (h : ((r.lastPathTo x (some m)).length : Int) < m) :
    r.lastPathTo x (some m) = r.pathTo x := by
  refine (r.lastPathTo_isSuffix x m).eq_of_length ?_
  have := r.length_lastPathTo x m
  omega

end FlowReach

namespace FlowGraph

open Search

variable {g : FlowGraph} {p : Policy} {mode : FlowMode} {source x : FlowNode} {reach : FlowReach}

theorem linked_of_reach (hends : FlowSearch.Ends ⟨g, p, mode⟩ source)
    (hreach : (g.reach p mode source).outcome = .ok reach) :
    (g.rules p mode).Linked source reach.reached.reverse := by
  obtain ⟨k, s, rfl, -, hnotes, rfl⟩ := exists_iterate_of_reach hends hreach
  exact record_iterate extends_linked .start trivial _ k hnotes

theorem isWay_pathTo (hends : FlowSearch.Ends ⟨g, p, mode⟩ source)
    (hreach : (g.reach p mode source).outcome = .ok reach) (hx : reach.reaches x = true) :
    (g.rules p mode).IsWay source x (reach.pathTo x) := by
  refine (linked_of_reach hends hreach).isWay_trace ?_
  rw [List.map_reverse, List.mem_reverse]
  exact List.contains_iff_mem.1 hx

theorem isWay_of_mem_pathsOf {limits : PathLimits} {sinks : List FlowNode} {path : FlowPath}
    (hends : FlowSearch.Ends ⟨g, p, mode⟩ source) (hreach : (g.reach p mode source).outcome = .ok reach)
    (hpath : path ∈ pathsOf limits sinks reach) (htruncated : path.truncated = false) :
    (g.rules p mode).IsWay source path.sink path.nodes := by
  obtain ⟨sink, hsink, rfl⟩ := List.mem_map.1 hpath
  obtain ⟨-, hshort⟩ := Bool.or_eq_false_iff.1 htruncated
  have hwhole : reach.lastPathTo sink (some limits.length) = reach.pathTo sink :=
    FlowReach.lastPathTo_eq_of_length_lt (Int.not_le.1 (of_decide_eq_false hshort))
  rw [hwhole]
  exact isWay_pathTo hends hreach (List.contains_iff_mem.2 (List.mem_filter.1 hsink).1)

/--
The ways that a search reports which has come to an end are genuine. The way to a node goes back from each node to the
one that it was first reached from, up to the source. Of a way of limited length the last nodes are reported, and a flow
that is not marked as cut short is the whole way.
-/
theorem reported_ways_are_genuine (g : FlowGraph) (p : Policy) (mode : FlowMode) :
    (∀ source, FlowSearch.Ends ⟨g, p, mode⟩ source → ∀ reach, (g.reach p mode source).outcome = .ok reach →
      ∀ x, reach.reaches x = true →
        (g.rules p mode).IsWay source x (reach.pathTo x) ∧
        (reach.nodes.Nodup ∧ (source, none) ∈ reach.reached ∧
          (reach.pathTo x).IsChain fun y z => (z, some y) ∈ reach.reached) ∧
        ∀ m : Int, 1 ≤ m → reach.lastPathTo x (some m) <:+ reach.pathTo x ∧
          ((reach.lastPathTo x (some m)).length : Int) = min m (reach.pathTo x).length) ∧
    ∀ limits given paths, (g.flowPaths limits p mode given).outcome = .ok paths → ∀ path ∈ paths,
      FlowSearch.Ends ⟨g, p, mode⟩ path.source → path.truncated = false →
        (g.rules p mode).IsWay path.source path.sink path.nodes := by
  refine ⟨fun source hends reach hreach x hx => ⟨isWay_pathTo hends hreach hx, ?_, fun m hm => ?_⟩, ?_⟩
  · have hlinked := linked_of_reach hends hreach
    refine ⟨?_, List.mem_reverse.1 hlinked.source_mem, ?_⟩
    · exact List.nodup_reverse.1 (List.map_reverse ▸ hlinked.nodup)
    · have hmem : x ∈ reach.reached.reverse.map (·.1) := by
        rw [List.map_reverse, List.mem_reverse]
        exact List.contains_iff_mem.1 hx
      exact (hlinked.isChain_trace hmem).imp fun _ _ => List.mem_reverse.1
  · refine ⟨reach.lastPathTo_isSuffix x m, ?_⟩
    rw [reach.length_lastPathTo x m]
    omega
  · intro limits given paths hpaths path hpath hends htruncated
    obtain ⟨sinks, reach, hreach, hmem⟩ := exists_mem_pathsOf_of_mem_flowPaths hpaths hpath
    exact isWay_of_mem_pathsOf hends hreach hmem htruncated

end FlowGraph

namespace Detour

def widePolicy : Policy :=
  { policy with
    maxCallDepth := .int 2
    isSource := fun x => return x == .argument 14 0
    isSink := fun x => return x == .parameter 2 0 }

def wideDone : Search :=
  search widePolicy 11

theorem queue_wideDone : wideDone.queue = [] := by
  decide +kernel

theorem wideDone_eq : wideDone.truncated = false ∧ wideDone.reached =
    [(.argument 14 0, none), (.parameter 1 0, some (.argument 14 0)), (.expression 19, some (.argument 14 0)),
      (.definition 1 0, some (.parameter 1 0)), (.argument 15 0, some (.parameter 1 0)),
      (.parameter 2 0, some (.argument 15 0)), (.definition 2 0, some (.parameter 2 0))] := by
  decide +kernel

theorem outcome_wideReach : (analysis.reach widePolicy .data (.argument 14 0)).outcome =
    .ok ⟨.argument 14 0, wideDone.reached, wideDone.truncated⟩ :=
  outcome_reach_search widePolicy 11 rfl rfl ⟨queue_wideDone, by decide +kernel⟩

theorem outcome_widePaths : (analysis.flowPaths ⟨500, 100⟩ widePolicy .data none).outcome =
    .ok (FlowGraph.pathsOf ⟨500, 100⟩ [.parameter 2 0] ⟨.argument 14 0, wideDone.reached, wideDone.truncated⟩) := by
  have hsinks : (analysis.sinks widePolicy).outcome = .ok [.parameter 2 0] := by decide +kernel
  have hsources : (analysis.sources widePolicy).outcome = .ok [.argument 14 0] := by decide +kernel
  unfold FlowGraph.flowPaths
  rw [Query.outcome_bind_ok hsinks]
  dsimp only [List.isEmpty_cons]
  rw [if_neg (by decide), Query.outcome_bind_ok hsources, FlowGraph.pathsFrom, Query.outcome_bind_ok outcome_wideReach]
  rw [wideDone_eq.2]
  rfl

theorem way_into_second_call_is_genuine :
    (∃ reach, (analysis.reach widePolicy .data (.argument 14 0)).outcome = .ok reach ∧
      reach.pathTo (.parameter 2 0) = [.argument 14 0, .parameter 1 0, .argument 15 0, .parameter 2 0] ∧
      reach.lastPathTo (.parameter 2 0) (some 2) = [.argument 15 0, .parameter 2 0] ∧
      (analysis.rules widePolicy .data).IsWay (.argument 14 0) (.parameter 2 0) (reach.pathTo (.parameter 2 0))) ∧
    ∃ paths path, (analysis.flowPaths ⟨500, 100⟩ widePolicy .data none).outcome = .ok paths ∧ path ∈ paths ∧
      path.truncated = false ∧
      (analysis.rules widePolicy .data).IsWay (.argument 14 0) (.parameter 2 0) path.nodes := by
  have hends : FlowSearch.Ends ⟨analysis, widePolicy, .data⟩ (.argument 14 0) := ⟨11, queue_wideDone⟩
  have hreach := outcome_wideReach
  have hpaths := outcome_widePaths
  rw [wideDone_eq.1, wideDone_eq.2] at hreach hpaths
  obtain ⟨hway, hflow⟩ := FlowGraph.reported_ways_are_genuine analysis widePolicy .data
  refine ⟨⟨_, hreach, by decide, by decide, (hway _ hends _ hreach _ (by decide)).1⟩, ?_⟩
  exact ⟨_, _, hpaths, List.mem_singleton_self _, by decide,
    hflow _ _ _ hpaths _ (List.mem_singleton_self _) hends (by decide)⟩

end Detour

end ContractFlow
