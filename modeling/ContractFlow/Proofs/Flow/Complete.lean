import ContractFlow.Proofs.Flow.Genuine

/-! This module shows that a search which is not marked as cut short misses nothing. -/

namespace ContractFlow

namespace Search

variable {r : Rules} {x : FlowNode} {s : Search}

theorem Accounts.reached_or_barrier (h : s.Accounts r []) (htruncated : s.truncated = false)
    (hx : x ∈ s.reached.map (·.1)) :
    ∃ steps, (r.steps x).outcome = .ok steps ∧
      ∀ step ∈ steps, step.1 ∈ s.reached.map (·.1) ∨ (r.isBarrier step.1).outcome = .ok true := by
  obtain ⟨mark, hmark⟩ := Option.isSome_iff_exists.1 ((h.reached x).1 hx)
  obtain ⟨steps, hsteps, hall⟩ := (h.settled x mark hmark).resolve_left (by simp)
  refine ⟨steps, hsteps, fun step hstep => ?_⟩
  cases hall step.1 step.2 hstep with
  | cut _ hcut => exact absurd (hcut.symm.trans htruncated) (by decide)
  | taken _ _ hwhy =>
    rcases hwhy with hbarrier | ⟨d, -, hd⟩
    · exact .inr hbarrier
    · obtain ⟨mark', hmark', -⟩ := Option.map_eq_some_iff.1 hd
      exact .inl ((h.reached step.1).2 (hmark' ▸ rfl))

def Rules.ClearStep (r : Rules) (x y : FlowNode) : Prop :=
  r.Step x y ∧ (r.isBarrier y).outcome = .ok false

theorem Rules.Linked.reachable {source : FlowNode} {record : List (FlowNode × Option FlowNode)}
    (h : r.Linked source record) (hx : x ∈ record.map (·.1)) : Relation.ReflTransGen r.ClearStep source x := by
  induction h generalizing x with
  | start => exact List.mem_singleton.1 hx ▸ .refl
  | step _ hz _ hstep hclear ih =>
    rcases List.mem_cons.1 hx with rfl | hx
    · exact (ih hz).tail ⟨hstep, hclear⟩
    · exact ih hx

end Search

namespace FlowGraph

open Search

variable {g : FlowGraph} {p : Policy} {mode : FlowMode} {source : FlowNode} {reach : FlowReach}

theorem exists_accounts_of_reach (hends : FlowSearch.Ends ⟨g, p, mode⟩ source)
    (hreach : (g.reach p mode source).outcome = .ok reach) :
    ∃ s : Search, s.Accounts (g.rules p mode) [] ∧ reach = ⟨source, s.reached, s.truncated⟩ := by
  obtain ⟨k, s, hs, hqueue, hnotes, heq⟩ := exists_iterate_of_reach hends hreach
  have haccounts : s.Accounts (g.rules p mode) s.queue := by
    subst hs
    exact iterate_of_round (P := fun s => s.Accounts (g.rules p mode) s.queue) Round.accounts
      (accounts_start source (g.flowOwner? source)) k hnotes
  exact ⟨s, hqueue ▸ haccounts, heq⟩

/--
A search that has come to an end and is not marked as cut short is complete: every step from a node that is reached
leads to a barrier or to a node that is reached. So it reaches all that steps lead to without entering a barrier, at any
call depth.
-/
theorem untruncated_reach_is_complete (g : FlowGraph) (p : Policy) (mode : FlowMode) (source : FlowNode)
    (hends : FlowSearch.Ends ⟨g, p, mode⟩ source) (reach : FlowReach)
    (hreach : (g.reach p mode source).outcome = .ok reach) (htruncated : reach.truncated = false) :
    (∀ x, reach.reaches x = true → ∃ steps, (g.steps p mode x).outcome = .ok steps ∧ ∀ step ∈ steps,
      reach.reaches step.1 = true ∨ (p.isBarrier (g.reachedOwner? step.1) step.1).outcome = .ok true) ∧
    ∀ x, reach.reaches x = true ↔ Relation.ReflTransGen (g.rules p mode).ClearStep source x := by
  have hlinked := linked_of_reach hends hreach
  obtain ⟨s, hs, rfl⟩ := exists_accounts_of_reach hends hreach
  have hmem (x : FlowNode) : FlowReach.reaches ⟨source, s.reached, s.truncated⟩ x = true ↔ x ∈ s.reached.map (·.1) :=
    List.contains_iff_mem
  have hclosed {x : FlowNode} (hx : x ∈ s.reached.map (·.1)) := hs.reached_or_barrier htruncated hx
  simp only [hmem]
  refine ⟨fun x hx => hclosed hx, fun x => ⟨fun hx => ?_, fun hx => ?_⟩⟩
  · exact hlinked.reachable (by simpa using hx)
  · induction hx with
    | refl =>
      have hsource := List.mem_map_of_mem (f := (·.1)) hlinked.source_mem
      simpa using hsource
    | @tail y z _ hstep ih =>
      obtain ⟨⟨steps', change, hsteps', hmem'⟩, hclear⟩ := hstep
      obtain ⟨steps, hsteps, hall⟩ := hclosed ih
      obtain rfl := Except.ok.inj (hsteps.symm.trans hsteps')
      refine (hall _ hmem').resolve_right fun hbarrier => ?_
      exact absurd (hbarrier.symm.trans hclear) (by simp)

end FlowGraph

theorem Detour.wide_reach_is_complete :
    ∃ reach, (analysis.reach widePolicy .data (.argument 14 0)).outcome = .ok reach ∧ reach.truncated = false ∧
      ∀ x, reach.reaches x = true ↔
        Relation.ReflTransGen (analysis.rules widePolicy .data).ClearStep (.argument 14 0) x :=
  ⟨_, outcome_wideReach, wideDone_eq.1, (FlowGraph.untruncated_reach_is_complete analysis widePolicy .data
    (.argument 14 0) ⟨11, queue_wideDone⟩ _ outcome_wideReach wideDone_eq.1).2⟩

end ContractFlow
