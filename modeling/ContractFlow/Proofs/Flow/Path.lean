import ContractFlow.Flow.Path
import ContractFlow.Proofs.Flow.Reach

/-! This module shows which flows are found for a policy. -/

namespace ContractFlow.FlowGraph

variable {g : FlowGraph} {p : Policy} {mode : FlowMode} {limits : PathLimits} {sinks sources : List FlowNode}
  {found paths : List FlowPath} {path : FlowPath} {x source : FlowNode} {r : FlowReach}

theorem of_mem_pathsOf (h : path ∈ pathsOf limits sinks r) :
    path.source = r.source ∧ path.sink ∈ r.nodes ∧ path.sink ∈ sinks := by
  obtain ⟨sink, hsink, rfl⟩ := List.mem_map.1 h
  obtain ⟨hreached, hsink⟩ := List.mem_filter.1 hsink
  exact ⟨rfl, hreached, List.contains_iff_mem.1 hsink⟩

theorem exists_mem_pathsOf (limits : PathLimits) (hx : x ∈ r.nodes) (hsink : x ∈ sinks) :
    ∃ path ∈ pathsOf limits sinks r, path.source = r.source ∧ path.sink = x :=
  ⟨_, List.mem_map_of_mem (List.mem_filter.2 ⟨hx, List.contains_iff_mem.2 hsink⟩), rfl, rfl⟩

theorem eq_of_outcome_reach (h : (g.reach p mode source).outcome = .ok r) :
    r.source = source ∧
      r.reached = ((Search.start source (g.flowOwner? source)).run (g.rules p mode)).reached := by
  obtain ⟨-, -, h⟩ := Query.outcome_bind_eq_ok.1 h
  obtain ⟨-, -, h⟩ := Query.outcome_bind_eq_ok.1 h
  split at h
  · obtain ⟨-, -, h⟩ := Query.outcome_bind_eq_ok.1 h
    obtain rfl := Except.ok.inj h
    exact ⟨rfl, rfl⟩
  · obtain rfl := Except.ok.inj h
    exact ⟨rfl, rfl⟩

theorem exists_of_mem_pathsFrom (h : (g.pathsFrom limits p mode sinks found sources).outcome = .ok paths)
    (hpath : path ∈ paths) : path ∈ found ∨ ∃ source ∈ sources, ∃ r,
      (g.reach p mode source).outcome = .ok r ∧ path ∈ pathsOf limits sinks r := by
  induction sources generalizing found with
  | nil => exact .inl (Except.ok.inj h ▸ hpath)
  | cons source rest ih =>
    obtain ⟨r, hr, h⟩ := Query.outcome_bind_eq_ok.1 h
    have hall (hmem : path ∈ found ++ pathsOf limits sinks r) : path ∈ found ∨ ∃ source' ∈ source :: rest, ∃ r,
        (g.reach p mode source').outcome = .ok r ∧ path ∈ pathsOf limits sinks r :=
      (List.mem_append.1 hmem).imp_right fun hmem => ⟨source, List.mem_cons_self, r, hr, hmem⟩
    dsimp only at h
    split at h
    · rw [← Except.ok.inj h] at hpath
      exact hall (List.mem_of_mem_take hpath)
    · rcases ih h with hmem | ⟨source', hmem, r', hr', hpath⟩
      · exact hall hmem
      · exact .inr ⟨source', List.mem_cons_of_mem _ hmem, r', hr', hpath⟩

theorem exists_mem_pathsOf_of_mem_flowPaths {given : Option (List FlowNode)}
    (h : (g.flowPaths limits p mode given).outcome = .ok paths) (hpath : path ∈ paths) :
    ∃ sinks r, (g.reach p mode path.source).outcome = .ok r ∧ path ∈ pathsOf limits sinks r := by
  obtain ⟨sinks, -, h⟩ := Query.outcome_bind_eq_ok.1 h
  split at h
  · rw [← Except.ok.inj h] at hpath
    simp at hpath
  · obtain ⟨sources, h⟩ : ∃ sources, (g.pathsFrom limits p mode sinks [] sources).outcome = .ok paths := by
      cases given with
      | some sources => exact ⟨sources, h⟩
      | none =>
        obtain ⟨sources, -, h⟩ := Query.outcome_bind_eq_ok.1 h
        exact ⟨sources, h⟩
    rcases exists_of_mem_pathsFrom h hpath with hmem | ⟨source, -, r, hr, hmem⟩
    · simp at hmem
    · obtain ⟨heq, -⟩ := of_mem_pathsOf hmem
      rw [heq, (eq_of_outcome_reach hr).1]
      exact ⟨sinks, r, hr, hmem⟩

theorem exists_of_mem_flowPaths (h : (g.flowPaths limits p mode none).outcome = .ok paths)
    (hpath : path ∈ paths) :
    (∃ nodes, g.listNodes.outcome = .ok nodes ∧ path.source ∈ nodes ∧ path.sink ∈ nodes) ∧
    (p.isSource path.source).outcome = .ok true ∧ (p.isSink path.sink).outcome = .ok true ∧
    ∃ r, (g.reach p mode path.source).outcome = .ok r ∧ path.sink ∈ r.nodes := by
  obtain ⟨sinks, hsinks, h⟩ := Query.outcome_bind_eq_ok.1 h
  split at h
  · rw [← Except.ok.inj h] at hpath
    simp at hpath
  · obtain ⟨sources, hsources, h⟩ := Query.outcome_bind_eq_ok.1 h
    obtain ⟨nodes, hnodes, hsources⟩ := Query.outcome_bind_eq_ok.1 hsources
    obtain ⟨nodes', hnodes', hsinks⟩ := Query.outcome_bind_eq_ok.1 hsinks
    obtain rfl := Except.ok.inj (hnodes.symm.trans hnodes')
    rw [Query.outcome_filterM] at hsources hsinks
    rw [nodes_eq] at hnodes
    rcases exists_of_mem_pathsFrom h hpath with hmem | ⟨source, hsource, r, hr, hmem⟩
    · simp at hmem
    · obtain ⟨heq, hreached, hsink⟩ := of_mem_pathsOf hmem
      obtain ⟨hnode, htrue⟩ := (Outcome.mem_of_filterM_eq_ok hsources source).1 hsource
      obtain ⟨hend, hsink⟩ := (Outcome.mem_of_filterM_eq_ok hsinks _).1 hsink
      rw [heq, (eq_of_outcome_reach hr).1]
      exact ⟨⟨nodes, hnodes, hnode, hend⟩, htrue, hsink, r, hr, hreached⟩

theorem answers_pathsFrom (limits : PathLimits) (sinks : List FlowNode) (found : List FlowPath)
    (hreach : ∀ source ∈ sources, (g.reach p mode source).Answers) :
    (g.pathsFrom limits p mode sinks found sources).Answers fun paths =>
      (paths.length : Int) < limits.count → found ⊆ paths ∧ ∀ source ∈ sources, ∀ r,
        (g.reach p mode source).outcome = .ok r → pathsOf limits sinks r ⊆ paths := by
  induction sources generalizing found with
  | nil => exact .pure fun _ => ⟨List.Subset.refl _, by simp⟩
  | cons source rest ih =>
    obtain ⟨hsource, hrest⟩ := List.forall_mem_cons.1 hreach
    obtain ⟨r, hr, -⟩ := hsource
    refine .bind_ok hr ?_
    dsimp only
    split
    · next hcount =>
      refine .pure fun hlt => ?_
      rw [List.length_take] at hlt
      omega
    · obtain ⟨paths, hpaths, hall⟩ := ih (found ++ pathsOf limits sinks r) hrest
      refine ⟨paths, hpaths, fun hlt => ?_⟩
      obtain ⟨hfound, hothers⟩ := hall hlt
      refine ⟨fun x hx => hfound (List.mem_append_left _ hx), ?_⟩
      refine List.forall_mem_cons.2 ⟨fun r' hr' x hx => ?_, hothers⟩
      obtain rfl := Except.ok.inj (hr.symm.trans hr')
      exact hfound (List.mem_append_right _ hx)

theorem answers_flowPaths (limits : PathLimits) {nodes : List FlowNode} (hnodes : g.listNodes.outcome = .ok nodes)
    (hsource : ∀ x, (p.isSource x).Answers) (hsink : ∀ x, (p.isSink x).Answers)
    (hreach : ∀ x ∈ nodes, (p.isSource x).outcome = .ok true → (g.reach p mode x).Answers) :
    (g.flowPaths limits p mode none).Answers fun paths =>
      (paths.length : Int) < limits.count → ∀ source ∈ nodes, (p.isSource source).outcome = .ok true →
        ∀ r, (g.reach p mode source).outcome = .ok r → ∀ x ∈ nodes, x ∈ r.nodes →
          (p.isSink x).outcome = .ok true → ∃ path ∈ paths, path.source = source ∧ path.sink = x := by
  have hlisted : g.nodes.Answers (· = nodes) := ⟨nodes, g.nodes_eq ▸ hnodes, rfl⟩
  have hfilter {test : FlowNode → Query Bool} (htest : ∀ x, (test x).Answers) :
      Query.Answers (do (← g.nodes).filterM test) fun xs =>
        ∀ x, x ∈ xs ↔ x ∈ nodes ∧ (test x).outcome = .ok true := by
    refine .bind hlisted fun _ heq => ?_
    rw [heq]
    obtain ⟨xs, hxs, -⟩ : (nodes.filterM test).Answers := .filterM fun x _ => htest x
    refine ⟨xs, hxs, ?_⟩
    rw [Query.outcome_filterM] at hxs
    exact Outcome.mem_of_filterM_eq_ok hxs
  refine .bind (hfilter hsink) fun sinks hsinks => ?_
  split
  · next hempty =>
    refine .pure fun _ source _ _ r _ x hx _ htrue => ?_
    have := (hsinks x).2 ⟨hx, htrue⟩
    rw [List.isEmpty_iff.1 hempty] at this
    simp at this
  · refine .bind (hfilter hsource) fun sources hsources => ?_
    obtain ⟨paths, hpaths, hall⟩ := answers_pathsFrom limits sinks []
      fun s hs => hreach s ((hsources s).1 hs).1 ((hsources s).1 hs).2
    refine ⟨paths, hpaths, fun hlt source hs htrue r hr x hx hreached hsink => ?_⟩
    obtain ⟨path, hpath, heq, hend⟩ := exists_mem_pathsOf limits hreached ((hsinks x).2 ⟨hx, hsink⟩)
    refine ⟨path, (hall hlt).2 source ((hsources source).2 ⟨hs, htrue⟩) r hr hpath, ?_, hend⟩
    rw [heq, (eq_of_outcome_reach hr).1]

end ContractFlow.FlowGraph
