import ContractFlow.Proofs.Control.Precedence
import ContractFlow.Proofs.Ssa.Site

/-! This module shows that finished static single assignment forms are well formed. -/

namespace ContractFlow

namespace RenamingPlan

variable {p : RenamingPlan} {succ : Nat → List Nat} {n root : Nat}

def renamed (p : RenamingPlan) : Renaming :=
  p.rename 0 [] { definitions := p.phis }

theorem fst_of_mem_usesAt {i : Nat} {env : Bindings} {u : NodeId × Nat} (h : u ∈ p.usesAt i env) :
    p.source.graph.node? i = some u.1 := by
  obtain ⟨x, hread, -⟩ := mem_usesAt_iff.1 h
  exact (mem_readsAt_iff.1 hread).1

theorem length_usesAt_le (i : Nat) (env : Bindings) : (p.usesAt i env).length ≤ 1 := by
  have hreads : (p.readsAt i).length ≤ 1 := by
    unfold readsAt
    split
    · simp
    · split
      · simp
      · split <;> simp
  exact Nat.le_trans (List.length_filterMap_le _ _) hreads

variable (ht : p.source.dominators.IsTree succ n root)

include ht

theorem nodup_uses_renamed
    (hone : ∀ i j m, p.source.graph.node? i = some m → p.source.graph.node? j = some m → i = j) :
    (p.renamed.uses.map (·.1)).Nodup := by
  obtain ⟨vs, heq, hf⟩ := exists_forest_rename ht ht.size_pos [] { definitions := p.phis }
  have huses : p.renamed.uses = vs.flatMap fun v => p.usesAt (p.place v) v.env := by
    unfold renamed
    rw [heq, (foldl_perform_eq hf.consecutive).2.1, List.nil_append]
  rw [huses, List.map_flatMap, List.nodup_flatMap]
  refine ⟨fun v _ => ?_, ?_⟩
  · have hle := length_usesAt_le (p := p) (p.place v) v.env
    match p.usesAt (p.place v) v.env, hle with
    | [], _ => exact List.nodup_nil
    | [u], _ => exact List.nodup_singleton _
  · refine (List.pairwise_map.1 hf.nodup).imp_of_mem fun {v w} hv hw hne m hmv hmw => hne ?_
    obtain ⟨u, hu, rfl⟩ := List.mem_map.1 hmv
    obtain ⟨u', hu', heq'⟩ := List.mem_map.1 hmw
    have hplace := hone _ _ _ (fst_of_mem_usesAt hu) (heq' ▸ fst_of_mem_usesAt hu')
    exact ht.vertex_inj (hf.below v hv).1 (hf.below w hw).1 hplace

theorem exists_exit_of_mem_atExit {e : NodeId × Nat} (he : e ∈ p.renamed.atExit) :
    ∃ v < p.source.dominators.size, (p.source.graph.point (p.source.dominators.vertex v)).kind = .exit := by
  obtain ⟨vs, heq, hf⟩ := exists_forest_rename ht ht.size_pos [] { definitions := p.phis }
  by_contra hnone
  push Not at hnone
  have hempty : p.renamed.atExit = [] := by
    unfold renamed
    rw [heq, atExit_foldl_perform_of_not]
    exact fun v hv => hnone v.number (hf.below v hv).1
  simp [hempty] at he

end RenamingPlan

namespace Renaming

variable {r : Renaming} {g : ControlGraph} {count : Nat}

theorem round_removals (r : Renaming) (count : Nat) :
    Removals.round (r.phiInputs count) (r.removals count) = r.removals count :=
  Removals.round_settle (Removals.listed_nil _)

theorem sublist_uses_finish (r : Renaming) (g : ControlGraph) (count : Nat) :
    ((r.finish g count).uses.map (·.1)).Sublist (r.uses.map (·.1)) := by
  have huses : (r.finish g count).uses = r.uses.filterMap fun use => (r.final count use.2).map (use.1, ·) := rfl
  rw [huses]
  induction r.uses with
  | nil => exact .slnil
  | cons use rest ih =>
    rw [List.filterMap_cons]
    cases r.final count use.2 with
    | none => exact ih.cons _
    | some d => exact ih.cons_cons _

namespace Closed

variable (h : r.Closed count) {k : Nat}

include h

theorem two_le_length_phiInputs (hk : k ∈ r.kept count) (hphi : k < count) :
    2 ≤ ((r.finish g count).phiInputs (r.renumber count k)).length := by
  rw [h.phiInputs_finish hk, if_pos hphi, List.length_map]
  refine Removals.two_le_length_merged ?_ (mem_kept_iff.1 hk).2
  exact Removals.consider_eq_of_round (r.round_removals count)
    (List.mem_map.2 ⟨k, List.mem_range.2 hphi, rfl⟩)

theorem nodup_phiInputs (hk : k ∈ r.kept count) : ((r.finish g count).phiInputs (r.renumber count k)).Nodup := by
  rw [h.phiInputs_finish hk]
  split
  · refine List.Nodup.map_on (fun d hd e _ heq => ?_) (nodup_distinct _)
    obtain ⟨-, i, hi, hresolve⟩ := Removals.mem_merged_iff.1 hd
    obtain ⟨⟨phi, i⟩, hinput, rfl⟩ := List.mem_map.1 hi
    have hlt := (h.input _ _ (List.mem_filter.1 hinput).1).2
    exact (renumber_inj (h.mem_kept_of_resolve hlt hresolve)).1 heq
  · exact List.nodup_nil

theorem renumber_notMem_phiInputs (hk : k ∈ r.kept count) :
    r.renumber count k ∉ (r.finish g count).phiInputs (r.renumber count k) := by
  intro hmem
  obtain ⟨k', heq, -, hne, -⟩ := (h.mem_phiInputs_finish hk).1 hmem
  exact hne ((renumber_inj hk).1 heq).symm

end Closed

end Renaming

namespace SsaForm

/--
What holds of every finished form of a callable `f`: `phi` and `input` are about what is merged, `read`, `uses` and
`exit` about what is bound, and `site` about where definitions stand that are no phis.
-/
structure WellFormed (s : SsaForm) (p : Program) (f : CallableId) : Prop where
  number : ∀ d ∈ s.indices, s.definitions[d]? = some (s.definition d)
  phi : ∀ d ∈ s.phis, 2 ≤ (s.phiInputs d).length ∧ (s.phiInputs d).Nodup ∧ d ∉ s.phiInputs d
  input : ∀ d, ∀ e ∈ s.phiInputs d, d ∈ s.phis ∧ e ∈ s.indices ∧
    (s.definition e).variableNode = (s.definition d).variableNode
  read : ∀ u d, s.definitionOf? u = some d → d ∈ s.indices ∧ p.localOf? u = some (s.definition d).variableNode
  exit : ∀ x d, s.exitDefinition? x = some d → d ∈ s.indices ∧ (s.definition d).variableNode = x
  uses : ∀ d, (s.usesOf d).Nodup ∧ ∀ u, u ∈ s.usesOf d ↔ s.definitionOf? u = some d
  site : ∀ d ∈ s.indices, d ∉ s.phis → ∃ n, (s.definition d).site = some n ∧
    (s.graph.node? (s.definition d).point = some n ∨
      (s.definition d).point = Draft.entry ∧ (s.definition d).variableNode = n ∧
        ∃ x ∈ (p.callableD f).parameters ++ (p.callableD f).returns, x.node = n)

variable {p : Program} {g : ControlGraph} {d e : Nat} {u x : NodeId}

abbrev planOf (p : Program) (g : ControlGraph) : RenamingPlan :=
  .ofSource (.ofGraph p g)

def mergesOver (p : Program) (g : ControlGraph) : List (Nat × List Nat) :=
  (planOf p g).renamed.phiInputs (planOf p g).phis.size

theorem ofGraph_eq (p : Program) (g : ControlGraph) :
    ofGraph p g = (planOf p g).renamed.finish g (planOf p g).phis.size := rfl

theorem exists_kept (hd : d ∈ (ofGraph p g).indices) :
    ∃ k ∈ (planOf p g).renamed.kept (planOf p g).phis.size,
      d = (planOf p g).renamed.renumber (planOf p g).phis.size k :=
  Renaming.exists_kept hd

section Sound

variable (hg : g.Sound)

include hg

theorem closed_renamed : (planOf p g).renamed.Closed (planOf p g).phis.size := by
  obtain ⟨hp, env, start, h⟩ := exists_found_ofGraph p hg
  exact RenamingPlan.closed_of_found hp h

theorem wellFormed_phi (hd : d ∈ (ofGraph p g).phis) : 2 ≤ ((ofGraph p g).phiInputs d).length ∧
    ((ofGraph p g).phiInputs d).Nodup ∧ d ∉ (ofGraph p g).phiInputs d := by
  have hclosed := closed_renamed (p := p) hg
  obtain ⟨hmem, hphi⟩ := List.mem_filter.1 hd
  obtain ⟨k, hk, rfl⟩ := exists_kept hmem
  have hlt := (hclosed.isPhi_finish hk).1 hphi
  exact ⟨hclosed.two_le_length_phiInputs hk hlt, hclosed.nodup_phiInputs hk, hclosed.renumber_notMem_phiInputs hk⟩

theorem wellFormed_input (he : e ∈ (ofGraph p g).phiInputs d) : d ∈ (ofGraph p g).phis ∧ e ∈ (ofGraph p g).indices ∧
    ((ofGraph p g).definition e).variableNode = ((ofGraph p g).definition d).variableNode := by
  obtain ⟨hp, env, start, h⟩ := exists_found_ofGraph p hg
  have hclosed := closed_renamed (p := p) hg
  have hphi := mem_phis_of_mem_phiInputs hg he
  obtain ⟨k, hk, rfl⟩ := exists_kept (List.mem_filter.1 hphi).1
  obtain ⟨k', rfl, hmerged⟩ := (hclosed.mem_phiInputs_finish hk).1 he
  have hk' := hclosed.mem_kept_of_merged hmerged
  obtain ⟨-, -, i, hinput, hresolve⟩ := hmerged
  have hmerges := (Renaming.faithful_removals _ _).merged i k' hresolve
  refine ⟨hphi, List.mem_range.2 (Renaming.renumber_lt hk'), ?_⟩
  rw [ofGraph_eq, Renaming.definition_finish hk, Renaming.definition_finish hk']
  exact RenamingPlan.variableNode_of_merges hp h (.head hinput hmerges)

theorem wellFormed_exit (hd : (ofGraph p g).exitDefinition? x = some d) :
    d ∈ (ofGraph p g).indices ∧ ((ofGraph p g).definition d).variableNode = x := by
  obtain ⟨hp, env, start, h⟩ := exists_found_ofGraph p hg
  have hmem : (x, d) ∈ List.filterMap _ _ := mem_of_lookup_eq_some hd
  obtain ⟨⟨y, k⟩, hk, hfinal⟩ := List.mem_filterMap.1 hmem
  obtain ⟨k', -, hpair⟩ := Option.map_eq_some_iff.1 hfinal
  obtain ⟨rfl, rfl⟩ := Prod.mk.inj hpair
  obtain ⟨v, hv, hkind⟩ := RenamingPlan.exists_exit_of_mem_atExit hp.tree hk
  have hvertex := (ControlGraph.kind_eq_exit_iff hg).1 hkind
  have hexit : g.isLive Draft.exit = true := hvertex ▸ hp.isLive_vertex hv
  have htracked : y ∈ (SsaSource.ofGraph p g).tracked := by
    have hatExit := h.atExit v hv fun w hw => ⟨fun hw' => ?_, fun heq => heq ▸ hkind⟩
    · rw [hatExit] at hk
      obtain ⟨z, hz, hlookup⟩ := List.mem_filterMap.1 hk
      obtain ⟨_, -, hpair⟩ := Option.map_eq_some_iff.1 hlookup
      exact (Prod.mk.inj hpair).1 ▸ hz
    · exact hp.tree.vertex_inj hw hv (((ControlGraph.kind_eq_exit_iff hg).1 hw').trans hvertex.symm)
  have hreaching := reaching_exitDefinition? (p := p) hg hexit htracked
  rw [hd] at hreaching
  exact ⟨List.mem_range.2 hreaching.1, hreaching.2.1⟩

variable (hone : ∀ i j n, g.node? i = some n → g.node? j = some n → i = j)

include hone

theorem nodup_uses : ((ofGraph p g).uses.map (·.1)).Nodup := by
  have hnodup := RenamingPlan.nodup_uses_renamed (p := planOf p g) (SsaSource.isTree_ofGraph p hg) hone
  exact hnodup.sublist (Renaming.sublist_uses_finish (planOf p g).renamed g (planOf p g).phis.size)

theorem wellFormed_uses (d : Nat) : ((ofGraph p g).usesOf d).Nodup ∧
    ∀ u, u ∈ (ofGraph p g).usesOf d ↔ (ofGraph p g).definitionOf? u = some d := by
  refine ⟨(nodup_uses hg hone).sublist (List.filter_sublist.map _), fun u => ⟨fun hu => ?_, mem_usesOf_of_definitionOf?⟩⟩
  obtain ⟨_, _, _, _, _, _, _, hdefinition⟩ := exists_of_mem_usesOf hg hone hu
  exact hdefinition

theorem wellFormed_read (hd : (ofGraph p g).definitionOf? u = some d) :
    d ∈ (ofGraph p g).indices ∧ p.localOf? u = some ((ofGraph p g).definition d).variableNode := by
  obtain ⟨i, y, hlive, hnode, hlocal, htracked, hread, -⟩ :=
    exists_of_mem_usesOf hg hone (mem_usesOf_of_definitionOf? hd)
  have hreaching := reaching_definitionOf? hg (fun i j => hone i j u) hlive hnode hlocal htracked hread
  rw [hd] at hreaching
  exact ⟨List.mem_range.2 hreaching.1, hreaching.2.1.symm ▸ hlocal⟩

end Sound

theorem wellFormed_site (hg : g.Sound) (hd : d ∈ (ofGraph p g).indices) (hphi : d ∉ (ofGraph p g).phis) :
    ∃ n, ((ofGraph p g).definition d).site = some n ∧
      (g.node? ((ofGraph p g).definition d).point = some n ∨
        ((ofGraph p g).definition d).point = Draft.entry ∧ ((ofGraph p g).definition d).variableNode = n ∧
          ∃ x ∈ (p.callableD g.callable).parameters ++ (p.callableD g.callable).returns, x.node = n) := by
  rcases definition_cases hg (List.mem_range.1 hd) with ⟨y, i, -, -, heq⟩ | ⟨i, hlive, w, hw, heq⟩
  · exact absurd (List.mem_filter.2 ⟨hd, by rw [heq]; rfl⟩) hphi
  · rw [heq]
    refine ⟨w.site, rfl, ?_⟩
    rcases SsaSource.mem_writes_cases hw with ⟨hkind, hw⟩ | ⟨n, hn, hw⟩
    · have hentry := (ControlGraph.kind_eq_entry_iff hg ((SsaSource.fits_ofGraph p hg).lt_size hlive)).1 hkind
      refine .inr ⟨hentry, (Program.of_mem_entryWrites hw).1.symm, ?_⟩
      rcases List.mem_append.1 hw with hw | hw
      · obtain ⟨x, hx, rfl⟩ := List.mem_map.1 hw
        exact ⟨x, List.mem_append_left _ hx, rfl⟩
      · obtain ⟨x, hx, rfl⟩ := List.mem_map.1 hw
        exact ⟨x, List.mem_append_right _ hx, rfl⟩
    · exact .inl ((Program.of_mem_writesAt hw).1.symm ▸ hn)

theorem wellFormed_ofGraph (p : Program) (hg : g.Sound)
    (hone : ∀ i j n, g.node? i = some n → g.node? j = some n → i = j) : (ofGraph p g).WellFormed p g.callable where
  number d hd := by
    unfold definition
    rw [Array.getD_eq_getD_getElem?, Array.getElem?_eq_getElem (List.mem_range.1 hd)]
    rfl
  phi _ := wellFormed_phi hg
  input _ _ := wellFormed_input hg
  read _ _ := wellFormed_read hg hone
  exit _ _ := wellFormed_exit hg
  uses := wellFormed_uses hg hone
  site _ := wellFormed_site hg

end SsaForm

namespace ValueFlow

/--
The form of every callable is well formed. The rounds in which needless phis are removed are enough: one more would
remove nothing.
-/
theorem form_is_well_formed (v : ValueFlow) (f : CallableId) (s : SsaForm)
    (hs : (v.form? f).outcome = .ok (some s)) :
    s = SsaForm.ofGraph v.toProgram s.graph ∧
    (∃ rounds, Removals.settle (SsaForm.mergesOver v.toProgram s.graph) []
        = (Removals.round (SsaForm.mergesOver v.toProgram s.graph))^[rounds] [] ∧
      Removals.round (SsaForm.mergesOver v.toProgram s.graph)
          (Removals.settle (SsaForm.mergesOver v.toProgram s.graph) [])
        = Removals.settle (SsaForm.mergesOver v.toProgram s.graph) []) ∧
    s.WellFormed v.toProgram f := by
  obtain ⟨hgraph, -, -, heq⟩ := outcome_form?_eq_some.1 hs
  obtain ⟨rounds, hrounds⟩ := Removals.exists_settle_eq_iterate (SsaForm.mergesOver v.toProgram s.graph) []
  refine ⟨heq, ⟨rounds, hrounds, Removals.round_settle (Removals.listed_nil _)⟩, ?_⟩
  have hcallable : s.graph.callable = f := by
    rw [ControlFlow.eq_of_controlGraph? hgraph]
    rfl
  have hwell := SsaForm.wellFormed_ofGraph v.toProgram (ControlFlow.sound_of_controlGraph? hgraph)
    fun i j n => ControlFlow.point_unique hgraph (i := i) (j := j) (n := n)
  rwa [← heq, hcallable] at hwell

end ValueFlow

theorem Sample.form_is_well_formed_sample :
    (valueFlow.form? 0).outcome = .ok (some form) ∧ form.WellFormed valueFlow.toProgram 0 :=
  ⟨form?_eq, (ValueFlow.form_is_well_formed valueFlow 0 form form?_eq).2.2⟩

/--
In the plain graph of a callable no node of the tree has two points, those that have one lie in the body, and no read is
bound twice.
-/
theorem ControlFlow.node_has_one_point (c : ControlFlow) (f : CallableId) (g : ControlGraph)
    (h : (c.controlGraph? false f).outcome = .ok (some g)) :
    (∀ i j n, g.node? i = some n → g.node? j = some n → i = j) ∧
      (∀ n, g.pointsAt n = (g.pointAt? n).toList) ∧
      (∀ i n, g.node? i = some n → ∃ body, (c.callableD f).body = some body ∧ c.arena.isInside n body = true) ∧
      ((SsaForm.ofGraph c.toProgram g).uses.map (·.1)).Nodup := by
  have hone := fun i j n => point_unique h (i := i) (j := j) (n := n)
  refine ⟨hone, fun n => ControlGraph.pointsAt_eq fun i j => hone i j n, fun i n hi => ?_,
    SsaForm.nodup_uses (sound_of_controlGraph? h) hone⟩
  obtain ⟨body, hbody, hvisit, -⟩ := exists_body h hi
  exact ⟨body, hbody, Arena.isInside_iff.2 ((c.arena.stays_statementControl false body).below n hvisit)⟩

/-- The condition of the loop in the sample is read once, at a point inside of the body. -/
theorem Sample.condition_has_one_point : (program.controlGraph? false 0).outcome = .ok (some graph) ∧
    graph.pointAt? 5 = some 4 ∧ graph.pointsAt 5 = [4] ∧ arena.isInside 5 3 = true := by
  obtain ⟨-, hpoints, hinside, -⟩ := ControlFlow.node_has_one_point program 0 graph controlGraph?_eq
  have hpoint : graph.pointAt? 5 = some 4 := by decide +kernel
  obtain ⟨body, hbody, hin⟩ := hinside 4 5 (by decide +kernel)
  obtain rfl := Option.some.inj hbody
  exact ⟨controlGraph?_eq, hpoint, by rw [hpoints, hpoint]; rfl, hin⟩

end ContractFlow
