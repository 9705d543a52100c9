import ContractFlow.Proofs.Ssa.Exact

/-! This module shows where the definitions of a static single assignment form stand and how they are found. -/

namespace ContractFlow

theorem find?_eq_some_of_unique {α : Type} {l : List α} {P : α → Bool} {x : α} (hx : x ∈ l) (hP : P x = true)
    (hone : ∀ y ∈ l, P y = true → y = x) : l.find? P = some x := by
  cases hfind : l.find? P with
  | none => exact absurd hP (List.find?_eq_none.1 hfind x hx)
  | some y => rw [hone y (List.mem_of_find?_eq_some hfind) (List.find?_some hfind)]

theorem ControlGraph.kind_eq_entry_iff {g : ControlGraph} (hg : g.Sound) {i : Nat} (hi : i < g.size) :
    (g.point i).kind = .entry ↔ i = Draft.entry := by
  obtain ⟨owner, rest, hpoints, hrest⟩ := hg.entry_point
  have hi : i < g.points.toList.length := hi
  unfold point
  rw [Array.getD_eq_getD_getElem?, ← Array.getElem?_toList, List.getElem?_eq_getElem hi]
  simp only [hpoints] at hi ⊢
  match i with
  | 0 => simp [Draft.entry]
  | 1 => simp [Draft.entry]
  | i + 2 =>
    simp only [Draft.entry]
    exact ⟨fun hkind => absurd hkind (hrest _ (List.getElem_mem _)).1, fun h => by omega⟩

theorem SsaSource.writes_of_node? {s : SsaSource} {i : Nat} {n : NodeId} (h : s.graph.node? i = some n) :
    s.writes i = s.program.writesAt n := by
  have hkind : (s.graph.point i).kind = .visit n := by
    unfold ControlGraph.node? at h
    cases hk : (s.graph.point i).kind <;> rw [hk] at h <;> simp_all [PointKind.node?]
  unfold writes
  rw [hkind]

def Write.definition (w : Write) (i : Nat) : Definition :=
  ⟨w.kind, w.variableNode, i, some w.site⟩

namespace RenamingPlan

variable {p : RenamingPlan} {r : Renaming} {env : Nat → Bindings} {start : Nat → Nat} {d i : Nat}
  (hp : p.Fits) (h : p.Found r env start)

include hp h

theorem definition_cases (hd : d < r.definitions.size) :
    (∃ x i, p.source.graph.isLive i = true ∧ i ≠ Draft.entry ∧
      r.definitions.getD d default = ⟨.phi, x, i, none⟩) ∨
    ∃ i, p.source.graph.isLive i = true ∧ ∃ w ∈ p.source.writes i, r.definitions.getD d default = w.definition i := by
  by_cases hphi : d < p.phis.size
  · obtain ⟨x, i, hi, hget⟩ := exists_phi_of_lt hp hphi
    obtain ⟨v, hv⟩ := SsaSource.exists_frontier_of_mem_phiPoints hi
    refine .inl ⟨x, i, hp.isLive_of_mem_frontier hv, fun heq => hp.entry_not_mem_phiPoints (heq ▸ hi), ?_⟩
    rw [Array.getD_eq_getD_getElem?, getElem?_phi h hget]
    rfl
  · obtain ⟨v, hv, j, -, hwritten⟩ := (getElem?_definitions_iff h).1 ⟨hphi, Array.getElem?_eq_getElem hd⟩
    obtain ⟨w, hw, heq⟩ := List.mem_map.1 (List.mem_of_getElem? hwritten)
    refine .inr ⟨_, hp.isLive_vertex hv, w, hw, ?_⟩
    rw [Array.getD_eq_getD_getElem?, Array.getElem?_eq_getElem hd]
    exact heq.symm

end RenamingPlan

namespace SsaForm

variable {p : Program} {g : ControlGraph} {x y u : NodeId} {d i : Nat} {w : Write} (hg : g.Sound)

def writersAt (s : SsaForm) (i : Nat) (x : NodeId) : List Nat :=
  s.indices.filter fun d => !(s.definition d).isPhi &&
    ((s.definition d).point == i && (s.definition d).variableNode == x)

theorem lastWrite?_eq (s : SsaForm) (i : Nat) (x : NodeId) : s.lastWrite? i x = (s.writersAt i x).getLast? := rfl

theorem mem_writersAt_iff {s : SsaForm} : d ∈ s.writersAt i x ↔ d < s.definitions.size ∧
    (s.definition d).isPhi = false ∧ (s.definition d).point = i ∧ (s.definition d).variableNode = x := by
  unfold writersAt indices
  simp

theorem map_indices (s : SsaForm) : s.indices.map s.definition = s.definitions.toList := by
  apply List.ext_getElem
  · simp [indices]
  · intro k hk hk'
    simp only [indices, List.getElem_map, List.getElem_range]
    unfold definition
    rw [Array.getD_eq_getD_getElem?, Array.getElem?_eq_getElem hk']
    rfl

theorem mem_writersAt_of_eq (hd : d < (ofGraph p g).definitions.size) (hw : w ∈ (SsaSource.ofGraph p g).writes i)
    (heq : (ofGraph p g).definition d = w.definition i) : d ∈ (ofGraph p g).writersAt i w.variableNode := by
  have hphi : (w.kind == .phi) = false := beq_false_of_ne (SsaSource.kind_ne_phi_of_mem_writes hw)
  rw [mem_writersAt_iff, heq]
  exact ⟨hd, hphi, rfl, rfl⟩

include hg

theorem definition_cases (hd : d < (ofGraph p g).definitions.size) :
    (∃ x i, g.isLive i = true ∧ i ≠ Draft.entry ∧ (ofGraph p g).definition d = ⟨.phi, x, i, none⟩) ∨
    ∃ i, g.isLive i = true ∧ ∃ w ∈ (SsaSource.ofGraph p g).writes i, (ofGraph p g).definition d = w.definition i := by
  obtain ⟨hp, env, start, h⟩ := exists_found_ofGraph p hg
  have hmem : d ∈ (ofGraph p g).indices := List.mem_range.2 hd
  unfold ofGraph at hmem ⊢
  rw [Renaming.indices_finish] at hmem
  obtain ⟨e, he, rfl⟩ := List.mem_map.1 hmem
  rw [Renaming.definition_finish he]
  exact RenamingPlan.definition_cases hp h (Renaming.mem_kept_iff.1 he).1

theorem map_writersAt (hi : g.isLive i = true) (x : NodeId) :
    ((ofGraph p g).writersAt i x).map (ofGraph p g).definition
      = (((SsaSource.ofGraph p g).writes i).filter (·.variableNode == x)).map (·.definition i) := by
  have hall := definitions_ofGraph (p := p) hg hi
  have hfilter : ((ofGraph p g).writersAt i x).map (ofGraph p g).definition
      = ((ofGraph p g).definitions.toList.filter fun d => !d.isPhi && d.point == i).filter
          (·.variableNode == x) := by
    rw [← map_indices, List.filter_map, List.filter_map, List.filter_filter]
    congr 1
    apply List.filter_congr
    intro d _
    simp only [Function.comp_apply]
    rw [Bool.and_comm (x := ((ofGraph p g).definition d).variableNode == x), Bool.and_assoc]
  rw [hfilter, hall, List.filter_map]
  rfl

theorem lastWrite?_eq_none_iff (hi : g.isLive i = true) :
    (ofGraph p g).lastWrite? i x = none ↔ ∀ w ∈ (SsaSource.ofGraph p g).writes i, w.variableNode ≠ x := by
  rw [lastWrite?_eq, List.getLast?_eq_none_iff, ← List.map_eq_nil_iff (f := (ofGraph p g).definition),
    map_writersAt hg hi]
  simp

theorem exists_writersAt_eq (hi : g.isLive i = true)
    (hw : ((SsaSource.ofGraph p g).writes i).filter (·.variableNode == x) = [w]) :
    ∃ d, (ofGraph p g).writersAt i x = [d] ∧ (ofGraph p g).definition d = w.definition i := by
  have hmap := map_writersAt (p := p) hg hi x
  rw [hw] at hmap
  obtain ⟨d, hd, hdefinition⟩ := List.map_eq_singleton_iff.1 hmap
  exact ⟨d, hd, hdefinition⟩

theorem exists_entryDefinition?_eq
    (hw : ((SsaSource.ofGraph p g).writes Draft.entry).filter (·.variableNode == x) = [w]) :
    ∃ d, (ofGraph p g).entryDefinition? x = some d ∧ (ofGraph p g).writersAt Draft.entry x = [d] ∧
      (ofGraph p g).definition d = w.definition Draft.entry := by
  have hfits := SsaSource.fits_ofGraph p hg
  obtain ⟨d, hd, hdefinition⟩ := exists_writersAt_eq hg ((ControlGraph.exists_run_iff hg).1 ⟨_, .entry⟩) hw
  obtain ⟨hlt, hphi, hpoint, hx⟩ := mem_writersAt_iff.1 (hd ▸ List.mem_singleton_self d)
  have hentry : Draft.entry < g.size := Nat.lt_trans (by decide) hg.exit_lt
  refine ⟨d, find?_eq_some_of_unique (List.mem_range.2 hlt) ?_ fun e he hfound => ?_, hd, hdefinition⟩
  · rw [hpoint, hx, Bool.and_eq_true, beq_iff_eq]
    exact ⟨(ControlGraph.kind_eq_entry_iff hg hentry).2 rfl, BEq.rfl⟩
  · have hlt' := List.mem_range.1 he
    rw [Bool.and_eq_true, beq_iff_eq, beq_iff_eq] at hfound
    rcases definition_cases hg hlt' with ⟨y, i, hi, hne, heq⟩ | ⟨i, hi, w', hw', heq⟩
    · rw [heq] at hfound
      exact absurd ((ControlGraph.kind_eq_entry_iff hg (hfits.lt_size hi)).1 hfound.1) hne
    · rw [heq] at hfound
      obtain rfl := (ControlGraph.kind_eq_entry_iff hg (hfits.lt_size hi)).1 hfound.1
      have hx' : w'.variableNode = x := hfound.2
      have hmem := mem_writersAt_of_eq hlt' hw' heq
      rw [hx', hd] at hmem
      exact List.mem_singleton.1 hmem

theorem exists_write_of_mem_definitionsAt {n : NodeId} (hd : d ∈ (ofGraph p g).definitionsAt n)
    (hx : ((ofGraph p g).definition d).variableNode = x) (hne : n ≠ x) :
    ∃ j, g.node? j = some n ∧ d ∈ (ofGraph p g).writersAt j x ∧ ∃ w ∈ p.writesAt n, w.variableNode = x := by
  obtain ⟨hlt, hfilter⟩ := List.mem_filter.1 hd
  rw [Bool.and_eq_true, beq_iff_eq] at hfilter
  rcases definition_cases hg (List.mem_range.1 hlt) with ⟨y, j, -, -, heq⟩ | ⟨j, -, w, hw, heq⟩
  · rw [heq] at hfilter
    simp at hfilter
  · rw [heq] at hfilter hx
    have hsite : w.site = n := Option.some.inj hfilter.1
    have hx : w.variableNode = x := hx
    rcases SsaSource.mem_writes_cases hw with ⟨-, hw'⟩ | ⟨m, hm, hw'⟩
    · -- the entry writes a variable where it is declared
      exact absurd (hsite.symm.trans ((Program.of_mem_entryWrites hw').1.trans hx)) hne
    · obtain rfl : m = n := (Program.of_mem_writesAt hw').1.symm.trans hsite
      exact ⟨j, hm, hx ▸ mem_writersAt_of_eq (List.mem_range.1 hlt) hw heq, w, hw', hx⟩

theorem exists_definitionAt?_eq {n : NodeId} (hone : ∀ j, g.node? j = some n → j = i) (hi : g.isLive i = true)
    (hn : g.node? i = some n) (hne : n ≠ x) (hw : (p.writesAt n).filter (·.variableNode == x) = [w]) :
    ∃ d, (ofGraph p g).definitionAt? n x = some d ∧ (ofGraph p g).writersAt i x = [d] ∧
      (ofGraph p g).definition d = w.definition i := by
  have hwrites := SsaSource.writes_of_node? (s := .ofGraph p g) hn
  obtain ⟨d, hd, hdefinition⟩ := exists_writersAt_eq (p := p) hg hi (by rw [hwrites]; exact hw)
  obtain ⟨hlt, -⟩ := mem_writersAt_iff.1 (hd ▸ List.mem_singleton_self d)
  obtain ⟨hmem, hx⟩ := List.mem_filter.1 (hw ▸ List.mem_singleton_self w)
  obtain ⟨hsite, hkind⟩ := Program.of_mem_writesAt hmem
  have hat : d ∈ (ofGraph p g).definitionsAt n := by
    refine List.mem_filter.2 ⟨List.mem_range.2 hlt, ?_⟩
    rw [hdefinition]
    rcases hkind with hkind | hkind <;> simp [Write.definition, hsite, hkind]
  refine ⟨d, find?_eq_some_of_unique hat (hdefinition ▸ hx) fun e he hfound => ?_, hd, hdefinition⟩
  obtain ⟨j, hj, hwriter, -⟩ := exists_write_of_mem_definitionsAt hg he (eq_of_beq hfound) hne
  rw [hone j hj, hd] at hwriter
  exact List.mem_singleton.1 hwriter

theorem mem_phis_of_mem_phiInputs {e : Nat} (he : e ∈ (ofGraph p g).phiInputs d) : d ∈ (ofGraph p g).phis := by
  obtain ⟨hp, env, start, h⟩ := exists_found_ofGraph p hg
  exact (RenamingPlan.closed_of_found hp h).mem_phis_of_mem_phiInputs he

theorem mem_tracked_of_mem_writersAt (hd : d ∈ (ofGraph p g).writersAt i x) : x ∈ (SsaSource.ofGraph p g).tracked := by
  obtain ⟨hlt, hphi, rfl, rfl⟩ := mem_writersAt_iff.1 hd
  rcases definition_cases hg hlt with ⟨y, i, -, -, heq⟩ | ⟨i, hi, w, hw, heq⟩
  · rw [heq] at hphi
    simp [Definition.isPhi] at hphi
  · rw [heq]
    have hfits := SsaSource.fits_ofGraph p hg
    exact SsaSource.mem_tracked_of_mem_writers (hfits.mem_writers_iff.2 ⟨hi, w, hw, rfl⟩)

theorem exists_mem_writesAt {n : NodeId} (h : (ofGraph p g).definitionAt? n x = some d) (hne : n ≠ x) :
    ∃ w ∈ p.writesAt n, w.variableNode = x :=
  have hfound := List.find?_some h
  let ⟨_, _, _, hw⟩ := exists_write_of_mem_definitionsAt hg (List.mem_of_find?_eq_some h) (eq_of_beq hfound) hne
  hw

theorem exists_of_mem_usesOf (hone : ∀ i j n, g.node? i = some n → g.node? j = some n → i = j)
    (hu : u ∈ (ofGraph p g).usesOf d) :
    ∃ i x, g.isLive i = true ∧ g.node? i = some u ∧ p.localOf? u = some x ∧
      x ∈ (SsaSource.ofGraph p g).tracked ∧ p.isRead u = true ∧ (ofGraph p g).definitionOf? u = some d := by
  obtain ⟨hp, env, start, h⟩ := exists_found_ofGraph p hg
  obtain ⟨⟨_, _⟩, hfilter, rfl⟩ := List.mem_map.1 hu
  obtain ⟨huse, hd⟩ := List.mem_filter.1 hfilter
  obtain rfl := eq_of_beq hd
  obtain ⟨⟨u', e⟩, hmem, hfinal⟩ := List.mem_filterMap.1 huse
  obtain ⟨k, hk, hpair⟩ := Option.map_eq_some_iff.1 hfinal
  obtain ⟨rfl, rfl⟩ := Prod.mk.inj hpair
  obtain ⟨v, hv, hread⟩ := (h.uses _).1 hmem
  obtain ⟨x, hread, -⟩ := RenamingPlan.mem_usesAt_iff.1 hread
  obtain ⟨hnode, hlocal, htracked, hisRead⟩ := RenamingPlan.mem_readsAt_iff.1 hread
  have hlive := hp.isLive_vertex hv
  have hone' := fun j hj => hone j _ _ hj hnode
  have hout := (RenamingPlan.mem_uses_iff hp h hlive hone' hread).1 hmem
  refine ⟨_, x, hlive, hnode, hlocal, htracked, hisRead, ?_⟩
  have heq := RenamingPlan.definitionOf?_finish hp h hlive hone' hread
  rw [hout] at heq
  exact heq.trans hk

omit hg in
theorem mem_usesOf_of_definitionOf? {s : SsaForm} (h : s.definitionOf? u = some d) : u ∈ s.usesOf d := by
  unfold usesOf
  exact List.mem_map.2 ⟨(u, d), List.mem_filter.2 ⟨mem_of_lookup_eq_some h, BEq.rfl⟩, rfl⟩

end SsaForm

end ContractFlow
