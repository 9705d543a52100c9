import ContractFlow.Proofs.Ssa.Carry
import ContractFlow.Proofs.Ssa.Finish

/-!
This module shows what the finished form binds: at every point just those writes that can have been the last
ones before it.
-/

namespace ContractFlow

variable {p : Program} {w : Write}

namespace ControlGraph

variable {g : ControlGraph} {i : Nat}

theorem kind_eq_exit_iff (hg : g.Sound) : (g.point i).kind = .exit ↔ i = Draft.exit := by
  obtain ⟨owner, rest, hpoints, hrest⟩ := hg.entry_point
  unfold point
  rw [Array.getD_eq_getD_getElem?, ← Array.getElem?_toList, hpoints]
  match i with
  | 0 => simp [Draft.exit]
  | 1 => simp [Draft.exit]
  | i + 2 =>
    simp only [List.getElem?_cons_succ, Draft.exit]
    constructor
    · intro hkind
      cases hp : rest[i]? with
      | none =>
        rw [hp] at hkind
        simp [default, instInhabitedPoint.default, instInhabitedPointKind.default] at hkind
      | some p =>
        rw [hp] at hkind
        exact absurd hkind (hrest p (List.mem_of_getElem? hp)).2
    · omega

end ControlGraph

theorem Program.of_mem_writesAt {n : NodeId} (h : w ∈ p.writesAt n) :
    w.site = n ∧ (w.kind = .declaration ∨ w.kind = .assignment) := by
  unfold writesAt at h
  dsimp only at h
  split at h
  · obtain ⟨x, -, rfl⟩ := List.mem_map.1 h
    simp
  · split at h
    · simp at h
    · obtain ⟨x, -, rfl⟩ := List.mem_map.1 h
      simp
  · split at h
    · simp at h
    · obtain ⟨x, -, rfl⟩ := List.mem_map.1 h
      simp
  · split at h
    · obtain ⟨x, -, rfl⟩ := List.mem_map.1 h
      simp
    · simp at h
  · simp at h

theorem Program.of_mem_entryWrites {f : CallableId} (h : w ∈ p.entryWrites f) :
    w.site = w.variableNode ∧ (w.kind = .parameter ∨ w.kind = .declaration) := by
  rcases List.mem_append.1 h with h | h
  · obtain ⟨x, -, rfl⟩ := List.mem_map.1 h
    simp
  · obtain ⟨x, -, rfl⟩ := List.mem_map.1 h
    simp

theorem Program.writesAt_eq_nil_of_localOf? {n x : NodeId} (h : p.localOf? n = some x) : p.writesAt n = [] := by
  have hkind : p.arena.kind n = .identifier := by
    unfold localOf? variableOf? at h
    split at h
    · next hk => simpa using hk
    · simp at h
  unfold writesAt
  dsimp only
  rw [hkind]

theorem SsaSource.mem_writes_cases {s : SsaSource} {i : Nat} (h : w ∈ s.writes i) :
    (s.graph.point i).kind = .entry ∧ w ∈ s.program.entryWrites s.graph.callable ∨
      ∃ n, s.graph.node? i = some n ∧ w ∈ s.program.writesAt n := by
  unfold writes at h
  split at h
  · next hkind => exact .inl ⟨hkind, h⟩
  · next n hkind =>
    refine .inr ⟨n, ?_, h⟩
    unfold ControlGraph.node?
    rw [hkind]
    rfl
  · simp at h
  · simp at h

theorem SsaSource.kind_ne_phi_of_mem_writes {s : SsaSource} {i : Nat} (h : w ∈ s.writes i) : w.kind ≠ .phi := by
  rcases mem_writes_cases h with ⟨-, h⟩ | ⟨n, -, h⟩
  · rcases (Program.of_mem_entryWrites h).2 with hkind | hkind <;> simp [hkind]
  · rcases (Program.of_mem_writesAt h).2 with hkind | hkind <;> simp [hkind]

/-- What is bound at a point stands for the writes of a variable that can have been the last ones before it;
if nothing is bound, there are none. -/
def SsaForm.Reaching (s : SsaForm) (x : NodeId) (i : Nat) : Option Nat → Prop
  | none => ∀ path, s.graph.Run path i → ∀ j ∈ path, s.lastWrite? j x = none
  | some d => d < s.definitions.size ∧ (s.definition d).variableNode = x ∧ ∀ e, s.Sources d e ↔
      ∃ path, s.graph.Run path i ∧ LastOn (s.lastWrite? · x) path e

def Renaming.final (r : Renaming) (count d : Nat) : Option Nat :=
  ((r.removals count).resolve d).map (r.renumber count)

theorem Renaming.lookup_filterMap_final {l : List (NodeId × Nat)} {x : NodeId} {o : Option Nat} (f : Nat → Option Nat)
    (h : ∀ d, (x, d) ∈ l ↔ o = some d) : (l.filterMap fun e => (f e.2).map (e.1, ·)).lookup x = o.bind f := by
  have hmem (k : Nat) : (x, k) ∈ l.filterMap (fun e => (f e.2).map (e.1, ·)) ↔ o.bind f = some k := by
    rw [List.mem_filterMap, Option.bind_eq_some_iff]
    constructor
    · rintro ⟨⟨n, d⟩, hd, hfinal⟩
      obtain ⟨k', hk', hpair⟩ := Option.map_eq_some_iff.1 hfinal
      obtain ⟨rfl, rfl⟩ := Prod.mk.inj hpair
      exact ⟨d, (h d).1 hd, hk'⟩
    · rintro ⟨d, hd, hk⟩
      exact ⟨(x, d), (h d).2 hd, by simp [hk]⟩
  apply Option.ext
  intro k
  rw [lookup_eq_some_iff, hmem]
  intro k hk k' hk'
  rw [hmem] at hk hk'
  exact Option.some.inj (hk.symm.trans hk')

namespace RenamingPlan

variable {p : RenamingPlan} {r : Renaming} {env : Nat → Bindings} {start : Nat → Nat}
  {x : NodeId} {i d : Nat}

theorem point_of_mem_written {e : Definition} (h : e ∈ p.written i) : e.point = i ∧ e.isPhi = false := by
  obtain ⟨w, hw, rfl⟩ := List.mem_map.1 h
  have := SsaSource.kind_ne_phi_of_mem_writes hw
  exact ⟨rfl, by simpa [Definition.isPhi] using this⟩

theorem exists_phi_of_lt (hp : p.Fits) (hd : d < p.phis.size) :
    ∃ y, ∃ j ∈ p.source.phiPoints y, p.phis[d]? = some ⟨.phi, y, j, none⟩ := by
  have hget := Array.getElem?_eq_getElem hd
  rw [getElem?_phis hp] at hget
  obtain ⟨y, -, j, hj, heq⟩ := SsaSource.mem_phis_iff.1 (List.mem_of_getElem? hget)
  exact ⟨y, j, hj, by rw [Array.getElem?_eq_getElem hd, heq]⟩

section Found

variable (hp : p.Fits) (h : p.Found r env start)

include h

theorem getElem?_definitions_iff {e : Definition} :
    ¬d < p.phis.size ∧ r.definitions[d]? = some e ↔ ∃ v < p.source.dominators.size, ∃ j,
      d = start v + j ∧ (p.written (p.source.dominators.vertex v))[j]? = some e := by
  constructor
  · rintro ⟨hphi, he⟩
    have hlt := (Array.getElem?_eq_some_iff.1 he).1
    obtain ⟨v, hv, j, hj, rfl⟩ := h.exhaustive d (by omega) hlt
    exact ⟨v, hv, j, rfl, (h.definition v hv j hj) ▸ he⟩
  · rintro ⟨v, hv, j, rfl, he⟩
    have := h.le_start v hv
    refine ⟨by omega, ?_⟩
    rw [h.definition v hv j (List.getElem?_eq_some_iff.1 he).1]
    exact he

theorem getElem?_phi {phi : Definition} (hd : p.phis[d]? = some phi) : r.definitions[d]? = some phi := by
  rw [h.phi d (Array.getElem?_eq_some_iff.1 hd).1]
  exact hd

include hp

theorem last_binding_eq :
    (p.binding env start x).last i = ((List.range r.definitions.size).filter fun d =>
      !decide (d < p.phis.size) && ((r.definitions.getD d default).point == i &&
        (r.definitions.getD d default).variableNode == x)).getLast? := by
  have hfilter : ∀ d, d < r.definitions.size ∧ (!decide (d < p.phis.size) &&
      ((r.definitions.getD d default).point == i &&
        (r.definitions.getD d default).variableNode == x)) = true ↔
      ∃ v < p.source.dominators.size, p.source.dominators.vertex v = i ∧ ∃ j e, d = start v + j ∧
        (p.written i)[j]? = some e ∧ e.variableNode = x := by
    intro d
    simp only [Bool.and_eq_true, Bool.not_eq_true', decide_eq_false_iff_not, beq_iff_eq,
      Array.getD_eq_getD_getElem?]
    constructor
    · rintro ⟨hlt, hphi, hpoint, hx⟩
      rw [Array.getElem?_eq_getElem hlt, Option.getD_some] at hpoint hx
      obtain ⟨v, hv, j, rfl, he⟩ :=
        (getElem?_definitions_iff h).1 ⟨hphi, Array.getElem?_eq_getElem hlt⟩
      have hvertex := (point_of_mem_written (List.mem_of_getElem? he)).1
      rw [hpoint] at hvertex
      exact ⟨v, hv, hvertex.symm, j, _, rfl, hvertex ▸ he, hx⟩
    · rintro ⟨v, hv, rfl, j, e, rfl, he, hx⟩
      obtain ⟨hphi, hget⟩ := (getElem?_definitions_iff h).2 ⟨v, hv, j, rfl, he⟩
      rw [hget]
      exact ⟨(Array.getElem?_eq_some_iff.1 hget).1, hphi,
        (point_of_mem_written (List.mem_of_getElem? he)).1, hx⟩
  apply Option.ext
  intro e
  rw [getLast?_filter_range_eq_some_iff, ← and_assoc, hfilter]
  unfold binding
  rw [Option.bind_eq_some_iff]
  constructor
  · rintro ⟨v, hnumber, hlookup⟩
    obtain ⟨hv, rfl⟩ := hp.tree.number?_eq_some_iff.1 hnumber
    obtain ⟨j, d, rfl, hd, hx, hmax⟩ := lookup_zipIdx_eq_some_iff.1 hlookup
    refine ⟨⟨v, hv, rfl, j, d, rfl, hd, hx⟩, fun d' hlt hP => ?_⟩
    obtain ⟨v', hv', hvertex, j', e', rfl, he', hx'⟩ := (hfilter d').1 ⟨hlt, hP⟩
    obtain rfl := hp.tree.vertex_inj hv' hv hvertex
    have := hmax j' e' he' hx'
    omega
  · rintro ⟨⟨v, hv, rfl, j, d, rfl, hd, hx⟩, hmax⟩
    refine ⟨v, hp.tree.number?_vertex hv, lookup_zipIdx_eq_some_iff.2
      ⟨j, d, rfl, hd, hx, fun j' d' hd' hx' => ?_⟩⟩
    obtain ⟨hlt, hP⟩ := (hfilter (start v + j')).2 ⟨v, hv, rfl, j', d', rfl, hd', hx'⟩
    have := hmax _ hlt hP
    omega

theorem definition_of_last (hlast : (p.binding env start x).last i = some d) :
    d < r.definitions.size ∧ (r.definitions.getD d default).variableNode = x := by
  rw [last_binding_eq hp h, getLast?_filter_range_eq_some_iff] at hlast
  obtain ⟨hlt, hP, -⟩ := hlast
  rw [Bool.and_eq_true, Bool.and_eq_true, beq_iff_eq, beq_iff_eq] at hP
  exact ⟨hlt, hP.2.2⟩

theorem definition_of_phi (hphi : (p.binding env start x).phi i = some d) :
    d < r.definitions.size ∧ (r.definitions.getD d default).variableNode = x := by
  have hd := getElem?_phi h ((lookup_phisAt_eq_some_iff hp).1 hphi)
  refine ⟨(Array.getElem?_eq_some_iff.1 hd).1, ?_⟩
  rw [Array.getD_eq_getD_getElem?, hd]
  rfl

theorem definition_of_outward (hi : p.source.graph.isLive i = true)
    (hd : (p.binding env start x).outward i = some d) :
    d < r.definitions.size ∧ (r.definitions.getD d default).variableNode = x := by
  obtain ⟨path, hrun⟩ := (ControlGraph.exists_run_iff hp.sound).2 hi
  rcases (balanced_binding hp h x).written_or_phi hp.sound hrun hd with
    ⟨_, _, _, _, hlast, _⟩ | ⟨_, _, _, _, hphi, _⟩
  · exact definition_of_last hp h hlast
  · exact definition_of_phi hp h hphi

theorem definition_of_input {e : Nat} (hd : d < p.phis.size) (he : (d, e) ∈ r.inputs) :
    e < r.definitions.size ∧ (r.definitions.getD e default).variableNode
      = (r.definitions.getD d default).variableNode := by
  obtain ⟨y, j, -, hphi⟩ := exists_phi_of_lt hp hd
  obtain ⟨v, hv, -, hout⟩ := (mem_inputs_iff hp h hphi).1 he
  rw [← outward_vertex hp hv] at hout
  obtain ⟨hlt, hy⟩ := definition_of_outward hp h (hp.isLive_vertex hv) hout
  refine ⟨hlt, hy.trans ?_⟩
  rw [Array.getD_eq_getD_getElem?, getElem?_phi h hphi]
  rfl

theorem closed_of_found : r.Closed p.phis.size where
  count_le := by
    by_contra hlt
    have hget := h.phi r.definitions.size (by omega)
    rw [Array.getElem?_eq_none (Nat.le_refl _), Array.getElem?_eq_getElem (by omega)] at hget
    simp at hget
  input d e he := by
    have hd : d < p.phis.size := by
      by_contra hd
      exact (balanced_binding hp h 0).not_merges d e hd he
    exact ⟨hd, (definition_of_input hp h hd he).1⟩
  isPhi d hd := by
    rw [Array.getD_eq_getD_getElem?]
    constructor
    · intro hphi
      by_contra hlt
      obtain ⟨v, -, j, -, he⟩ := (getElem?_definitions_iff h).1 ⟨hlt, Array.getElem?_eq_getElem hd⟩
      rw [Array.getElem?_eq_getElem hd, Option.getD_some,
        (point_of_mem_written (List.mem_of_getElem? he)).2] at hphi
      simp at hphi
    · intro hlt
      obtain ⟨y, j, -, hphi⟩ := exists_phi_of_lt hp hlt
      rw [getElem?_phi h hphi]
      rfl

theorem variableNode_of_merges {e : Nat}
    (hmerges : Relation.ReflTransGen (fun d e => (d, e) ∈ r.inputs) d e) :
    (r.definitions.getD e default).variableNode = (r.definitions.getD d default).variableNode := by
  induction hmerges with
  | refl => rfl
  | tail _ hstep ih =>
    have hlt := ((closed_of_found hp h).input _ _ hstep).1
    exact (definition_of_input hp h hlt hstep).2.trans ih

theorem lastWrite?_finish_eq :
    (r.finish p.source.graph p.phis.size).lastWrite? i x
      = ((p.binding env start x).last i).map (r.renumber p.phis.size) := by
  rw [(closed_of_found hp h).lastWrite?_finish, last_binding_eq hp h]

theorem reaching_finish (x : NodeId) (hi : p.source.graph.isLive i = true) :
    (r.finish p.source.graph p.phis.size).Reaching x i
      (((p.binding env start x).outward i).bind (r.final p.phis.size)) := by
  have hbalanced := balanced_binding hp h x
  have hclosed := closed_of_found hp h
  have hlast : ∀ path e, LastOn ((r.finish p.source.graph p.phis.size).lastWrite? · x) path e ↔
      ∃ d, e = r.renumber p.phis.size d ∧ LastOn (p.binding env start x).last path d := by
    intro path e
    simp only [lastWrite?_finish_eq hp h, lastOn_map_iff]
  -- no write can be the last one on a run if nothing that is no phi is merged
  have hnone : (∀ e, ¬∃ path, p.source.graph.Run path i ∧ LastOn (p.binding env start x).last path e) →
      (r.finish p.source.graph p.phis.size).Reaching x i none := by
    intro hno path hrun j hj
    rw [lastWrite?_finish_eq hp h]
    cases hd : (p.binding env start x).last j with
    | none => rfl
    | some d =>
      obtain ⟨e, he⟩ := exists_lastOn_of_mem hj hd
      exact absurd ⟨path, hrun, he⟩ (hno e)
  cases hout : (p.binding env start x).outward i with
  | none =>
    apply hnone
    rintro e ⟨path, hrun, he⟩
    obtain ⟨d, hd, -⟩ := hbalanced.merges_of_lastOn hp.sound hrun he
    rw [hout] at hd
    simp at hd
  | some d =>
    obtain ⟨hdlt, hdx⟩ := definition_of_outward hp h hi hout
    rw [Option.bind_some]
    unfold Renaming.final
    cases hk : (r.removals p.phis.size).resolve d with
    | none =>
      apply hnone
      intro e he
      obtain ⟨hmerges, hphi⟩ := (hbalanced.exact hp.sound hi hout e).2 he
      exact hphi (Renaming.lt_count_of_resolve_eq_none hk hmerges)
    | some k =>
      have hkept := hclosed.mem_kept_of_resolve hdlt hk
      refine ⟨Renaming.renumber_lt hkept, ?_, fun e => ?_⟩
      · rw [Renaming.definition_finish hkept]
        exact (variableNode_of_merges hp h
          ((r.faithful_removals p.phis.size).merged d k hk)).trans hdx
      · rw [hclosed.sources_finish_iff hdlt hk]
        constructor
        · rintro ⟨e', rfl, -, hmerges⟩
          obtain ⟨path, hrun, he'⟩ := (hbalanced.exact hp.sound hi hout e').1 hmerges
          exact ⟨path, hrun, (hlast path _).2 ⟨e', rfl, he'⟩⟩
        · rintro ⟨path, hrun, he⟩
          obtain ⟨e', rfl, he'⟩ := (hlast path e).1 he
          refine ⟨e', rfl, ?_, (hbalanced.exact hp.sound hi hout e').2 ⟨path, hrun, he'⟩⟩
          obtain ⟨_, _, _, _, hlast', _⟩ := he'
          exact (definition_of_last hp h hlast').1

theorem filter_definitions_eq (hi : p.source.graph.isLive i = true) :
    (r.finish p.source.graph p.phis.size).definitions.toList.filter
      (fun d => !d.isPhi && d.point == i) = p.written i := by
  obtain ⟨v, hv, rfl⟩ := hp.exists_vertex_iff.2 hi
  have hrange : (List.range r.definitions.size).filter (fun d => !decide (d < p.phis.size) &&
      (r.definitions.getD d default).point == p.source.dominators.vertex v)
        = List.range' (start v) (p.written (p.source.dominators.vertex v)).length := by
    apply filter_range_eq
    · intro hpos
      have hget := h.definition v hv ((p.written (p.source.dominators.vertex v)).length - 1) (by omega)
      rw [List.getElem?_eq_getElem (by omega)] at hget
      have := (Array.getElem?_eq_some_iff.1 hget).1
      omega
    · intro d hlt
      rw [Bool.and_eq_true, Bool.not_eq_true', decide_eq_false_iff_not, beq_iff_eq,
        Array.getD_eq_getD_getElem?, Array.getElem?_eq_getElem hlt]
      constructor
      · rintro ⟨hphi, hpoint⟩
        obtain ⟨u, hu, j, rfl, he⟩ :=
          (getElem?_definitions_iff h).1 ⟨hphi, Array.getElem?_eq_getElem hlt⟩
        have hvertex := (point_of_mem_written (List.mem_of_getElem? he)).1
        obtain rfl := hp.tree.vertex_inj hv hu (hpoint.symm.trans hvertex)
        have := (List.getElem?_eq_some_iff.1 he).1
        omega
      · rintro ⟨hle, hlt'⟩
        obtain ⟨j, rfl⟩ := Nat.exists_eq_add_of_le hle
        have hj : j < (p.written (p.source.dominators.vertex v)).length := by omega
        obtain ⟨hphi, hget⟩ := (getElem?_definitions_iff h).2
          ⟨v, hv, j, rfl, List.getElem?_eq_getElem hj⟩
        rw [Array.getElem?_eq_getElem hlt] at hget
        refine ⟨hphi, ?_⟩
        rw [Option.some.inj hget]
        exact (point_of_mem_written (List.getElem_mem _)).1
  rw [(closed_of_found hp h).filter_definitions_finish, hrange]
  apply List.ext_getElem
  · simp
  · intro j hj hj'
    rw [List.getElem_map, List.getElem_range', Nat.one_mul, Array.getD_eq_getD_getElem?,
      h.definition v hv j hj', List.getElem?_eq_getElem hj']
    rfl

section Read

variable {u : NodeId}

omit hp h in
theorem mem_readsAt_iff {y : NodeId} :
    (u, y) ∈ p.readsAt i ↔ p.source.graph.node? i = some u ∧
      p.source.program.localOf? u = some y ∧ y ∈ p.tracked ∧ p.source.program.isRead u = true := by
  unfold readsAt
  cases p.source.graph.node? i with
  | none => simp
  | some n =>
    dsimp only
    cases hx : p.source.program.localOf? n with
    | none =>
      simp only [List.not_mem_nil, Option.some.injEq, false_iff, not_and]
      rintro rfl
      simp [hx]
    | some x =>
      dsimp only
      rw [List.mem_ite_nil_right]
      grind

omit hp h in
theorem mem_usesAt_iff {env : Bindings} :
    (u, d) ∈ p.usesAt i env ↔ ∃ y, (u, y) ∈ p.readsAt i ∧ (p.within i env).lookup y = some d := by
  unfold usesAt
  rw [List.mem_filterMap]
  constructor
  · rintro ⟨⟨n, y⟩, hmem, hlookup⟩
    obtain ⟨e, he, hpair⟩ := Option.map_eq_some_iff.1 hlookup
    obtain ⟨rfl, rfl⟩ := Prod.mk.inj hpair
    exact ⟨y, hmem, he⟩
  · rintro ⟨y, hmem, he⟩
    exact ⟨(u, y), hmem, by simp [he]⟩

omit hp h in
theorem mem_undefinedAt_iff {env : Bindings} :
    u ∈ p.undefinedAt i env ↔ ∃ y, (u, y) ∈ p.readsAt i ∧ (p.within i env).lookup y = none := by
  unfold undefinedAt
  simp

omit h in
theorem outward_of_read {v : Nat} (hv : v < p.source.dominators.size)
    (hread : (u, x) ∈ p.readsAt (p.source.dominators.vertex v)) :
    (p.binding env start x).outward (p.source.dominators.vertex v)
      = (p.within (p.source.dominators.vertex v) (env v)).lookup x := by
  obtain ⟨hnode, hlocal, -⟩ := mem_readsAt_iff.1 hread
  have hwrites : p.source.writes (p.source.dominators.vertex v) = [] := by
    unfold SsaSource.writes
    unfold ControlGraph.node? at hnode
    cases hkind : (p.source.graph.point (p.source.dominators.vertex v)).kind with
    | entry => simp [hkind, PointKind.node?] at hnode
    | exit => rfl
    | join => rfl
    | visit n =>
      rw [hkind, PointKind.node?] at hnode
      obtain rfl := Option.some.inj hnode
      exact Program.writesAt_eq_nil_of_localOf? hlocal
  rw [outward_vertex hp hv]
  unfold outwardAt after
  rw [List.lookup_append, lookup_bound_eq_none (by simp [hwrites]), Option.none_or]

variable (hi : p.source.graph.isLive i = true)
  (hone : ∀ j, p.source.graph.node? j = some u → j = i)
  (hread : (u, x) ∈ p.readsAt i)

include hi hone hread

omit h in
theorem exists_read_iff (P : Option Nat → Prop) :
    (∃ v < p.source.dominators.size, ∃ y, (u, y) ∈ p.readsAt (p.source.dominators.vertex v) ∧
      P ((p.within (p.source.dominators.vertex v) (env v)).lookup y)) ↔ P ((p.binding env start x).outward i) := by
  obtain ⟨v, hv, rfl⟩ := hp.exists_vertex_iff.2 hi
  rw [outward_of_read hp hv hread]
  constructor
  · rintro ⟨w, hw, y, hy, hlookup⟩
    obtain ⟨hnode, hlocal, -⟩ := mem_readsAt_iff.1 hy
    obtain rfl := hp.tree.vertex_inj hw hv (hone _ hnode)
    rw [(mem_readsAt_iff.1 hread).2.1] at hlocal
    obtain rfl := Option.some.inj hlocal
    exact hlookup
  · intro hlookup
    exact ⟨v, hv, x, hread, hlookup⟩

theorem mem_uses_iff : (u, d) ∈ r.uses ↔ (p.binding env start x).outward i = some d := by
  simp only [h.uses, mem_usesAt_iff]
  exact exists_read_iff hp hi hone hread (· = some d)

theorem mem_undefined_iff : u ∈ r.undefined ↔ (p.binding env start x).outward i = none := by
  simp only [h.undefined, mem_undefinedAt_iff]
  exact exists_read_iff hp hi hone hread (· = none)

theorem definitionOf?_finish :
    (r.finish p.source.graph p.phis.size).definitionOf? u
      = ((p.binding env start x).outward i).bind (r.final p.phis.size) :=
  Renaming.lookup_filterMap_final (r.final p.phis.size) fun _ => mem_uses_iff hp h hi hone hread

theorem mem_undefined_finish_iff :
    u ∈ (r.finish p.source.graph p.phis.size).undefined ↔
      ((p.binding env start x).outward i).bind (r.final p.phis.size) = none := by
  have hundefined : (r.finish p.source.graph p.phis.size).undefined
      = r.undefined ++ (r.uses.filter fun use =>
          ((r.removals p.phis.size).resolve use.2).isNone).map (·.1) := rfl
  rw [hundefined, List.mem_append, mem_undefined_iff hp h hi hone hread]
  have huse := fun d => mem_uses_iff (d := d) hp h hi hone hread
  cases hout : (p.binding env start x).outward i with
  | none => simp
  | some d =>
    simp only [hout] at huse
    simp [Renaming.final, huse]

end Read

theorem exitDefinition?_finish (hexit : p.source.graph.isLive Draft.exit = true)
    (hx : x ∈ p.tracked) :
    (r.finish p.source.graph p.phis.size).exitDefinition? x
      = ((p.binding env start x).outward Draft.exit).bind (r.final p.phis.size) := by
  obtain ⟨v, hv, hvertex⟩ := hp.exists_vertex_iff.2 hexit
  have hone : ∀ w < p.source.dominators.size,
      (p.source.graph.point (p.source.dominators.vertex w)).kind = .exit ↔ w = v := by
    intro w hw
    rw [ControlGraph.kind_eq_exit_iff hp.sound, ← hvertex]
    exact ⟨hp.tree.vertex_inj hw hv, fun heq => heq ▸ rfl⟩
  refine Renaming.lookup_filterMap_final (l := r.atExit) (r.final p.phis.size) fun d => ?_
  rw [h.atExit v hv hone, ← hvertex, outward_vertex hp hv]
  unfold exiting outwardAt
  constructor
  · intro hd
    obtain ⟨z, -, hz⟩ := List.mem_filterMap.1 hd
    obtain ⟨d', hd', hpair⟩ := Option.map_eq_some_iff.1 hz
    obtain ⟨rfl, rfl⟩ := Prod.mk.inj hpair
    exact hd'
  · intro hd
    exact List.mem_filterMap.2 ⟨x, hx, by simp [hd]⟩

end Found

end RenamingPlan

end ContractFlow
