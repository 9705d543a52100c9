import ContractFlow.Control.Build
import Mathlib.Data.List.Basic

/-!
This module shows that each part of a body becomes a region that is entered only at its start and left only over its
ends.
-/

namespace ContractFlow

namespace Draft

variable {d : Draft} {i j : Nat}

def HasEdge (d : Draft) (i j : Nat) : Prop :=
  ∃ e ∈ d.edges, e.source = i ∧ e.target = j

theorem mem_successors_iff : j ∈ d.successors i ↔ d.HasEdge i j := by
  unfold successors edgesFrom HasEdge
  simp [and_assoc]

theorem mem_predecessors_iff : i ∈ d.predecessors j ↔ d.HasEdge i j := by
  unfold predecessors edgesTo HasEdge
  simp [and_assoc, and_comm]

@[simp]
theorem size_addPoint (d : Draft) (p : Point) : (d.addPoint p).size = d.size + 1 := by
  unfold addPoint size
  simp

@[simp]
theorem hasEdge_addPoint (p : Point) : (d.addPoint p).HasEdge i j ↔ d.HasEdge i j := Iff.rfl

@[simp]
theorem points_addEdge (d : Draft) (e : Edge) : (d.addEdge e).points = d.points := by
  unfold addEdge
  split
  · rfl
  · rfl

@[simp]
theorem hasEdge_addEdge (e : Edge) : (d.addEdge e).HasEdge i j ↔ d.HasEdge i j ∨ i = e.source ∧ j = e.target := by
  unfold addEdge HasEdge
  split
  · next h =>
    obtain ⟨f, hf, hfe⟩ := Array.any_eq_true'.1 h
    rw [Bool.and_eq_true, beq_iff_eq, beq_iff_eq] at hfe
    constructor
    · exact .inl
    · rintro (h | ⟨rfl, rfl⟩)
      · exact h
      · exact ⟨f, hf, hfe.1, hfe.2⟩
  · simp only [Array.mem_push]
    constructor
    · rintro ⟨f, hf | rfl, rfl, rfl⟩
      · exact .inl ⟨f, hf, rfl, rfl⟩
      · exact .inr ⟨rfl, rfl⟩
    · rintro (⟨f, hf, rfl, rfl⟩ | ⟨rfl, rfl⟩)
      · exact ⟨f, .inl hf, rfl, rfl⟩
      · exact ⟨e, .inr rfl, rfl, rfl⟩

/--
An edge is appended to the list at its source and to the one at its target, unless the first has one to that target. So
the two lists are kept as if each of them was stored.
-/
theorem edges_addEdge (d : Draft) (e : Edge) (i : Nat) :
    ((d.addEdge e).edgesFrom i, (d.addEdge e).edgesTo i) =
      if (d.edgesFrom e.source).any (·.target == e.target) then (d.edgesFrom i, d.edgesTo i)
      else (d.edgesFrom i ++ if e.source = i then [e] else [], d.edgesTo i ++ if e.target = i then [e] else []) := by
  have hknown : (d.edges.any fun f => f.source == e.source && f.target == e.target) =
      (d.edgesFrom e.source).any (·.target == e.target) := by
    rw [edgesFrom, List.any_filter, Array.any_toList]
  unfold addEdge
  rw [hknown]
  split
  · rfl
  · simp [edgesFrom, edgesTo, List.filter_cons]

theorem getElem?_of_node? {n : NodeId} (h : (d.points.getD i default).kind.node? = some n) :
    ∃ p : Point, d.points.toList[i]? = some p ∧ p.kind.node? = some n := by
  rw [Array.getD_eq_getD_getElem?, ← Array.getElem?_toList] at h
  cases hp : d.points.toList[i]? with
  | none =>
    rw [hp] at h
    simp [default, instInhabitedPoint.default, instInhabitedPointKind.default, PointKind.node?] at h
  | some p =>
    rw [hp] at h
    exact ⟨p, rfl, h⟩

theorem lt_size_of_node? {n : NodeId} (h : (d.points.getD i default).kind.node? = some n) : i < d.size :=
  let ⟨_, hp, _⟩ := getElem?_of_node? h
  (List.getElem?_eq_some_iff.1 hp).1

end Draft

def Pending.sources (ps : Pending) : List Nat :=
  ps.map (·.1)

namespace Pending

@[simp]
theorem sources_nil : sources [] = [] := rfl

@[simp]
theorem sources_cons (p : Nat × EdgeKind) (ps : Pending) : sources (p :: ps) = p.1 :: sources ps := rfl

@[simp]
theorem sources_append (ps qs : Pending) : sources (ps ++ qs) = sources ps ++ sources qs := by
  unfold sources
  rw [List.map_append]

@[simp]
theorem sources_relabel (kind : EdgeKind) (ps : Pending) : (relabel kind ps).sources = ps.sources := by
  unfold sources relabel
  simp

end Pending

namespace Draft

variable {d : Draft} {i j : Nat}

@[simp]
theorem points_connect (d : Draft) (ps : Pending) (target : Nat) : (d.connect ps target).points = d.points := by
  unfold connect
  induction ps generalizing d with
  | nil => rfl
  | cons p ps ih => rw [List.foldl_cons, ih, points_addEdge]

@[simp]
theorem size_connect (d : Draft) (ps : Pending) (target : Nat) : (d.connect ps target).size = d.size := by
  unfold size
  rw [points_connect]

@[simp]
theorem hasEdge_connect (ps : Pending) (target : Nat) :
    (d.connect ps target).HasEdge i j ↔ d.HasEdge i j ∨ i ∈ ps.sources ∧ j = target := by
  unfold connect
  induction ps generalizing d with
  | nil => simp
  | cons p ps ih =>
    rw [List.foldl_cons, ih, hasEdge_addEdge, Pending.sources_cons, List.mem_cons]
    tauto

@[simp]
theorem extend_fst (d : Draft) (p : Point) (ps : Pending) :
    (d.extend p ps).1 = [(d.size, .normal)] := rfl

@[simp]
theorem size_extend (d : Draft) (p : Point) (ps : Pending) : (d.extend p ps).2.size = d.size + 1 := by
  unfold extend
  simp

theorem points_extend (d : Draft) (p : Point) (ps : Pending) : (d.extend p ps).2.points = d.points.push p := by
  unfold extend
  rw [points_connect]
  rfl

@[simp]
theorem hasEdge_extend (p : Point) (ps : Pending) :
    (d.extend p ps).2.HasEdge i j ↔ d.HasEdge i j ∨ i ∈ ps.sources ∧ j = d.size := by
  unfold extend
  simp

def IsSimple (d : Draft) : Prop :=
  d.edges.toList.Pairwise fun e f => ¬(e.source = f.source ∧ e.target = f.target)

namespace IsSimple

theorem start (owner : CallableId) : (start owner).IsSimple :=
  .nil

theorem nodup (h : d.IsSimple) (i : Nat) : (d.successors i).Nodup ∧ (d.predecessors i).Nodup := by
  constructor
  · refine List.pairwise_map.2 ((h.filter _).imp_of_mem fun {e f} he hf hne heq => hne ⟨?_, heq⟩)
    exact (beq_iff_eq.1 (List.mem_filter.1 he).2).trans (beq_iff_eq.1 (List.mem_filter.1 hf).2).symm
  · refine List.pairwise_map.2 ((h.filter _).imp_of_mem fun {e f} he hf hne heq => hne ⟨heq, ?_⟩)
    exact (beq_iff_eq.1 (List.mem_filter.1 he).2).trans (beq_iff_eq.1 (List.mem_filter.1 hf).2).symm

theorem addEdge (h : d.IsSimple) (e : Edge) : (d.addEdge e).IsSimple := by
  unfold Draft.addEdge IsSimple
  split
  · exact h
  · next hnew =>
    rw [Array.toList_push, List.pairwise_append]
    refine ⟨h, List.pairwise_singleton _ _, fun f hf e' he' hsame => hnew ?_⟩
    rw [List.mem_singleton.1 he'] at hsame
    exact Array.any_eq_true'.2 ⟨f, Array.mem_toList_iff.1 hf, by simp [hsame]⟩

theorem connect (h : d.IsSimple) (ps : Pending) (target : Nat) : (d.connect ps target).IsSimple := by
  unfold Draft.connect
  induction ps generalizing d with
  | nil => exact h
  | cons p ps ih => exact ih (h.addEdge _)

theorem extend (h : d.IsSimple) (p : Point) (ps : Pending) : (d.extend p ps).2.IsSimple :=
  connect (d := d.addPoint p) h ps _

theorem merge (h : d.IsSimple) (owner : CallableId) (ps : Pending) : (d.merge owner ps).2.IsSimple := by
  unfold Draft.merge
  split
  · exact h
  · exact h
  · exact h.extend _ _

end IsSimple

structure Sound (d : Draft) : Prop where
  entry_point : ∃ owner rest, d.points.toList = ⟨.entry, owner⟩ :: ⟨.exit, owner⟩ :: rest ∧
    ∀ p ∈ rest, p.kind ≠ .entry ∧ p.kind ≠ .exit
  edge : ∀ i j, d.HasEdge i j → i < d.size ∧ i ≠ exit ∧ j < d.size ∧ j ≠ entry

def IsClosed (d : Draft) : Prop :=
  ∀ i j, d.HasEdge i j → i < d.size ∧ j < d.size

theorem Sound.isClosed (h : d.Sound) : d.IsClosed :=
  fun i j hedge => ⟨(h.edge i j hedge).1, (h.edge i j hedge).2.2.1⟩

theorem Sound.exit_lt (h : d.Sound) : exit < d.size := by
  obtain ⟨owner, rest, hpoints, -⟩ := h.entry_point
  unfold size
  rw [← Array.length_toList, hpoints]
  simp [exit]

theorem sound_start (owner : CallableId) : (start owner).Sound where
  entry_point := ⟨owner, [], rfl, by simp⟩
  edge i j h := by
    obtain ⟨e, he, -⟩ := h
    simp [start] at he

structure Placed (d : Draft) (ps : List Nat) : Prop extends d.Sound where
  source : ∀ i ∈ ps, i < d.size ∧ i ≠ exit

theorem placed_start (owner : CallableId) : (start owner).Placed (Pending.sources [(entry, .normal)]) :=
  ⟨sound_start owner, by simp [entry, exit, start, size]⟩

def Inside (ps : List Nat) (d d' : Draft) (i : Nat) : Prop :=
  i ∈ ps ∨ d.size ≤ i ∧ i < d'.size

/-- What is made behind `ps` is entered from there only; apart from that only edges to the exit are new. -/
structure Region (ps : List Nat) (d d' : Draft) (stops : List Nat) : Prop where
  points : ∃ made, d'.points.toList = d.points.toList ++ made ∧
    ∀ p ∈ made, p.kind ≠ .entry ∧ p.kind ≠ .exit
  old : ∀ i j, j < d.size → j ≠ exit → (d'.HasEdge i j ↔ d.HasEdge i j)
  toExit : ∀ i, d'.HasEdge i exit ↔ d.HasEdge i exit ∨ i ∈ stops
  new : ∀ i j, d.size ≤ j → d'.HasEdge i j → Inside ps d d' i ∧ j < d'.size
  stop : ∀ i ∈ stops, Inside ps d d' i

namespace Region

variable {d d₁ d₂ : Draft} {ps qs s s₁ s₂ : List Nat}

theorem le (h : Region ps d d₁ s) : d.size ≤ d₁.size := by
  obtain ⟨made, hmade, -⟩ := h.points
  unfold size
  rw [← Array.length_toList, ← Array.length_toList, hmade, List.length_append]
  omega

theorem refl (hd : d.Sound) : Region ps d d [] where
  points := ⟨[], by simp, by simp⟩
  old i j _ _ := Iff.rfl
  toExit i := by simp
  new i j hj h := by
    have := hd.edge i j h
    omega
  stop i hi := by simp at hi

theorem extend (hd : d.Sound) {p : Point} {ps : Pending} (hp : p.kind ≠ .entry ∧ p.kind ≠ .exit) :
    Region ps.sources d (d.extend p ps).2 [] where
  points := by
    refine ⟨[p], ?_, by simpa using hp⟩
    rw [points_extend, Array.toList_push]
  old i j hj _ := by
    rw [hasEdge_extend]
    constructor
    · rintro (h | ⟨-, rfl⟩)
      · exact h
      · omega
    · exact .inl
  toExit i := by
    have := hd.exit_lt
    rw [hasEdge_extend]
    constructor
    · rintro (h | ⟨-, h⟩)
      · exact .inl h
      · omega
    · rintro (h | h)
      · exact .inl h
      · simp at h
  new i j hj h := by
    rw [hasEdge_extend] at h
    rw [size_extend]
    rcases h with h | ⟨hi, rfl⟩
    · have := hd.edge i j h
      omega
    · exact ⟨.inl hi, by omega⟩
  stop i hi := by simp at hi

theorem inside_mono (h : d₁.size ≤ d₂.size) {i : Nat} (hi : Inside ps d d₁ i) : Inside ps d d₂ i := by
  rcases hi with hi | hi
  · exact .inl hi
  · exact .inr (by omega)

theorem inside_trans (h₁ : d.size ≤ d₁.size) (h₂ : d₁.size ≤ d₂.size)
    (hqs : ∀ i ∈ qs, Inside ps d d₁ i) {i : Nat} (hi : Inside qs d₁ d₂ i) : Inside ps d d₂ i := by
  rcases hi with hi | hi
  · exact inside_mono h₂ (hqs i hi)
  · exact .inr (by omega)

theorem trans (h₁ : Region ps d d₁ s₁) (h₂ : Region qs d₁ d₂ s₂) (hd : exit < d.size)
    (hqs : ∀ i ∈ qs, Inside ps d d₁ i) : Region ps d d₂ (s₁ ++ s₂) where
  points := by
    obtain ⟨made₁, heq₁, hmade₁⟩ := h₁.points
    obtain ⟨made₂, heq₂, hmade₂⟩ := h₂.points
    refine ⟨made₁ ++ made₂, ?_, fun p hp => ?_⟩
    · rw [heq₂, heq₁, List.append_assoc]
    · exact (List.mem_append.1 hp).elim (hmade₁ p) (hmade₂ p)
  old i j hj hne := by
    have := h₁.le
    rw [h₂.old i j (by omega) hne, h₁.old i j hj hne]
  toExit i := by
    rw [h₂.toExit, h₁.toExit, List.mem_append, or_assoc]
  new i j hj h := by
    have hle₁ := h₁.le
    have hle₂ := h₂.le
    by_cases hj₁ : j < d₁.size
    · have hnew := h₁.new i j hj ((h₂.old i j hj₁ (by omega)).1 h)
      exact ⟨inside_mono hle₂ hnew.1, by omega⟩
    · have hnew := h₂.new i j (by omega) h
      exact ⟨inside_trans hle₁ hle₂ hqs hnew.1, hnew.2⟩
  stop i hi := by
    rcases List.mem_append.1 hi with hi | hi
    · exact inside_mono h₂.le (h₁.stop i hi)
    · exact inside_trans h₁.le h₂.le hqs (h₂.stop i hi)

theorem connect {back : Pending} {target : Nat} (h : Region ps d d₁ s) (hd : exit < d.size)
    (hback : ∀ i ∈ back.sources, Inside ps d d₁ i) (hle : d.size ≤ target) (hlt : target < d₁.size) :
    Region ps d (d₁.connect back target) s where
  points := by
    rw [points_connect]
    exact h.points
  old i j hj hne := by
    rw [hasEdge_connect, h.old i j hj hne]
    constructor
    · rintro (he | ⟨-, rfl⟩)
      · exact he
      · omega
    · exact .inl
  toExit i := by
    rw [hasEdge_connect, h.toExit]
    constructor
    · rintro (he | ⟨-, he⟩)
      · exact he
      · omega
    · exact .inl
  new i j hj he := by
    unfold Inside
    rw [size_connect]
    rw [hasEdge_connect] at he
    rcases he with he | ⟨hi, rfl⟩
    · exact h.new i j hj he
    · exact ⟨hback i hi, hlt⟩
  stop i hi := by
    unfold Inside
    rw [size_connect]
    exact h.stop i hi

theorem stopAll (hd : d.Sound) {ps : Pending} : Region ps.sources d (d.connect ps exit) ps.sources where
  points := ⟨[], by simp, by simp⟩
  old i j hj hne := by
    rw [hasEdge_connect]
    exact ⟨fun he => he.resolve_right fun h => hne h.2, .inl⟩
  toExit i := by
    simp
  new i j hj he := by
    have := hd.exit_lt
    rw [hasEdge_connect] at he
    rcases he with he | ⟨hi, rfl⟩
    · have := hd.edge i j he
      omega
    · omega
  stop i hi := .inl hi

theorem placed (h : Region ps d d₁ s) (hp : d.Placed ps) (hqs : ∀ i ∈ qs, Inside ps d d₁ i) : d₁.Placed qs := by
  have hle := h.le
  have hexit := hp.exit_lt
  have hinside : ∀ i, Inside ps d d₁ i → i < d₁.size ∧ i ≠ exit := by
    intro i hi
    rcases hi with hi | hi
    · have := hp.source i hi
      omega
    · omega
  refine ⟨⟨?_, fun i j he => ?_⟩, fun i hi => hinside i (hqs i hi)⟩
  · obtain ⟨owner, rest, hpoints, hrest⟩ := hp.entry_point
    obtain ⟨made, heq, hmade⟩ := h.points
    refine ⟨owner, rest ++ made, ?_, fun p hp => ?_⟩
    · rw [heq, hpoints]
      rfl
    · exact (List.mem_append.1 hp).elim (hrest p) (hmade p)
  · by_cases hj : d.size ≤ j
    · have hnew := h.new i j hj he
      have := hinside i hnew.1
      have : entry < exit := by decide
      omega
    · by_cases hexit' : j = exit
      · subst hexit'
        rcases (h.toExit i).1 he with he | hi
        · have := hp.edge i exit he
          omega
        · have := hinside i (h.stop i hi)
          have : exit ≠ entry := by decide
          omega
      · have := hp.edge i j ((h.old i j (by omega) hexit').1 he)
        omega

end Region

end Draft

def Exits.sources (x : Exits) : List Nat :=
  x.fall.sources ++ x.breaks.sources ++ x.continues.sources ++ x.returns.sources

theorem Exits.mem_sources_iff {x : Exits} {i : Nat} :
    i ∈ x.sources ↔ i ∈ x.fall.sources ∨ i ∈ x.breaks.sources ∨ i ∈ x.continues.sources ∨
      i ∈ x.returns.sources := by
  unfold sources
  simp only [List.mem_append, or_assoc]

namespace Control

theorem sources_outcomes_fst (condition : Control) (ps : Pending) : (outcomes condition ps).1.sources = ps.sources := by
  unfold outcomes
  split
  · rfl
  · exact Pending.sources_relabel _ _

theorem mem_sources_outcomes_snd (condition : Control) (ps : Pending) {i : Nat} :
    i ∈ (outcomes condition ps).2.sources ↔ condition ≠ skip ∧ i ∈ ps.sources := by
  unfold outcomes
  split
  · simp
  · next h => simpa using fun _ => h

structure Built (ps : Pending) (d : Draft) (x : Exits) (d' : Draft) (stops : List Nat) : Prop
    extends Draft.Region ps.sources d d' stops where
  port : ∀ i ∈ x.sources, Draft.Inside ps.sources d d' i

namespace Built

variable {ps qs : Pending} {d d₁ d₂ d₃ : Draft} {x y z c : Exits} {s s₁ s₂ s₃ : List Nat}
variable {condition : Control} {owner : CallableId}

theorem placed (h : Built ps d x d₁ s) (hp : d.Placed ps.sources)
    (hqs : ∀ i ∈ qs.sources, i ∈ ps.sources ∨ i ∈ x.sources) : d₁.Placed qs.sources :=
  h.toRegion.placed hp fun i hi => (hqs i hi).elim .inl (h.port i)

theorem placed_fall (h : Built ps d x d₁ s) (hp : d.Placed ps.sources) : d₁.Placed x.fall.sources :=
  h.placed hp fun _ hi => .inr (Exits.mem_sources_iff.2 (.inl hi))

theorem placed_true (h : Built ps d x d₁ s) (hp : d.Placed ps.sources) (condition : Control) :
    d₁.Placed (outcomes condition x.fall).1.sources := by
  rw [sources_outcomes_fst]
  exact h.placed_fall hp

theorem placed_false (h : Built (outcomes condition ps).1 d x d₁ s)
    (hp : d.Placed (outcomes condition ps).1.sources) : d₁.Placed (outcomes condition ps).2.sources := by
  apply h.placed hp
  intro i hi
  rw [sources_outcomes_fst]
  exact .inl ((mem_sources_outcomes_snd _ _).1 hi).2

theorem placed_latch (h : Built ps d x d₁ s) (hp : d.Placed ps.sources) :
    d₁.Placed (x.fall ++ x.continues).sources := by
  apply h.placed hp
  intro i hi
  rw [Pending.sources_append, List.mem_append] at hi
  exact .inr (Exits.mem_sources_iff.2 (by tauto))

theorem placed_start (h : Built ps d x d₁ s) (hp : d.Placed ps.sources) : d₁.Placed ps.sources :=
  h.placed hp fun _ hi => .inl hi

theorem of_sources (h : Built ps d x d₁ s) (hqs : ps.sources = qs.sources) : Built qs d x d₁ s where
  toRegion := hqs ▸ h.toRegion
  port := hqs ▸ h.port

theorem of_subset (h : Built ps d x d₁ s) (hz : ∀ i ∈ z.sources, i ∈ ps.sources ∨ i ∈ x.sources) :
    Built ps d z d₁ s where
  toRegion := h.toRegion
  port i hi := (hz i hi).elim .inl (h.port i)

theorem append (h₁ : Built ps d x d₁ s₁) (h₂ : Built qs d₁ y d₂ s₂) (hp : d.Placed ps.sources)
    (hqs : ∀ i ∈ qs.sources, i ∈ ps.sources ∨ i ∈ x.sources)
    (hz : ∀ i ∈ z.sources, i ∈ x.sources ∨ i ∈ y.sources) : Built ps d z d₂ (s₁ ++ s₂) where
  toRegion := h₁.trans h₂.toRegion hp.exit_lt fun i hi => (hqs i hi).elim .inl (h₁.port i)
  port i hi := by
    rcases hz i hi with hi | hi
    · exact Draft.Region.inside_mono h₂.le (h₁.port i hi)
    · exact Draft.Region.inside_trans h₁.le h₂.le
        (fun i hi => (hqs i hi).elim .inl (h₁.port i)) (h₂.port i hi)

theorem refl (hd : d.Sound) (hz : ∀ i ∈ z.sources, i ∈ ps.sources) : Built ps d z d [] where
  toRegion := .refl hd
  port i hi := .inl (hz i hi)

theorem extend (ps : Pending) (hd : d.Sound) {p : Point} (hk : p.kind ≠ .entry ∧ p.kind ≠ .exit) :
    Built ps d ⟨(d.extend p ps).1, [], [], []⟩ (d.extend p ps).2 [] where
  toRegion := .extend hd hk
  port i hi := by
    have hi : i = d.size := by simpa [Exits.sources] using hi
    exact .inr (by rw [Draft.size_extend]; omega)

theorem placed_header (hp : d.Placed ps.sources) (owner : CallableId) :
    (d.extend ⟨.join, owner⟩ ps).2.Placed (d.extend ⟨.join, owner⟩ ps).1.sources :=
  (extend ps hp.toSound (by simp)).placed_fall hp

theorem merge (hd : d.Sound) (owner : CallableId) :
    Built ps d ⟨(d.merge owner ps).1, [], [], []⟩ (d.merge owner ps).2 [] := by
  unfold Draft.merge
  split
  · exact refl hd (by simp [Exits.sources])
  · exact refl hd (by simp [Exits.sources])
  · exact extend _ hd (by simp)

theorem stopAll (hd : d.Sound) : Built ps d ⟨[], [], [], []⟩ (d.connect ps Draft.exit) ps.sources where
  toRegion := .stopAll hd
  port i hi := by simp [Exits.sources] at hi

theorem seq (h₁ : Built ps d x d₁ s₁) (h₂ : Built x.fall d₁ y d₂ s₂) (hp : d.Placed ps.sources) :
    Built ps d (x.andThen y) d₂ (s₁ ++ s₂) := by
  apply h₁.append h₂ hp
  · intro i hi
    exact .inr (Exits.mem_sources_iff.2 (.inl hi))
  · simp only [Exits.mem_sources_iff, Exits.andThen, Pending.sources_append, List.mem_append]
    tauto

theorem mem_sources_or {i : Nat} : i ∈ (x.or y).sources ↔ i ∈ x.sources ∨ i ∈ y.sources := by
  simp only [Exits.mem_sources_iff, Exits.or, Exits.andThen, Pending.sources_append, List.mem_append]
  tauto

theorem either (h₁ : Built ps d x d₁ s₁) (h₂ : Built qs d₁ y d₂ s₂) (hp : d.Placed ps.sources)
    (hqs : ∀ i ∈ qs.sources, i ∈ ps.sources ∨ i ∈ x.sources) : Built ps d (x.or y) d₂ (s₁ ++ s₂) :=
  h₁.append h₂ hp hqs fun _ hi => mem_sources_or.1 hi

theorem join (h : Built ps d x d₁ s) (hp : d.Placed ps.sources) (owner : CallableId) :
    Built ps d { x with fall := (d₁.merge owner x.fall).1 } (d₁.merge owner x.fall).2 (s ++ []) := by
  apply h.append (merge (h.placed_fall hp).toSound owner) hp
  · intro i hi
    exact .inr (Exits.mem_sources_iff.2 (.inl hi))
  · simp only [Exits.mem_sources_iff]
    tauto

theorem branch (h₁ : Built ps d c d₁ s₁) (h₂ : Built (outcomes condition c.fall).1 d₁ x d₂ s₂)
    (h₃ : Built (outcomes condition c.fall).2 d₂ y d₃ s₃) (hp : d.Placed ps.sources) :
    Built ps d (c.early.andThen (x.or y)) d₃ (s₁ ++ (s₂ ++ s₃)) := by
  have hyes := h₂.of_sources (sources_outcomes_fst condition c.fall)
  exact h₁.seq (hyes.either h₃ (h₁.placed_fall hp) fun _ hi => .inl ((mem_sources_outcomes_snd _ _).1 hi).2) hp

theorem loopBack {back : Pending} {target : Nat} (h : Built ps d x d₁ s) (hp : d.Placed ps.sources)
    (hback : ∀ i ∈ back.sources, i ∈ x.sources) (hle : d.size ≤ target) (hlt : target < d₁.size) :
    Built ps d x (d₁.connect back target) s where
  toRegion := h.toRegion.connect hp.exit_lt (fun i hi => h.port i (hback i hi)) hle hlt
  port i hi := by
    unfold Draft.Inside
    rw [Draft.size_connect]
    exact h.port i hi

theorem doRound (h₁ : Built ps d x d₁ s₁) (h₂ : Built (x.fall ++ x.continues) d₁ c d₂ s₂)
    (hp : d.Placed ps.sources) : Built ps d (x.or c) d₂ (s₁ ++ s₂) := by
  refine h₁.either h₂ hp fun i hi => .inr (Exits.mem_sources_iff.2 ?_)
  rw [Pending.sources_append, List.mem_append] at hi
  tauto

theorem round (h₁ : Built ps d c d₁ s₁) (h₂ : Built (outcomes condition c.fall).1 d₁ x d₂ s₂)
    (h₃ : Built (x.fall ++ x.continues) d₂ y d₃ s₃) (hp : d.Placed ps.sources) :
    Built ps d (c.or (x.or y)) d₃ (s₁ ++ (s₂ ++ s₃)) := by
  refine h₁.either (h₂.doRound h₃ (h₁.placed_true hp condition)) hp fun i hi => ?_
  rw [sources_outcomes_fst] at hi
  exact .inr (Exits.mem_sources_iff.2 (.inl hi))

theorem withHeader {header back : Pending} (hp : d.Placed ps.sources)
    (hheader : header = (d.extend ⟨.join, owner⟩ ps).1)
    (h : Built header (d.extend ⟨.join, owner⟩ ps).2 x d₁ s) (hback : ∀ i ∈ back.sources, i ∈ x.sources) :
    Built ps d x (d₁.connect back d.size) s := by
  have h₀ := extend ps hp.toSound (p := ⟨.join, owner⟩) (by simp)
  have hx : Built ps d x d₁ ([] ++ s) := by
    apply h₀.append h hp
    · intro i hi
      rw [hheader] at hi
      exact .inr (Exits.mem_sources_iff.2 (.inl hi))
    · exact fun i hi => .inr hi
  have hle := h.le
  rw [Draft.size_extend] at hle
  exact hx.loopBack hp hback (Nat.le_refl _) (by omega)

theorem of_loop (h : Built ps d (c.or (x.or y)) d₁ s) :
    Built ps d
      { y with fall := (outcomes condition c.fall).2 ++ x.breaks, returns := x.returns ++ y.returns }
      d₁ s := by
  apply h.of_subset
  intro i hi
  right
  rw [mem_sources_or, mem_sources_or]
  simp only [Exits.mem_sources_iff, Pending.sources_append, List.mem_append] at hi ⊢
  have := mem_sources_outcomes_snd condition c.fall (i := i)
  tauto

theorem loop (h₁ : Built (d.extend ⟨.join, owner⟩ ps).1 (d.extend ⟨.join, owner⟩ ps).2 c d₁ s₁)
    (h₂ : Built (outcomes condition c.fall).1 d₁ x d₂ s₂) (h₃ : Built (x.fall ++ x.continues) d₂ y d₃ s₃)
    (hp : d.Placed ps.sources) :
    Built ps d
      { y with fall := (outcomes condition c.fall).2 ++ x.breaks, returns := x.returns ++ y.returns }
      (d₃.connect (Pending.relabel .back y.fall) d.size) (s₁ ++ (s₂ ++ s₃)) := by
  refine of_loop (withHeader hp rfl (h₁.round h₂ h₃ (placed_header hp owner)) fun i hi => ?_)
  rw [Pending.sources_relabel] at hi
  exact mem_sources_or.2 (.inr (mem_sources_or.2 (.inr (Exits.mem_sources_iff.2 (.inl hi)))))

theorem of_doLoop (h : Built ps d (x.or c) d₁ s) :
    Built ps d ⟨(outcomes condition c.fall).2 ++ x.breaks, [], [], x.returns⟩ d₁ s := by
  apply h.of_subset
  intro i hi
  right
  rw [mem_sources_or]
  simp only [Exits.mem_sources_iff, Pending.sources_append, List.mem_append] at hi ⊢
  have := mem_sources_outcomes_snd condition c.fall (i := i)
  tauto

theorem doLoop (h₁ : Built (d.extend ⟨.join, owner⟩ ps).1 (d.extend ⟨.join, owner⟩ ps).2 x d₁ s₁)
    (h₂ : Built (x.fall ++ x.continues) d₁ c d₂ s₂) (hp : d.Placed ps.sources) :
    Built ps d ⟨(outcomes condition c.fall).2 ++ x.breaks, [], [], x.returns⟩
      (d₂.connect (Pending.relabel .back (outcomes condition c.fall).1) d.size) (s₁ ++ s₂) := by
  refine of_doLoop (withHeader hp rfl (h₁.doRound h₂ (placed_header hp owner)) fun i hi => ?_)
  rw [Pending.sources_relabel, sources_outcomes_fst] at hi
  exact mem_sources_or.2 (.inr (Exits.mem_sources_iff.2 (.inl hi)))

end Built

def Hole.IsPart (inner : Hole) : Prop :=
  ∀ ps d, d.Placed (Pending.sources ps) →
    ∃ stops, Built ps d ⟨(inner ps d).1, [], [], []⟩ (inner ps d).2 stops

def noBody : Hole := fun ps d => (ps, d)

variable (owner : CallableId) {inner : Hole}

theorem built_if_nonempty {next : Control} {latch : Pending} {d : Draft}
    (h : ∃ s, Built latch d (next.build owner inner latch d).1 (next.build owner inner latch d).2 s)
    (hp : d.Placed latch.sources) :
    ∃ s, Built latch d
      (if latch.isEmpty then (⟨[], [], [], []⟩, d) else next.build owner inner latch d).1
      (if latch.isEmpty then (⟨[], [], [], []⟩, d) else next.build owner inner latch d).2 s := by
  split
  · exact ⟨[], .refl hp.toSound (by simp [Exits.sources])⟩
  · exact h

theorem built_build (hinner : inner.IsPart) (c : Control) {ps : Pending} {d : Draft}
    (hp : d.Placed ps.sources) :
    ∃ stops, Built ps d (c.build owner inner ps d).1 (c.build owner inner ps d).2 stops := by
  induction c generalizing ps d with
  | skip | stuck => exact ⟨_, .refl hp.toSound (by simp [build, Exits.sources])⟩
  | visit n => exact ⟨_, .extend ps hp.toSound (by simp)⟩
  | seq first second ih₁ ih₂ =>
    obtain ⟨s₁, h₁⟩ := ih₁ hp
    obtain ⟨s₂, h₂⟩ := ih₂ (h₁.placed_fall hp)
    exact ⟨_, h₁.seq h₂ hp⟩
  | either first second ih₁ ih₂ =>
    obtain ⟨s₁, h₁⟩ := ih₁ hp
    obtain ⟨s₂, h₂⟩ := ih₂ (h₁.placed_start hp)
    exact ⟨_, h₁.either h₂ hp fun _ hi => .inl hi⟩
  | label kind part ih =>
    have hsources := Pending.sources_relabel kind ps
    obtain ⟨s, h⟩ := ih (hsources ▸ hp)
    exact ⟨s, h.of_sources hsources⟩
  | join part ih =>
    obtain ⟨s, h⟩ := ih hp
    exact ⟨_, h.join hp owner⟩
  | branch condition yes no ih₁ ih₂ ih₃ =>
    obtain ⟨s₁, h₁⟩ := ih₁ hp
    have hp₁ := h₁.placed_true hp condition
    obtain ⟨s₂, h₂⟩ := ih₂ hp₁
    obtain ⟨s₃, h₃⟩ := ih₃ (h₂.placed_false hp₁)
    exact ⟨_, h₁.branch h₂ h₃ hp⟩
  | loop condition body next ih₁ ih₂ ih₃ =>
    have hp₀ := Built.placed_header hp owner
    obtain ⟨s₁, h₁⟩ := ih₁ hp₀
    have hp₁ := h₁.placed_true hp₀ condition
    obtain ⟨s₂, h₂⟩ := ih₂ hp₁
    have hp₂ := h₂.placed_latch hp₁
    obtain ⟨s₃, h₃⟩ := built_if_nonempty owner (ih₃ hp₂) hp₂
    exact ⟨_, h₁.loop h₂ h₃ hp⟩
  | doLoop body condition ih₁ ih₂ =>
    have hp₀ := Built.placed_header hp owner
    obtain ⟨s₁, h₁⟩ := ih₁ hp₀
    have hp₁ := h₁.placed_latch hp₀
    obtain ⟨s₂, h₂⟩ := built_if_nonempty owner (ih₂ hp₁) hp₁
    exact ⟨_, h₁.doLoop h₂ hp⟩
  | leave way => cases way <;> exact ⟨_, .refl hp.toSound (by simp [build, Exits.sources])⟩
  | stop => exact ⟨_, .stopAll hp.toSound⟩
  | hole => exact hinner ps d hp

theorem isSimple_build (hinner : ∀ ps d, d.IsSimple → (inner ps d).2.IsSimple) (c : Control) (ps : Pending) {d : Draft}
    (h : d.IsSimple) : (c.build owner inner ps d).2.IsSimple := by
  induction c generalizing ps d with
  | visit n => exact h.extend _ _
  | seq first second ih₁ ih₂ | either first second ih₁ ih₂ => exact ih₂ _ (ih₁ _ h)
  | label kind part ih => exact ih _ h
  | join part ih => exact (ih _ h).merge _ _
  | branch condition yes no ih₁ ih₂ ih₃ => exact ih₃ _ (ih₂ _ (ih₁ _ h))
  | loop condition body next ih₁ ih₂ ih₃ =>
    simp only [build]
    apply Draft.IsSimple.connect
    split
    · exact ih₂ _ (ih₁ _ (h.extend _ _))
    · exact ih₃ _ (ih₂ _ (ih₁ _ (h.extend _ _)))
  | doLoop body condition ih₁ ih₂ =>
    simp only [build]
    apply Draft.IsSimple.connect
    split
    · exact ih₁ _ (h.extend _ _)
    · exact ih₂ _ (ih₁ _ (h.extend _ _))
  | leave way => cases way <;> exact h
  | stop => exact h.connect _ _
  | hole => exact hinner ps d h
  | _ => exact h

end Control

namespace Layer

theorem isPart_run {inner : Control.Hole} (l : Layer) (h : inner.IsPart) : (l.run inner).IsPart := by
  intro ps d hp
  obtain ⟨stops, hb⟩ := Control.built_build l.owner h l.body hp
  refine ⟨stops, hb.of_subset fun i hi => .inr ?_⟩
  simp only [Exits.mem_sources_iff, run, Pending.sources_append, List.mem_append] at hi ⊢
  tauto

theorem isPart_runAll (layers : List Layer) : (runAll layers).IsPart := by
  induction layers with
  | nil => exact fun ps d hp => ⟨[], .refl hp.toSound (by simp [Exits.sources, runAll])⟩
  | cons l layers ih => exact l.isPart_run ih

theorem isSimple_runAll (layers : List Layer) (ps : Pending) {d : Draft} (h : d.IsSimple) :
    (runAll layers ps d).2.IsSimple := by
  induction layers generalizing ps d with
  | nil => exact h
  | cons l layers ih => exact Control.isSimple_build l.owner (fun ps _ => ih ps) l.body ps h

end Layer

namespace ControlGraph

variable (callable : CallableId) (modifiers : List Layer) (body : Control)

theorem sound_ofLayers : (ofLayers callable modifiers body).toDraft.Sound := by
  have hstart := Draft.placed_start callable
  obtain ⟨stops, hb⟩ := Layer.isPart_runAll (modifiers ++ [⟨callable, body⟩]) _ _ hstart
  have hplaced := hb.placed_fall hstart
  exact ((Draft.Region.stopAll hplaced.toSound).placed hplaced fun i hi => .inl hi).toSound

theorem isSimple_ofLayers : (ofLayers callable modifiers body).IsSimple :=
  .connect (Layer.isSimple_runAll _ _ (.start callable)) _ _

end ControlGraph

end ContractFlow
