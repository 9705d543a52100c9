import ContractFlow.Proofs.Graph.DominatorTree
import ContractFlow.Ssa.Build

/-! This module shows what renaming finds on the walk down the dominator tree. -/

namespace ContractFlow.RenamingPlan

variable (p : RenamingPlan)

def written (i : Nat) : List Definition :=
  (p.source.writes i).map fun w => ⟨w.kind, w.variableNode, i, some w.site⟩

def bound (i k : Nat) : Bindings :=
  (((p.written i).zipIdx k).map fun d => (d.1.variableNode, d.2)).reverse

def within (i : Nat) (env : Bindings) : Bindings :=
  p.phisAt i ++ env

def after (i : Nat) (env : Bindings) (k : Nat) : Bindings :=
  p.bound i k ++ p.within i env

def readsAt (i : Nat) : List (NodeId × NodeId) :=
  match p.source.graph.node? i with
  | none => []
  | some n =>
    match p.source.program.localOf? n with
    | none => []
    | some x => if p.tracked.contains x && p.source.program.isRead n then [(n, x)] else []

def usesAt (i : Nat) (env : Bindings) : List (NodeId × Nat) :=
  (p.readsAt i).filterMap fun u => ((p.within i env).lookup u.2).map (u.1, ·)

def undefinedAt (i : Nat) (env : Bindings) : List NodeId :=
  ((p.readsAt i).filter fun u => ((p.within i env).lookup u.2).isNone).map (·.1)

def passed (i : Nat) (env : Bindings) (k : Nat) : List (Nat × Nat) :=
  (p.source.graph.next i).flatMap fun j =>
    (p.phisAt j).filterMap fun phi => ((p.after i env k).lookup phi.1).map (phi.2, ·)

def exiting (i : Nat) (env : Bindings) (k : Nat) : List (NodeId × Nat) :=
  p.tracked.filterMap fun x => ((p.after i env k).lookup x).map (x, ·)

theorem writeAt_eq (i : Nat) (env : Bindings) (r : Renaming) :
    p.writeAt i env r =
      ({ r with definitions := r.definitions ++ (p.written i).toArray },
        p.bound i r.definitions.size ++ env) := by
  unfold writeAt bound written
  generalize p.source.writes i = ws
  induction ws generalizing env r with
  | nil => simp
  | cons w ws ih =>
    rw [List.foldl_cons, ih]
    simp [Renaming.define]

theorem readAt_eq (i : Nat) (env : Bindings) (r : Renaming) :
    p.readAt i (p.within i env) r =
      { r with uses := r.uses ++ p.usesAt i env, undefined := r.undefined ++ p.undefinedAt i env } := by
  unfold readAt usesAt undefinedAt readsAt
  cases p.source.graph.node? i with
  | none => simp
  | some n =>
    dsimp only
    cases p.source.program.localOf? n with
    | none => simp
    | some x =>
      dsimp only
      split
      · unfold Renaming.read
        cases h : (p.within i env).lookup x with
        | none => simp [h]
        | some d => simp [h]
      · simp

theorem renameAt_eq (i : Nat) (env : Bindings) (r : Renaming) :
    p.renameAt i env r =
      ({ definitions := r.definitions ++ (p.written i).toArray
         uses := r.uses ++ p.usesAt i env
         undefined := r.undefined ++ p.undefinedAt i env
         inputs := r.inputs ++ p.passed i env r.definitions.size
         atExit := if (p.source.graph.point i).kind == .exit then p.exiting i env r.definitions.size
           else r.atExit }, p.after i env r.definitions.size) := by
  have hrename : ∀ w, w = p.writeAt i (p.within i env) (p.readAt i (p.within i env) r) →
      p.renameAt i env r = (p.passOn i w.2 (p.exitAt i w.2 w.1), w.2) := by
    rintro w rfl
    rfl
  rw [hrename _ rfl, readAt_eq, writeAt_eq]
  unfold passOn exitAt
  split
  · rfl
  · rfl

structure Visit where
  number : Nat
  env : Bindings
  start : Nat
deriving Inhabited

def place (v : Visit) : Nat :=
  p.source.dominators.vertex v.number

def perform (r : Renaming) (v : Visit) : Renaming :=
  (p.renameAt (p.place v) v.env r).1

def Consecutive (k : Nat) : List Visit → Prop
  | [] => True
  | v :: rest => v.start = k ∧ Consecutive (k + (p.written (p.place v)).length) rest

variable {p}

theorem Consecutive.append {k : Nat} {vs ws : List Visit} (hv : p.Consecutive k vs)
    (hw : p.Consecutive (k + (vs.flatMap fun v => p.written (p.place v)).length) ws) :
    p.Consecutive k (vs ++ ws) := by
  induction vs generalizing k with
  | nil => simpa using hw
  | cons v vs ih =>
    refine ⟨hv.1, ih hv.2 ?_⟩
    rw [List.flatMap_cons, List.length_append, ← Nat.add_assoc] at hw
    exact hw

theorem size_perform (r : Renaming) (v : Visit) :
    (p.perform r v).definitions.size = r.definitions.size + (p.written (p.place v)).length := by
  unfold perform
  rw [renameAt_eq]
  simp

theorem rename_eq (q : Nat) (env : Bindings) (r : Renaming) :
    p.rename q env r = (p.source.dominators.children q).foldl
      (fun r' c => p.rename c (p.after (p.place ⟨q, env, r.definitions.size⟩) env r.definitions.size) r')
      (p.perform r ⟨q, env, r.definitions.size⟩) := by
  rw [rename]
  unfold perform place
  rw [renameAt_eq]
  exact List.foldl_attach
    (f := fun r' c => p.rename c (p.after (p.source.dominators.vertex q) env r.definitions.size) r')

theorem size_foldl_perform (r : Renaming) (vs : List Visit) :
    (vs.foldl p.perform r).definitions.size
      = r.definitions.size + (vs.flatMap fun v => p.written (p.place v)).length := by
  induction vs generalizing r with
  | nil => simp
  | cons v vs ih =>
    rw [List.foldl_cons, ih, size_perform, List.flatMap_cons, List.length_append, Nat.add_assoc]

structure Forest (p : RenamingPlan) (roots : List Nat) (env : Bindings) (k : Nat) (vs : List Visit) :
    Prop where
  consecutive : p.Consecutive k vs
  parent : ∀ v ∈ vs, v.number ∈ roots ∧ v.env = env ∨
    ∃ u ∈ vs, u.number < v.number ∧ p.source.dominators.parent v.number = u.number ∧
      v.env = p.after (p.place u) u.env u.start
  below : ∀ v ∈ vs, v.number < p.source.dominators.size ∧
    ∃ c ∈ roots, p.source.dominators.table.Above c v.number
  all : ∀ n < p.source.dominators.size, ∀ c ∈ roots, p.source.dominators.table.Above c n →
    ∃ v ∈ vs, v.number = n
  nodup : (vs.map (·.number)).Nodup

namespace Forest

variable {roots roots₁ roots₂ : List Nat} {env : Bindings} {k q : Nat} {vs vs₁ vs₂ : List Visit}

theorem nil : p.Forest [] env k [] where
  consecutive := trivial
  parent v hv := by simp at hv
  below v hv := by simp at hv
  all n hn c hc := by simp at hc
  nodup := List.nodup_nil

theorem append (h₁ : p.Forest roots₁ env k vs₁)
    (h₂ : p.Forest roots₂ env (k + (vs₁.flatMap fun v => p.written (p.place v)).length) vs₂)
    (hd : ∀ c₁ ∈ roots₁, ∀ c₂ ∈ roots₂, ∀ n, p.source.dominators.table.Above c₁ n →
      ¬p.source.dominators.table.Above c₂ n) :
    p.Forest (roots₁ ++ roots₂) env k (vs₁ ++ vs₂) where
  consecutive := h₁.consecutive.append h₂.consecutive
  parent v hv := by
    rcases List.mem_append.1 hv with hv | hv
    · rcases h₁.parent v hv with ⟨hn, henv⟩ | ⟨u, hu, h⟩
      · exact .inl ⟨List.mem_append_left _ hn, henv⟩
      · exact .inr ⟨u, List.mem_append_left _ hu, h⟩
    · rcases h₂.parent v hv with ⟨hn, henv⟩ | ⟨u, hu, h⟩
      · exact .inl ⟨List.mem_append_right _ hn, henv⟩
      · exact .inr ⟨u, List.mem_append_right _ hu, h⟩
  below v hv := by
    rcases List.mem_append.1 hv with hv | hv
    · obtain ⟨hn, c, hc, ha⟩ := h₁.below v hv
      exact ⟨hn, c, List.mem_append_left _ hc, ha⟩
    · obtain ⟨hn, c, hc, ha⟩ := h₂.below v hv
      exact ⟨hn, c, List.mem_append_right _ hc, ha⟩
  all n hn c hc ha := by
    rcases List.mem_append.1 hc with hc | hc
    · obtain ⟨v, hv, hvn⟩ := h₁.all n hn c hc ha
      exact ⟨v, List.mem_append_left _ hv, hvn⟩
    · obtain ⟨v, hv, hvn⟩ := h₂.all n hn c hc ha
      exact ⟨v, List.mem_append_right _ hv, hvn⟩
  nodup := by
    rw [List.map_append]
    apply h₁.nodup.append h₂.nodup
    intro n hn₁ hn₂
    obtain ⟨v₁, hv₁, rfl⟩ := List.mem_map.1 hn₁
    obtain ⟨v₂, hv₂, heq⟩ := List.mem_map.1 hn₂
    obtain ⟨-, c₁, hc₁, ha₁⟩ := h₁.below v₁ hv₁
    obtain ⟨-, c₂, hc₂, ha₂⟩ := h₂.below v₂ hv₂
    exact hd c₁ hc₁ c₂ hc₂ _ ha₁ (heq ▸ ha₂)

end Forest

section Tree

variable {succ : Nat → List Nat} {n root : Nat} (ht : p.source.dominators.IsTree succ n root)

include ht

theorem Forest.node {q k : Nat} {env : Bindings} {vs : List Visit}
    (hq : q < p.source.dominators.size)
    (h : p.Forest (p.source.dominators.children q) (p.after (p.place ⟨q, env, k⟩) env k)
      (k + (p.written (p.place ⟨q, env, k⟩)).length) vs) :
    p.Forest [q] env k (⟨q, env, k⟩ :: vs) where
  consecutive := ⟨rfl, h.consecutive⟩
  parent v hv := by
    rcases List.mem_cons.1 hv with rfl | hv
    · exact .inl ⟨List.mem_singleton_self q, rfl⟩
    · right
      rcases h.parent v hv with ⟨hn, henv⟩ | ⟨u, hu, hparent⟩
      · obtain ⟨hqv, hlt, hup⟩ := ht.mem_children_iff.1 hn
        exact ⟨_, List.mem_cons_self, hqv, (ht.parent_eq_up hlt).trans hup, henv⟩
      · exact ⟨u, List.mem_cons_of_mem _ hu, hparent⟩
  below v hv := by
    rcases List.mem_cons.1 hv with rfl | hv
    · exact ⟨hq, q, List.mem_singleton_self q, .refl⟩
    · obtain ⟨hn, c, hc, ha⟩ := h.below v hv
      obtain ⟨hlt, -, hup⟩ := ht.mem_children_iff.1 hc
      exact ⟨hn, q, List.mem_singleton_self q, (Graph.DominatorTable.Above.up (by omega)
        (hup ▸ .refl)).trans ha⟩
  all m hm c hc ha := by
    rw [List.mem_singleton.1 hc] at ha
    by_cases hmq : m = q
    · exact ⟨_, List.mem_cons_self, hmq.symm⟩
    · obtain ⟨c', hc', ha'⟩ := ht.exists_child_above hm ha hmq
      obtain ⟨v, hv, hvm⟩ := h.all m hm c' hc' ha'
      exact ⟨v, List.mem_cons_of_mem _ hv, hvm⟩
  nodup := by
    rw [List.map_cons, List.nodup_cons]
    refine ⟨fun hmem => ?_, h.nodup⟩
    obtain ⟨v, hv, heq⟩ := List.mem_map.1 hmem
    have heq : v.number = q := heq
    obtain ⟨-, c, hc, ha⟩ := h.below v hv
    have hlt := (ht.mem_children_iff.1 hc).1
    have := ha.le
    omega

theorem exists_forest_rename {q : Nat} (hq : q < p.source.dominators.size) (env : Bindings)
    (r : Renaming) :
    ∃ vs, p.rename q env r = vs.foldl p.perform r ∧ p.Forest [q] env r.definitions.size vs := by
  generalize hm : p.source.dominators.size - q = m
  induction m using Nat.strongRecOn generalizing q env r with
  | ind m ih =>
    have hchildren : ∀ cs : List Nat, (∀ c ∈ cs, c ∈ p.source.dominators.children q) → cs.Nodup →
        ∀ env r, ∃ vs, cs.foldl (fun r c => p.rename c env r) r = vs.foldl p.perform r ∧
          p.Forest cs env r.definitions.size vs := by
      intro cs hcs hnodup env r
      induction cs generalizing r with
      | nil => exact ⟨[], rfl, .nil⟩
      | cons c cs ihcs =>
        obtain ⟨hqc, hc, -⟩ := ht.mem_children_iff.1 (hcs c List.mem_cons_self)
        obtain ⟨vs₁, heq₁, hf₁⟩ := ih _ (by omega) hc env r rfl
        obtain ⟨vs₂, heq₂, hf₂⟩ := ihcs (fun c hc => hcs c (List.mem_cons_of_mem _ hc))
          (List.nodup_cons.1 hnodup).2 (p.rename c env r)
        refine ⟨vs₁ ++ vs₂, ?_, ?_⟩
        · rw [List.foldl_cons, heq₂, heq₁, List.foldl_append]
        · rw [heq₁, size_foldl_perform] at hf₂
          apply hf₁.append hf₂
          intro c₁ hc₁ c₂ hc₂ n ha₁ ha₂
          rw [List.mem_singleton.1 hc₁] at ha₁
          have := ht.eq_of_above_children (hcs c List.mem_cons_self)
            (hcs c₂ (List.mem_cons_of_mem _ hc₂)) ha₁ ha₂
          exact (List.nodup_cons.1 hnodup).1 (this ▸ hc₂)
    have hnodup : (p.source.dominators.children q).Nodup := List.nodup_range.filter _
    obtain ⟨vs, heq, hf⟩ := hchildren _ (fun c hc => hc) hnodup
      (p.after (p.place ⟨q, env, r.definitions.size⟩) env r.definitions.size)
      (p.perform r ⟨q, env, r.definitions.size⟩)
    rw [size_perform] at hf
    refine ⟨⟨q, env, r.definitions.size⟩ :: vs, ?_, .node ht hq hf⟩
    rw [rename_eq, heq, List.foldl_cons]

end Tree

section Performed

variable {r : Renaming} {vs : List Visit}

theorem foldl_perform_eq (h : p.Consecutive r.definitions.size vs) :
    (vs.foldl p.perform r).definitions.toList
      = r.definitions.toList ++ vs.flatMap (fun v => p.written (p.place v)) ∧
    (vs.foldl p.perform r).uses = r.uses ++ vs.flatMap (fun v => p.usesAt (p.place v) v.env) ∧
    (vs.foldl p.perform r).undefined
      = r.undefined ++ vs.flatMap (fun v => p.undefinedAt (p.place v) v.env) ∧
    (vs.foldl p.perform r).inputs
      = r.inputs ++ vs.flatMap fun v => p.passed (p.place v) v.env v.start := by
  induction vs generalizing r with
  | nil => simp
  | cons v vs ih =>
    obtain ⟨hstart, hrest⟩ := h
    rw [← size_perform] at hrest
    obtain ⟨hdefinitions, huses, hundefined, hinputs⟩ := ih hrest
    rw [List.foldl_cons, hdefinitions, huses, hundefined, hinputs]
    unfold perform
    rw [renameAt_eq, List.flatMap_cons, List.flatMap_cons, List.flatMap_cons, List.flatMap_cons,
      hstart]
    simp

theorem atExit_foldl_perform_of_not (hvs : ∀ v ∈ vs, (p.source.graph.point (p.place v)).kind ≠ .exit) :
    (vs.foldl p.perform r).atExit = r.atExit := by
  induction vs generalizing r with
  | nil => rfl
  | cons v vs ih =>
    rw [List.foldl_cons, ih fun u hu => hvs u (List.mem_cons_of_mem _ hu)]
    unfold perform
    rw [renameAt_eq]
    exact if_neg (by simpa using hvs v List.mem_cons_self)

theorem atExit_foldl_perform (h : p.Consecutive r.definitions.size vs) {v : Visit} (hv : v ∈ vs)
    (hkind : (p.source.graph.point (p.place v)).kind = .exit)
    (hnodup : vs.Nodup)
    (hone : ∀ u ∈ vs, (p.source.graph.point (p.place u)).kind = .exit → u = v) :
    (vs.foldl p.perform r).atExit = p.exiting (p.place v) v.env v.start := by
  induction vs generalizing r with
  | nil => simp at hv
  | cons u vs ih =>
    obtain ⟨hstart, hrest⟩ := h
    rw [← size_perform] at hrest
    rw [List.nodup_cons] at hnodup
    rw [List.foldl_cons]
    by_cases huv : u = v
    · subst huv
      rw [atExit_foldl_perform_of_not]
      · unfold perform
        rw [renameAt_eq, hstart]
        exact if_pos (by simpa using hkind)
      · intro w hw hwkind
        rw [hone w (List.mem_cons_of_mem _ hw) hwkind] at hw
        exact hnodup.1 hw
    · apply ih hrest _ hnodup.2 fun w hw => hone w (List.mem_cons_of_mem _ hw)
      exact (List.mem_cons.1 hv).resolve_left (Ne.symm huv)

theorem getElem?_foldl_perform (h : p.Consecutive r.definitions.size vs) {v : Visit} (hv : v ∈ vs)
    {j : Nat} (hj : j < (p.written (p.place v)).length) :
    (vs.foldl p.perform r).definitions.toList[v.start + j]? = (p.written (p.place v))[j]? := by
  induction vs generalizing r with
  | nil => simp at hv
  | cons u vs ih =>
    have hdefinitions := (foldl_perform_eq h).1
    obtain ⟨hstart, hrest⟩ := h
    rw [← size_perform] at hrest
    rcases List.mem_cons.1 hv with rfl | hv
    · rw [hdefinitions, hstart, List.getElem?_append_right (by simp),
        Array.length_toList, Nat.add_sub_cancel_left, List.flatMap_cons,
        List.getElem?_append_left hj]
    · exact ih hrest hv

theorem exists_visit_of_lt (h : p.Consecutive r.definitions.size vs) {d : Nat}
    (hle : r.definitions.size ≤ d) (hlt : d < (vs.foldl p.perform r).definitions.size) :
    ∃ v ∈ vs, ∃ j < (p.written (p.place v)).length, d = v.start + j := by
  induction vs generalizing r with
  | nil => exact absurd hlt (by simpa using hle)
  | cons v vs ih =>
    obtain ⟨hstart, hrest⟩ := h
    rw [← size_perform] at hrest
    by_cases hd : d < r.definitions.size + (p.written (p.place v)).length
    · exact ⟨v, List.mem_cons_self, d - v.start, by omega, by omega⟩
    · obtain ⟨u, hu, j, hj, heq⟩ := ih hrest (by rw [size_perform]; omega) hlt
      exact ⟨u, List.mem_cons_of_mem _ hu, j, hj, heq⟩

theorem start_le {k : Nat} (h : p.Consecutive k vs) {v : Visit} (hv : v ∈ vs) : k ≤ v.start := by
  induction vs generalizing k with
  | nil => simp at hv
  | cons u vs ih =>
    obtain ⟨hstart, hrest⟩ := h
    rcases List.mem_cons.1 hv with rfl | hv
    · omega
    · have := ih hrest hv
      omega

end Performed

/-- What renaming has found, by the numbers of the vertices: `env` gives the bindings in front of a
vertex and `start` the number of the first definition at it. -/
structure Found (p : RenamingPlan) (r : Renaming) (env : Nat → Bindings) (start : Nat → Nat) :
    Prop where
  root : env 0 = []
  child : ∀ q, 0 < q → q < p.source.dominators.size →
    env q = p.after (p.source.dominators.vertex (p.source.dominators.parent q))
      (env (p.source.dominators.parent q)) (start (p.source.dominators.parent q))
  phi : ∀ d < p.phis.size, r.definitions[d]? = p.phis[d]?
  definition : ∀ q < p.source.dominators.size,
    ∀ j < (p.written (p.source.dominators.vertex q)).length,
      r.definitions[start q + j]? = (p.written (p.source.dominators.vertex q))[j]?
  le_start : ∀ q < p.source.dominators.size, p.phis.size ≤ start q
  exhaustive : ∀ d, p.phis.size ≤ d → d < r.definitions.size → ∃ q < p.source.dominators.size,
    ∃ j < (p.written (p.source.dominators.vertex q)).length, d = start q + j
  uses : ∀ u, u ∈ r.uses ↔ ∃ q < p.source.dominators.size,
    u ∈ p.usesAt (p.source.dominators.vertex q) (env q)
  undefined : ∀ n, n ∈ r.undefined ↔ ∃ q < p.source.dominators.size,
    n ∈ p.undefinedAt (p.source.dominators.vertex q) (env q)
  inputs : ∀ e, e ∈ r.inputs ↔ ∃ q < p.source.dominators.size,
    e ∈ p.passed (p.source.dominators.vertex q) (env q) (start q)
  atExit : ∀ q < p.source.dominators.size,
    (∀ q' < p.source.dominators.size,
      (p.source.graph.point (p.source.dominators.vertex q')).kind = .exit ↔ q' = q) →
    r.atExit = p.exiting (p.source.dominators.vertex q) (env q) (start q)

theorem exists_found {succ : Nat → List Nat} {n root : Nat}
    (ht : p.source.dominators.IsTree succ n root) :
    ∃ env start, p.Found (p.rename 0 [] { definitions := p.phis }) env start := by
  obtain ⟨vs, heq, hf⟩ := exists_forest_rename ht ht.size_pos [] { definitions := p.phis }
  have hvisit : ∀ q, q < p.source.dominators.size → ∃ v, v ∈ vs ∧ v.number = q := by
    intro q hq
    obtain ⟨v, hv, hvq⟩ := hf.all q hq 0 (List.mem_singleton_self 0) (.zero _ q)
    exact ⟨v, hv, hvq⟩
  choose! visit hvs hnumber using hvisit
  have hunique : ∀ v ∈ vs, visit v.number = v := by
    intro v hv
    have hlt := (hf.below v hv).1
    exact List.inj_on_of_nodup_map hf.nodup (hvs _ hlt) hv (hnumber _ hlt)
  have hplace : ∀ q < p.source.dominators.size, p.place (visit q) = p.source.dominators.vertex q := by
    intro q hq
    unfold place
    rw [hnumber q hq]
  have hmem : ∀ {α : Type} (f : Nat → Bindings → Nat → List α) (x : α),
      (x ∈ vs.flatMap fun v => f (p.place v) v.env v.start) ↔ ∃ q < p.source.dominators.size,
        x ∈ f (p.source.dominators.vertex q) (visit q).env (visit q).start := by
    intro α f x
    rw [List.mem_flatMap]
    constructor
    · rintro ⟨v, hv, hx⟩
      have hlt := (hf.below v hv).1
      refine ⟨v.number, hlt, ?_⟩
      rw [hunique v hv]
      exact hx
    · rintro ⟨q, hq, hx⟩
      refine ⟨visit q, hvs q hq, ?_⟩
      rw [hplace q hq]
      exact hx
  obtain ⟨hdefinitions, huses, hundefined, hinputs⟩ := foldl_perform_eq hf.consecutive
  refine ⟨fun q => (visit q).env, fun q => (visit q).start, ?_⟩
  rw [heq]
  exact {
    root := by
      rcases hf.parent _ (hvs 0 ht.size_pos) with ⟨-, henv⟩ | ⟨u, -, hlt, -⟩
      · exact henv
      · rw [hnumber 0 ht.size_pos] at hlt
        omega
    child := fun q hz hq => by
      rcases hf.parent _ (hvs q hq) with ⟨hroot, -⟩ | ⟨u, hu, -, hparent, henv⟩
      · rw [hnumber q hq, List.mem_singleton] at hroot
        omega
      · rw [hnumber q hq] at hparent
        rw [henv, hparent, hunique u hu]
        rfl
    phi := fun d hd => by
      rw [← Array.getElem?_toList, hdefinitions, List.getElem?_append_left (by simpa using hd),
        Array.getElem?_toList]
    definition := fun q hq j hj => by
      rw [← hplace q hq] at hj ⊢
      rw [← Array.getElem?_toList]
      exact getElem?_foldl_perform hf.consecutive (hvs q hq) hj
    le_start := fun q hq => start_le hf.consecutive (hvs q hq)
    exhaustive := fun d hle hlt => by
      obtain ⟨v, hv, j, hj, hd⟩ := exists_visit_of_lt hf.consecutive hle hlt
      have hnum := (hf.below v hv).1
      refine ⟨v.number, hnum, j, ?_, ?_⟩
      · exact hj
      · rw [hunique v hv]
        exact hd
    uses := fun u => by
      rw [huses]
      exact hmem (fun i env _ => p.usesAt i env) u
    undefined := fun n => by
      rw [hundefined]
      exact hmem (fun i env _ => p.undefinedAt i env) n
    inputs := fun e => by
      rw [hinputs]
      exact hmem p.passed e
    atExit := fun q hq hexit => by
      rw [← hplace q hq]
      apply atExit_foldl_perform hf.consecutive (hvs q hq)
      · rw [hplace q hq]
        exact (hexit q hq).2 rfl
      · exact List.Nodup.of_map _ hf.nodup
      · intro u hu hkind
        have hnum := (hf.below u hu).1
        rw [← hunique u hu, hplace _ hnum, hexit _ hnum] at hkind
        rw [← hunique u hu, hkind] }

end ContractFlow.RenamingPlan
