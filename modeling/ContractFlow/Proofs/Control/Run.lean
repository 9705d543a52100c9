import ContractFlow.Proofs.Control.Region
import ContractFlow.Proofs.Graph.BreadthFirst
import Mathlib.Data.List.Induction

/-!
This module contains runs: the ways through a control flow graph that start at its entry.
-/

namespace ContractFlow.ControlGraph

variable {g : ControlGraph} {path front back q : List Nat} {i j k c : Nat}

inductive Run (g : ControlGraph) : List Nat → Nat → Prop
  | entry : Run g [Draft.entry] Draft.entry
  | step {path : List Nat} {i j : Nat} : Run g path i → j ∈ g.next i → Run g (path ++ [j]) j

theorem mem_next_iff : j ∈ g.next i ↔ g.HasEdge i j := by
  unfold next
  rw [Memo.get_eq, Draft.mem_successors_iff]

theorem mem_prior_iff : i ∈ g.prior j ↔ j ∈ g.next i := by
  rw [mem_next_iff]
  unfold prior
  rw [Memo.get_eq, Draft.mem_predecessors_iff]

namespace Run

theorem eq_append (h : g.Run path i) : ∃ front, path = front ++ [i] := by
  cases h with
  | entry => exact ⟨[], rfl⟩
  | step _ _ => exact ⟨_, rfl⟩

theorem of_append_singleton (h : g.Run (front ++ [k]) i) :
    i = k ∧ (front = [] ∧ k = Draft.entry ∨ ∃ j, g.Run front j ∧ k ∈ g.next j) := by
  generalize hp : front ++ [k] = path at h
  cases h with
  | entry =>
    obtain ⟨hfront, hk⟩ := List.append_inj' (hp.trans (List.nil_append _).symm) rfl
    have hk := (List.cons.inj hk).1
    exact ⟨hk.symm, .inl ⟨hfront, hk⟩⟩
  | @step path j _ h hnext =>
    obtain ⟨rfl, hk⟩ := List.append_inj' hp rfl
    obtain rfl := (List.cons.inj hk).1
    exact ⟨rfl, .inr ⟨j, h, hnext⟩⟩

theorem of_cons_append_singleton (h : g.Run (front ++ c :: (back ++ [k])) i) :
    i = k ∧ ∃ j, g.Run (front ++ c :: back) j ∧ k ∈ g.next j := by
  rw [← List.cons_append, ← List.append_assoc] at h
  obtain ⟨rfl, ⟨hnil, -⟩ | hstep⟩ := h.of_append_singleton
  · simp at hnil
  · exact ⟨rfl, hstep⟩

theorem splice (h : g.Run (front ++ c :: back) i) (hq : g.Run q c) : g.Run (q ++ back) i := by
  induction back using List.reverseRecOn generalizing i with
  | nil =>
    obtain ⟨rfl, -⟩ := h.of_append_singleton
    rw [List.append_nil]
    exact hq
  | append_singleton back k ih =>
    obtain ⟨rfl, j, hj, hnext⟩ := h.of_cons_append_singleton
    rw [← List.append_assoc]
    exact (ih hj).step hnext

theorem upTo (h : g.Run (front ++ c :: back) i) : g.Run (front ++ [c]) c := by
  induction back using List.reverseRecOn generalizing i with
  | nil =>
    obtain ⟨rfl, -⟩ := h.of_append_singleton
    exact h
  | append_singleton back k ih =>
    obtain ⟨-, j, hj, -⟩ := h.of_cons_append_singleton
    exact ih hj

theorem follow (h : g.Run path i) (hback : (i :: back).IsChain fun i j => j ∈ g.next i)
    (hlast : (i :: back).getLast? = some k) : g.Run (path ++ back) k := by
  induction back generalizing path i with
  | nil =>
    obtain rfl := Option.some.inj hlast
    rw [List.append_nil]
    exact h
  | cons j back ih =>
    obtain ⟨hnext, hback⟩ := List.isChain_cons_cons.1 hback
    rw [List.append_cons]
    exact ih (h.step hnext) hback (by rwa [List.getLast?_cons_cons] at hlast)

theorem eq_cons (h : g.Run path i) : ∃ back, path = Draft.entry :: back := by
  induction h with
  | entry => exact ⟨[], rfl⟩
  | step _ _ ih =>
    obtain ⟨back, rfl⟩ := ih
    exact ⟨back ++ [_], rfl⟩

theorem ne_entry (h : g.Run (front ++ c :: back) i) (hg : g.Sound) (hk : k ∈ back) : k ≠ Draft.entry := by
  obtain ⟨between, rest, rfl⟩ := List.append_of_mem hk
  rw [← List.cons_append, ← List.append_assoc] at h
  have h := h.upTo
  rw [List.append_assoc] at h
  obtain ⟨-, j, -, hnext⟩ := h.of_cons_append_singleton
  exact (hg.edge _ _ (mem_next_iff.1 hnext)).2.2.2

end Run

/-- All runs to a point come to another one. -/
def Dominates (g : ControlGraph) (d i : Nat) : Prop :=
  ∀ path, g.Run path i → d ∈ path

theorem reaches_iff : g.reaches i j = true ↔ Graph.Reaches g.next g.size i j := by
  unfold reaches forward
  rw [Memo.get_eq, List.contains_iff_mem, Graph.mem_closure_iff]
  rfl

theorem exists_run_iff_reaches (hg : g.IsClosed) :
    (∃ path, g.Run path i) ↔ Graph.Reaches g.next g.size Draft.entry i := by
  constructor
  · rintro ⟨path, h⟩
    induction h with
    | entry => exact .refl
    | step _ hnext ih => exact ih.tail ⟨hnext, (hg _ _ (mem_next_iff.1 hnext)).2⟩
  · intro h
    induction h with
    | refl => exact ⟨_, .entry⟩
    | tail _ hstep ih =>
      obtain ⟨path, h⟩ := ih
      exact ⟨_, h.step hstep.1⟩

theorem exists_run_iff (hg : g.Sound) : (∃ path, g.Run path i) ↔ g.isLive i = true :=
  (exists_run_iff_reaches hg.isClosed).trans reaches_iff.symm

theorem Run.isLive (h : g.Run path i) (hg : g.Sound) (hk : k ∈ path) : g.isLive k = true := by
  obtain ⟨front, back, rfl⟩ := List.append_of_mem hk
  exact (exists_run_iff hg).1 ⟨_, h.upTo⟩

theorem reaches_iff_reflTransGen (hg : g.IsClosed) :
    g.reaches i j = true ↔ Relation.ReflTransGen (fun i j => j ∈ g.next i) i j := by
  rw [reaches_iff]
  refine ⟨Relation.ReflTransGen.mono (fun _ _ h => h.1) _ _, ?_⟩
  exact Relation.ReflTransGen.mono (fun u v h => ⟨h, (hg u v (mem_next_iff.1 h)).2⟩) _ _

theorem strictlyReaches_iff (hg : g.Sound) :
    g.strictlyReaches i j = true ↔ Relation.TransGen (fun i j => j ∈ g.next i) i j := by
  unfold strictlyReaches
  rw [List.any_eq_true, Relation.TransGen.head'_iff]
  simp only [reaches_iff_reflTransGen hg.isClosed]

theorem mem_dead_iff (hg : g.IsClosed) :
    i ∈ g.dead ↔ i ∈ g.indices ∧ ¬Relation.ReflTransGen (fun i j => j ∈ g.next i) Draft.entry i := by
  unfold dead isLive
  rw [List.mem_filter, ← reaches_iff_reflTransGen hg, Bool.not_eq_true', Bool.not_eq_true]

theorem Run.transGen (h : g.Run (front ++ c :: back) i) (hback : back ≠ []) :
    Relation.TransGen (fun i j => j ∈ g.next i) c i := by
  induction back using List.reverseRecOn generalizing i with
  | nil => exact absurd rfl hback
  | append_singleton back k ih =>
    obtain ⟨rfl, j, hj, hnext⟩ := h.of_cons_append_singleton
    by_cases hempty : back = []
    · subst hempty
      obtain ⟨rfl, -⟩ := hj.of_append_singleton
      exact .single hnext
    · exact (ih hj hempty).tail hnext

theorem mem_pointsAt_iff {n : NodeId} : i ∈ g.pointsAt n ↔ g.node? i = some n := by
  unfold pointsAt
  rw [List.mem_filter, beq_iff_eq]
  exact ⟨And.right, fun h => ⟨List.mem_range.2 (Draft.lt_size_of_node? h), h⟩⟩

theorem pointsAt_eq {n : NodeId} (hone : ∀ i j, g.node? i = some n → g.node? j = some n → i = j) :
    g.pointsAt n = (g.pointAt? n).toList := by
  have hfind : g.pointAt? n = (g.pointsAt n).head? := List.head?_filter.symm
  have hnodup : (g.pointsAt n).Nodup := List.nodup_range.filter _
  have hmem {i : Nat} := mem_pointsAt_iff (g := g) (n := n) (i := i)
  rw [hfind]
  match g.pointsAt n, hnodup, @hmem with
  | [], _, _ => rfl
  | [i], _, _ => rfl
  | i :: j :: rest, hnodup, hmem =>
    have hij := hone i j (hmem.1 List.mem_cons_self) (hmem.1 (List.mem_cons_of_mem _ List.mem_cons_self))
    simp [hij] at hnodup

theorem pointAt?_eq_some {n : NodeId} (hone : ∀ j, g.node? j = some n → j = i) (hi : g.node? i = some n) :
    g.pointAt? n = some i := by
  have hmem := mem_pointsAt_iff.2 hi
  rw [pointsAt_eq fun j k hj hk => (hone j hj).trans (hone k hk).symm] at hmem
  exact Option.mem_toList.1 hmem

end ContractFlow.ControlGraph
