import ContractFlow.Proofs.Ssa.Carry
import Mathlib.Data.List.Perm.Subperm
import Mathlib.Order.Bounds.Defs

/-! This module shows that a variable gets its phis at the same points in whatever order points are handled. -/

namespace ContractFlow

structure Placing where
  /-- Points that write the variable, as a phi or otherwise, and have not been handled yet. -/
  waiting : List Nat
  placed : List Nat

namespace Placing

def place (writers : List Nat) (p : Placing) (j : Nat) : Placing :=
  if j ∈ p.placed then p
  else ⟨if j ∈ writers then p.waiting else j :: p.waiting, p.placed ++ [j]⟩

/-- Handles any of the points that wait: its dominance ends at points that are taken in any order. -/
inductive Step (frontier : Nat → List Nat) (writers : List Nat) : Placing → Placing → Prop
  | handle {before after placed points : List Nat} {i : Nat} : (∀ j, j ∈ points ↔ j ∈ frontier i) →
      Step frontier writers ⟨before ++ i :: after, placed⟩ (points.foldl (place writers) ⟨before ++ after, placed⟩)

def IsPhiPoint (frontier : Nat → List Nat) (writers : List Nat) (j : Nat) : Prop :=
  ∃ v ∈ writers, Relation.TransGen (fun i j => j ∈ frontier i) v j

structure Sound (frontier : Nat → List Nat) (writers handled : List Nat) (p : Placing) : Prop where
  nodup : p.placed.Nodup
  placed : ∀ j ∈ p.placed, IsPhiPoint frontier writers j
  waiting : ∀ i ∈ handled ++ p.waiting, i ∈ writers ∨ i ∈ p.placed
  complete : ∀ i, i ∈ writers ∨ i ∈ p.placed →
    i ∈ handled ++ p.waiting ∨ ∀ j ∈ frontier i, j ∈ p.placed

variable {frontier : Nat → List Nat} {writers handled points : List Nat} {p q : Placing} {i j : Nat}

theorem IsPhiPoint.of_mem_frontier (hi : i ∈ writers ∨ IsPhiPoint frontier writers i) (hj : j ∈ frontier i) :
    IsPhiPoint frontier writers j := by
  rcases hi with hi | ⟨v, hv, hi⟩
  · exact ⟨i, hi, .single hj⟩
  · exact ⟨v, hv, hi.tail hj⟩

theorem sound_start (frontier : Nat → List Nat) (writers : List Nat) : Sound frontier writers [] ⟨writers, []⟩ where
  nodup := List.nodup_nil
  placed j hj := by simp at hj
  waiting i hi := .inl hi
  complete i hi := .inl (hi.resolve_right (by simp))

theorem mem_placed_place : i ∈ (place writers p j).placed ↔ i ∈ p.placed ∨ i = j := by
  unfold place
  split
  · next hj => exact ⟨.inl, fun h => h.elim id fun heq => heq ▸ hj⟩
  · simp

theorem mem_placed_foldl : i ∈ (points.foldl (place writers) p).placed ↔ i ∈ p.placed ∨ i ∈ points := by
  induction points generalizing p with
  | nil => simp
  | cons j points ih => rw [List.foldl_cons, ih, mem_placed_place, List.mem_cons, or_assoc]

namespace Sound

theorem place (h : Sound frontier writers handled p) (hi : i ∈ handled) (hj : j ∈ frontier i) :
    Sound frontier writers handled (place writers p j) := by
  unfold Placing.place
  split
  · exact h
  · next hnew =>
    have hwaiting (k : Nat) : k ∈ handled ++ (if j ∈ writers then p.waiting else j :: p.waiting) ↔
        k ∈ handled ++ p.waiting ∨ k = j ∧ j ∉ writers := by
      split
      · next hw => simp [hw]
      · next hw => simp [hw]; tauto
    have hpoint : IsPhiPoint frontier writers j :=
      .of_mem_frontier ((h.waiting i (List.mem_append_left _ hi)).imp_right (h.placed i)) hj
    refine ⟨?_, fun k hk => ?_, fun k hk => ?_, fun k hk => ?_⟩
    · exact List.concat_eq_append ▸ h.nodup.concat hnew
    · rcases List.mem_append.1 hk with hk | hk
      · exact h.placed k hk
      · exact List.mem_singleton.1 hk ▸ hpoint
    · rcases (hwaiting k).1 hk with hk | ⟨rfl, -⟩
      · exact (h.waiting k hk).imp_right (List.mem_append_left _)
      · exact .inr (List.mem_append_right _ List.mem_cons_self)
    · rw [hwaiting]
      have hold (hk : k ∈ writers ∨ k ∈ p.placed) :=
        (h.complete k hk).imp (Or.inl (b := k = j ∧ j ∉ writers)) fun hall i hi => List.mem_append_left [j] (hall i hi)
      rcases hk with hk | hk
      · exact hold (.inl hk)
      · rcases List.mem_append.1 hk with hk | hk
        · exact hold (.inr hk)
        · obtain rfl := List.mem_singleton.1 hk
          by_cases hw : k ∈ writers
          · exact hold (.inl hw)
          · exact .inl (.inr ⟨rfl, hw⟩)

theorem foldl (h : Sound frontier writers handled p) (hi : i ∈ handled) (hpoints : ∀ j ∈ points, j ∈ frontier i) :
    Sound frontier writers handled (points.foldl (Placing.place writers) p) := by
  induction points generalizing p with
  | nil => exact h
  | cons j points ih =>
    obtain ⟨hj, hpoints⟩ := List.forall_mem_cons.1 hpoints
    exact ih (h.place hi hj) hpoints

theorem step (h : Sound frontier writers [] p) (hstep : Step frontier writers p q) : Sound frontier writers [] q := by
  cases hstep with
  | @handle before after placed points i hpoints =>
    have hsame (k : Nat) : k ∈ [i] ++ (before ++ after) ↔ k ∈ before ++ i :: after := by simp; tauto
    have hstart : Sound frontier writers [i] ⟨before ++ after, placed⟩ :=
      ⟨h.nodup, h.placed, fun k hk => h.waiting k ((hsame k).1 hk),
        fun k hk => (h.complete k hk).imp_left (hsame k).2⟩
    have hend := hstart.foldl (List.mem_singleton_self i) fun j hj => (hpoints j).1 hj
    refine ⟨hend.nodup, hend.placed, fun k hk => hend.waiting k (List.mem_append_right _ hk), fun k hk => ?_⟩
    rcases hend.complete k hk with hk | hk
    · rcases List.mem_append.1 hk with hk | hk
      · obtain rfl := List.mem_singleton.1 hk
        exact .inr fun j hj => mem_placed_foldl.2 (.inr ((hpoints j).2 hj))
      · exact .inl hk
    · exact .inr hk

theorem run (h : Sound frontier writers [] p) (hrun : Relation.ReflTransGen (Step frontier writers) p q) :
    Sound frontier writers [] q := by
  induction hrun with
  | refl => exact h
  | tail _ hstep ih => exact ih.step hstep

theorem mem_iff (h : Sound frontier writers [] ⟨[], points⟩) : j ∈ points ↔ IsPhiPoint frontier writers j := by
  refine ⟨h.placed j, ?_⟩
  rintro ⟨v, hv, hj⟩
  have hnext {i j : Nat} (hi : i ∈ writers ∨ i ∈ points) (hj : j ∈ frontier i) : j ∈ points :=
    (h.complete i hi).resolve_left (by simp) j hj
  induction hj with
  | single hj => exact hnext (.inl hv) hj
  | tail _ hj ih => exact hnext (.inr ih) hj

theorem length_placed_le (h : Sound frontier writers handled p)
    (hpoints : ∀ j, IsPhiPoint frontier writers j → j ∈ points) : p.placed.length ≤ points.length :=
  (List.subperm_of_subset h.nodup fun j hj => hpoints j (h.placed j hj)).length_le

end Sound

def toDo (count : Nat) (p : Placing) : Nat :=
  2 * (count - p.placed.length) + p.waiting.length

theorem toDo_place_le {count : Nat} (h : (place writers p j).placed.length ≤ count) :
    toDo count (place writers p j) ≤ toDo count p ∧ p.placed.length ≤ (place writers p j).placed.length := by
  revert h
  unfold place toDo
  split
  · exact fun _ => ⟨Nat.le_refl _, Nat.le_refl _⟩
  · split <;> simp only [List.length_append, List.length_cons] <;> omega

theorem toDo_foldl_le {count : Nat} (h : (points.foldl (place writers) p).placed.length ≤ count) :
    toDo count (points.foldl (place writers) p) ≤ toDo count p ∧
      p.placed.length ≤ (points.foldl (place writers) p).placed.length := by
  induction points generalizing p with
  | nil => exact ⟨Nat.le_refl _, Nat.le_refl _⟩
  | cons j points ih =>
    obtain ⟨hrest, hlength⟩ := ih h
    obtain ⟨hfirst, hlength'⟩ := toDo_place_le (p := p) (Nat.le_trans hlength h)
    exact ⟨Nat.le_trans hrest hfirst, Nat.le_trans hlength' hlength⟩

theorem Sound.toDo_lt_of_step (h : Sound frontier writers [] p)
    (hpoints : ∀ j, IsPhiPoint frontier writers j → j ∈ points)
    (hstep : Step frontier writers p q) : toDo points.length q < toDo points.length p := by
  have hle := (h.step hstep).length_placed_le hpoints
  cases hstep with
  | handle _ =>
    refine Nat.lt_of_le_of_lt (toDo_foldl_le hle).1 ?_
    unfold toDo
    simp only [List.length_append, List.length_cons]
    omega

theorem Sound.acc (h : Sound frontier writers [] p) (hpoints : ∀ j, IsPhiPoint frontier writers j → j ∈ points) :
    Acc (fun q p => Step frontier writers p q) p := by
  generalize hn : toDo points.length p = n
  induction n using Nat.strongRecOn generalizing p with
  | ind n ih => exact .intro p fun q hstep => ih _ (hn ▸ h.toDo_lt_of_step hpoints hstep) (h.step hstep) rfl

theorem exists_run (h : Acc (fun q p => Step frontier writers p q) p) :
    ∃ placed, Relation.ReflTransGen (Step frontier writers) p ⟨[], placed⟩ := by
  induction h with
  | intro p _ ih =>
    obtain ⟨waiting, placed⟩ := p
    cases waiting with
    | nil => exact ⟨placed, .refl⟩
    | cons i waiting =>
      have hstep : Step frontier writers ⟨[] ++ i :: waiting, placed⟩ _ := .handle fun _ => Iff.rfl
      obtain ⟨last, hrun⟩ := ih _ hstep
      exact ⟨last, .head hstep hrun⟩

end Placing

namespace SsaSource

variable {s : SsaSource} {x : NodeId} {i : Nat} {points : List Nat}

/-- Whether a variable can get its phis at these points one after the other. -/
def Places (s : SsaSource) (x : NodeId) (points : List Nat) : Prop :=
  Relation.ReflTransGen (Placing.Step s.dominators.frontier (s.writers x)) ⟨s.writers x, []⟩ ⟨[], points⟩

/-- The points have the frontiers of those that write the variable, and of one another. -/
def HasFrontiers (s : SsaSource) (x : NodeId) (points : Set Nat) : Prop :=
  ∀ i j, (i ∈ points ∨ ∃ w ∈ s.writes i, w.variableNode = x) → s.graph.Frontier i j → j ∈ points

namespace Fits

variable (hs : s.Fits)

include hs

theorem isLeast_of_mem_iff {X : Set Nat}
    (hX : ∀ j, j ∈ X ↔ Placing.IsPhiPoint s.dominators.frontier (s.writers x) j) :
    IsLeast {X | s.HasFrontiers x X} X := by
  obtain rfl : X = {j | Placing.IsPhiPoint s.dominators.frontier (s.writers x) j} := Set.ext hX
  have hfrontier (i j : Nat) : j ∈ s.dominators.frontier i ↔ s.graph.Frontier i j :=
    ControlGraph.mem_frontier_iff hs.tree hs.sound
  constructor
  · intro i j hi hj
    refine .of_mem_frontier (hi.symm.imp_left fun hw => ?_) ((hfrontier i j).2 hj)
    exact hs.mem_writers_iff.2 ⟨(hj.isLive hs.sound).1, hw⟩
  · rintro X hX j ⟨v, hv, hj⟩
    induction hj with
    | single hj => exact hX v _ (.inr (hs.mem_writers_iff.1 hv).2) ((hfrontier _ _).1 hj)
    | tail _ hj ih => exact hX _ _ (.inl ih) ((hfrontier _ _).1 hj)

theorem mem_phiPoints_iff_isPhiPoint :
    i ∈ s.phiPoints x ↔ Placing.IsPhiPoint s.dominators.frontier (s.writers x) i := by
  constructor
  · intro hi
    obtain ⟨-, v, hv, u, hu, hr⟩ := mem_phiPoints_iff.1 hi
    exact ⟨v, hv, .head' hu (Relation.ReflTransGen.mono (fun _ _ hstep => hstep.1) _ _ hr)⟩
  · rintro ⟨v, hv, hi⟩
    induction hi with
    | single hj => exact hs.mem_phiPoints_of_writer hv hj
    | tail _ hj ih => exact hs.mem_phiPoints_of_phi ih hj

theorem perm_of_places (h : s.Places x points) : points.Perm (s.phiPoints x) := by
  have hsound := (Placing.sound_start _ _).run h
  refine (List.perm_ext_iff_of_nodup hsound.nodup (List.nodup_range.filter _)).2 fun i => ?_
  exact hsound.mem_iff.trans hs.mem_phiPoints_iff_isPhiPoint.symm

theorem acc_step (x : NodeId) :
    Acc (fun q p => Placing.Step s.dominators.frontier (s.writers x) p q) ⟨s.writers x, []⟩ :=
  (Placing.sound_start _ _).acc fun _ hj => hs.mem_phiPoints_iff_isPhiPoint.2 hj

theorem exists_places (x : NodeId) : ∃ points, s.Places x points :=
  Placing.exists_run (hs.acc_step x)

end Fits

/--
In every callable the phis of a variable stand at the least set of points that has the frontiers of the points that write
the variable and of its own points, one at each. In whatever order points are handled, that comes to an end and gives
each of these points one phi.
-/
theorem phis_stand_at_iterated_frontier (c : ControlFlow) (spliced : Bool) (f : CallableId) (g : ControlGraph)
    (hg : (c.controlGraph? spliced f).outcome = .ok (some g)) (s : SsaSource) (hs : s = ofGraph c.toProgram g) :
    (s.phis.map fun d => (d.variableNode, d.point)).Nodup ∧
    ∀ x ∈ s.tracked, IsLeast {X | s.HasFrontiers x X} {j | ⟨.phi, x, j, none⟩ ∈ s.phis} ∧
      Acc (fun q p => Placing.Step s.dominators.frontier (s.writers x) p q) ⟨s.writers x, []⟩ ∧
      ∀ points, s.Places x points → points.Nodup ∧ IsLeast {X | s.HasFrontiers x X} {j | j ∈ points} := by
  have hfits : s.Fits := hs ▸ fits_ofGraph c.toProgram (ControlFlow.sound_of_controlGraph? hg)
  refine ⟨?_, fun x hx => ⟨hfits.isLeast_of_mem_iff fun j => ?_, hfits.acc_step x, fun points hpoints => ?_⟩⟩
  · refine s.nodup_phis.map_on fun d hd e he hde => ?_
    obtain ⟨x, -, i, -, rfl⟩ := mem_phis_iff.1 hd
    obtain ⟨y, -, j, -, rfl⟩ := mem_phis_iff.1 he
    obtain ⟨rfl, rfl⟩ := Prod.mk.inj hde
    rfl
  · rw [← hfits.mem_phiPoints_iff_isPhiPoint]
    refine mem_phis_iff.trans ⟨?_, fun hj => ⟨x, hx, j, hj, rfl⟩⟩
    rintro ⟨y, -, i, hi, heq⟩
    obtain ⟨-, rfl, rfl, -⟩ := heq
    exact hi
  · have hsound := (Placing.sound_start _ _).run hpoints
    exact ⟨hsound.nodup, hfits.isLeast_of_mem_iff fun j => hsound.mem_iff⟩

/-- The sample has a phi at the head of its loop, so that this point is in every set that has all frontiers. -/
theorem loop_head_has_phi : (Sample.program.controlGraph? false 0).outcome = .ok (some Sample.graph) ∧
    ∀ X, (ofGraph Sample.program.toProgram Sample.graph).HasFrontiers 2 X → 3 ∈ X := by
  have htracked : 2 ∈ (ofGraph Sample.program.toProgram Sample.graph).tracked := by decide +kernel
  have hphi : ⟨.phi, 2, 3, none⟩ ∈ (ofGraph Sample.program.toProgram Sample.graph).phis := by decide +kernel
  have hall := phis_stand_at_iterated_frontier _ _ _ _ Sample.controlGraph?_eq _ rfl
  exact ⟨Sample.controlGraph?_eq, fun X hX => (hall.2 2 htracked).1.2 hX hphi⟩

end SsaSource

end ContractFlow
