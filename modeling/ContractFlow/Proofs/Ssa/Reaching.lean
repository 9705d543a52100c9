import ContractFlow.Proofs.Control.Run

/-! This module contains reaching definitions, and bindings that stand for exactly those. -/

namespace ContractFlow

def LastOn (last : Nat → Option Nat) (path : List Nat) (e : Nat) : Prop :=
  ∃ front i back, path = front ++ i :: back ∧ last i = some e ∧ ∀ j ∈ back, last j = none

section LastOn

variable {last : Nat → Option Nat} {path : List Nat} {j d e : Nat}

theorem lastOn_append_of_some (h : last j = some e) : LastOn last (path ++ [j]) e :=
  ⟨path, j, [], rfl, h, by simp⟩

theorem LastOn.append (h : LastOn last path e) {back : List Nat} (hback : ∀ j ∈ back, last j = none) :
    LastOn last (path ++ back) e := by
  obtain ⟨front, i, rest, rfl, hi, hrest⟩ := h
  refine ⟨front, i, rest ++ back, by simp, hi, fun j hj => ?_⟩
  exact (List.mem_append.1 hj).elim (hrest j) (hback j)

theorem lastOn_append_singleton_iff :
    LastOn last (path ++ [j]) e ↔ last j = some e ∨ last j = none ∧ LastOn last path e := by
  constructor
  · rintro ⟨front, i, back, heq, hi, hback⟩
    rcases List.eq_nil_or_concat back with rfl | ⟨back, k, rfl⟩
    · obtain ⟨-, hij⟩ := List.append_inj' heq rfl
      rw [(List.cons.inj hij).1]
      exact .inl hi
    · rw [List.concat_eq_append, ← List.cons_append, ← List.append_assoc] at heq
      obtain ⟨rfl, hjk⟩ := List.append_inj' heq rfl
      rw [(List.cons.inj hjk).1]
      refine .inr ⟨hback k (by simp), front, i, back, rfl, hi, fun m hm => hback m (by simp [hm])⟩
  · rintro (hj | ⟨hj, h⟩)
    · exact lastOn_append_of_some hj
    · exact h.append (by simpa using hj)

theorem exists_lastOn_of_mem (hj : j ∈ path) (h : last j = some d) : ∃ e, LastOn last path e := by
  induction path using List.reverseRecOn with
  | nil => simp at hj
  | append_singleton path k ih =>
    cases hk : last k with
    | some e => exact ⟨e, lastOn_append_of_some hk⟩
    | none =>
      rcases List.mem_append.1 hj with hj | hj
      · obtain ⟨e, he⟩ := ih hj
        exact ⟨e, he.append (by simpa using hk)⟩
      · rw [List.mem_singleton.1 hj, hk] at h
        simp at h

theorem lastOn_map_iff {f : Nat → Nat} :
    LastOn (fun i => (last i).map f) path e ↔ ∃ d, e = f d ∧ LastOn last path d := by
  constructor
  · rintro ⟨front, i, back, hpath, hi, hback⟩
    obtain ⟨d, hd, rfl⟩ := Option.map_eq_some_iff.1 hi
    exact ⟨d, rfl, front, i, back, hpath, hd, fun j hj => Option.map_eq_none_iff.1 (hback j hj)⟩
  · rintro ⟨d, rfl, front, i, back, hpath, hd, hback⟩
    refine ⟨front, i, back, hpath, ?_, fun j hj => ?_⟩
    · simp [hd]
    · simp [hback j hj]

end LastOn

/-- Bindings of one variable: the last definition that is written at a point, the phi at a point and the
definition that is bound on coming to it. -/
structure VariableBinding where
  last : Nat → Option Nat
  phi : Nat → Option Nat
  inward : Nat → Option Nat

namespace VariableBinding

def outward (b : VariableBinding) (i : Nat) : Option Nat :=
  (b.last i).or (b.inward i)

structure Balanced (b : VariableBinding) (g : ControlGraph) (merges : Nat → Nat → Prop) (isPhi : Nat → Prop) :
    Prop where
  entry : b.inward Draft.entry = none
  flow : ∀ i j, g.isLive i → j ∈ g.next i → b.phi j = none → b.inward j = b.outward i
  merge : ∀ j d, g.isLive j → b.phi j = some d → b.inward j = some d
  input : ∀ j d, b.phi j = some d → ∀ e,
    merges d e ↔ ∃ i, g.isLive i ∧ j ∈ g.next i ∧ b.outward i = some e
  phi_isPhi : ∀ j d, b.phi j = some d → isPhi d
  not_isPhi : ∀ i d, b.last i = some d → ¬isPhi d
  not_merges : ∀ d e, ¬isPhi d → ¬merges d e

variable {b : VariableBinding} {g : ControlGraph} {merges : Nat → Nat → Prop} {isPhi : Nat → Prop}
  {path : List Nat} {i j d e : Nat}

namespace Balanced

variable (h : b.Balanced g merges isPhi) (hg : g.Sound)

include h hg

theorem merges_of_lastOn (hrun : g.Run path i) (hlast : LastOn b.last path e) :
    ∃ d, b.outward i = some d ∧ Relation.ReflTransGen merges d e := by
  induction hrun with
  | entry =>
    rw [← List.nil_append [Draft.entry], lastOn_append_singleton_iff] at hlast
    rcases hlast with hlast | ⟨-, front, k, back, hnil, -⟩
    · refine ⟨e, ?_, .refl⟩
      rw [outward, hlast]
      rfl
    · simp at hnil
  | @step path i j hrun hnext ih =>
    rcases lastOn_append_singleton_iff.1 hlast with hj | ⟨hj, hlast⟩
    · refine ⟨e, ?_, .refl⟩
      rw [outward, hj]
      rfl
    · obtain ⟨d, hd, hmerges⟩ := ih hlast
      have hlive := (ControlGraph.exists_run_iff hg).1 ⟨_, hrun⟩
      rw [outward, hj]
      cases hphi : b.phi j with
      | none =>
        rw [h.flow i j hlive hnext hphi]
        exact ⟨d, hd, hmerges⟩
      | some f =>
        have hlive' := (ControlGraph.exists_run_iff hg).1 ⟨_, hrun.step hnext⟩
        rw [h.merge j f hlive' hphi]
        exact ⟨f, rfl, .head ((h.input j f hphi d).2 ⟨i, hlive, hnext, hd⟩) hmerges⟩

theorem written_or_phi (hrun : g.Run path i) (hd : b.outward i = some d) :
    LastOn b.last path d ∨ ∃ front c back, path = front ++ c :: back ∧ b.phi c = some d ∧
      ∀ j ∈ c :: back, b.last j = none := by
  induction hrun with
  | entry =>
    rw [outward, h.entry, Option.or_none] at hd
    have hlast : LastOn b.last ([] ++ [Draft.entry]) d := lastOn_append_of_some hd
    exact .inl hlast
  | @step path i j hrun hnext ih =>
    cases hj : b.last j with
    | some f =>
      rw [outward, hj] at hd
      exact .inl (lastOn_append_of_some (hj.trans hd))
    | none =>
      rw [outward, hj] at hd
      have hlive := (ControlGraph.exists_run_iff hg).1 ⟨_, hrun⟩
      cases hphi : b.phi j with
      | some f =>
        have hlive' := (ControlGraph.exists_run_iff hg).1 ⟨_, hrun.step hnext⟩
        rw [h.merge j f hlive' hphi] at hd
        exact .inr ⟨path, j, [], rfl, hphi.trans hd, by simpa using hj⟩
      | none =>
        rw [h.flow i j hlive hnext hphi] at hd
        rcases ih hd with hlast | ⟨front, c, back, rfl, hc, hback⟩
        · exact .inl (hlast.append (by simpa using hj))
        · refine .inr ⟨front, c, back ++ [j], by simp, hc, fun k hk => ?_⟩
          rw [← List.cons_append, List.mem_append, List.mem_singleton] at hk
          rcases hk with hk | rfl
          · exact hback k hk
          · exact hj

theorem lastOn_of_merges (hmerges : Relation.ReflTransGen merges d e) (he : ¬isPhi e)
    (hi : g.isLive i) (hd : b.outward i = some d) : ∃ path, g.Run path i ∧ LastOn b.last path e := by
  induction hmerges using Relation.ReflTransGen.head_induction_on generalizing i with
  | refl =>
    obtain ⟨path, hrun⟩ := (ControlGraph.exists_run_iff hg).2 hi
    rcases h.written_or_phi hg hrun hd with hlast | ⟨_, c, _, _, hc, _⟩
    · exact ⟨path, hrun, hlast⟩
    · exact absurd (h.phi_isPhi c _ hc) he
  | head hstep _ ih =>
    obtain ⟨path, hrun⟩ := (ControlGraph.exists_run_iff hg).2 hi
    rcases h.written_or_phi hg hrun hd with ⟨_, k, _, _, hk, _⟩ | ⟨front, c, back, rfl, hc, hback⟩
    · exact absurd hstep (h.not_merges _ _ (h.not_isPhi k _ hk))
    · -- the run through the phi is replaced by one that brings the merged definition
      obtain ⟨k, hk, hnext, hout⟩ := (h.input c _ hc _).1 hstep
      obtain ⟨path, hpath, hlast⟩ := ih hk hout
      refine ⟨path ++ [c] ++ back, hrun.splice (hpath.step hnext), ?_⟩
      rw [List.append_assoc]
      exact hlast.append hback

theorem exact (hi : g.isLive i) (hd : b.outward i = some d) (e : Nat) :
    Relation.ReflTransGen merges d e ∧ ¬isPhi e ↔ ∃ path, g.Run path i ∧ LastOn b.last path e := by
  constructor
  · rintro ⟨hmerges, he⟩
    exact h.lastOn_of_merges hg hmerges he hi hd
  · rintro ⟨path, hrun, hlast⟩
    obtain ⟨d', hd', hmerges⟩ := h.merges_of_lastOn hg hrun hlast
    obtain rfl := Option.some.inj (hd.symm.trans hd')
    obtain ⟨_, k, _, _, hk, _⟩ := hlast
    exact ⟨hmerges, h.not_isPhi k e hk⟩

end Balanced

end VariableBinding

end ContractFlow
