import ContractFlow.Proofs.Ssa.Removal

/-! This module shows that the order in which needless phis are removed does not matter. -/

namespace ContractFlow.Removals

variable {merges : Nat → Nat → Prop} {isPhi : Nat → Prop} {stands stands' : Nat → Option Nat} {phi psi : Nat}
  {other other' : Option Nat} {rs rs' : Removals} {inputs : List (Nat × List Nat)}

def substitute (stands : Nat → Option Nat) (phi : Nat) (other : Option Nat) (d : Nat) : Option Nat :=
  if stands d = some phi then other else stands d

def redirect (phi psi : Nat) (other other' : Option Nat) : Option Nat :=
  if other' = some phi then if other = some psi then none else other else other'

inductive Collapse (merges : Nat → Nat → Prop) (isPhi : Nat → Prop) (stands : Nat → Option Nat) :
    (Nat → Option Nat) → Prop
  | remove {phi : Nat} {other : Option Nat} : isPhi phi → stands phi = some phi → Replaces merges stands phi other →
      Collapse merges isPhi stands (substitute stands phi other)

theorem Replaces.unique (h : Replaces merges stands phi other) (h' : Replaces merges stands phi other') :
    other = other' := by
  have hsome {other other' : Option Nat} (h : Replaces merges stands phi other)
      (h' : Replaces merges stands phi other') {k : Nat} (hk : other = some k) : other' = some k := by
    obtain ⟨hne, e, he, heq⟩ := h.merged k hk
    rcases h'.all e he with hnone | hself | hother
    · simp [heq] at hnone
    · simp [heq, hne] at hself
    · exact hother.symm.trans heq
  exact Option.ext fun k => ⟨hsome h h', hsome h' h⟩

theorem Replaces.substitute (h : Replaces merges stands psi other') (hne : psi ≠ phi) (other : Option Nat) :
    Replaces merges (substitute stands phi other) psi (redirect phi psi other other') where
  all e he := by
    unfold Removals.substitute redirect
    rcases h.all e he with hnone | hself | hother
    · simp [hnone]
    · simp [hself, hne]
    · rw [hother]
      by_cases hphi : other' = some phi
      · rw [if_pos hphi, if_pos hphi]
        split
        · next hpsi => exact .inr (.inl hpsi)
        · exact .inr (.inr rfl)
      · rw [if_neg hphi, if_neg hphi]
        exact .inr (.inr rfl)
  merged k hk := by
    unfold redirect at hk
    unfold Removals.substitute
    split at hk
    · next hphi =>
      split at hk
      · cases hk
      · next hpsi =>
        obtain ⟨-, e, he, heq⟩ := h.merged phi hphi
        refine ⟨?_, e, he, by rw [if_pos heq, hk]⟩
        rintro rfl
        exact hpsi hk
    · next hphi =>
      obtain ⟨hkpsi, e, he, heq⟩ := h.merged k hk
      exact ⟨hkpsi, e, he, by rw [if_neg (by rwa [heq, ← hk]), heq]⟩

theorem substitute_comm (hne : psi ≠ phi) (stands : Nat → Option Nat) (other other' : Option Nat) :
    substitute (substitute stands phi other) psi (redirect phi psi other other') =
      substitute (substitute stands psi other') phi (redirect psi phi other' other) := by
  funext d
  unfold substitute redirect
  by_cases hphi : stands d = some phi
  · have hpsi : ¬some phi = some psi := fun heq => hne (Option.some.inj heq).symm
    rw [if_pos hphi, hphi, if_neg hpsi, if_pos rfl]
    by_cases hother : other = some psi
    · rw [if_pos hother, if_pos hother, if_pos hother]
    · rw [if_neg hother, if_neg hother]
  · rw [if_neg hphi]
    by_cases hpsi : stands d = some psi
    · rw [if_pos hpsi, if_pos hpsi]
      by_cases hother : other' = some phi
      · simp only [if_pos hother]
      · simp only [if_neg hother]
    · rw [if_neg hpsi, if_neg hpsi, if_neg hphi]

theorem Collapse.diamond (h : Collapse merges isPhi stands stands') {stands'' : Nat → Option Nat}
    (h' : Collapse merges isPhi stands stands'') :
    ∃ last, Relation.ReflGen (Collapse merges isPhi) stands' last ∧
      Relation.ReflTransGen (Collapse merges isPhi) stands'' last := by
  obtain @⟨phi, other, hisPhi, hphi, hother⟩ := h
  obtain @⟨psi, other', hisPsi, hpsi, hother'⟩ := h'
  by_cases hne : psi = phi
  · subst hne
    obtain rfl := hother.unique hother'
    exact ⟨_, .refl, .refl⟩
  · have hkept {phi psi : Nat} (hne : psi ≠ phi) (hpsi : stands psi = some psi) (other : Option Nat) :
        substitute stands phi other psi = some psi := by
      unfold substitute
      rw [if_neg (by simpa [hpsi] using hne), hpsi]
    refine ⟨_, .single (.remove hisPsi (hkept hne hpsi other) (hother'.substitute hne other)), ?_⟩
    rw [substitute_comm hne]
    exact .single (.remove hisPhi (hkept (Ne.symm hne) hphi other') (hother.substitute (Ne.symm hne) other'))

/-! Phis that are considered in any order -/

theorem resolve_append_eq (rs : Removals) (phi : Nat) (other : Option Nat) :
    resolve (rs ++ [(phi, other)]) = substitute rs.resolve phi other :=
  funext (resolve_append rs phi other)

/-- Phis are considered one after the other, in any order, until none of them can be removed any more. -/
structure Settles (inputs : List (Nat × List Nat)) (rs : Removals) : Prop where
  run : Relation.ReflTransGen (fun (rs rs' : Removals) => ∃ i ∈ inputs, rs' = rs.consider i.1 i.2) [] rs
  done : ∀ i ∈ inputs, rs.consider i.1 i.2 = rs

theorem reflTransGen_round {rest : List (Nat × List Nat)} (hrest : ∀ i ∈ rest, i ∈ inputs) (rs : Removals) :
    Relation.ReflTransGen (fun (rs rs' : Removals) => ∃ i ∈ inputs, rs' = rs.consider i.1 i.2) rs (round rest rs) := by
  induction rest generalizing rs with
  | nil => exact .refl
  | cons i rest ih =>
    obtain ⟨hi, hrest⟩ := List.forall_mem_cons.1 hrest
    exact .head ⟨i, hi, rfl⟩ (ih hrest _)

theorem settles_settle (inputs : List (Nat × List Nat)) : Settles inputs (settle inputs []) where
  run := by
    generalize ([] : Removals) = rs
    fun_induction settle inputs rs with
    | case1 rs _ ih => exact (reflTransGen_round (fun _ hi => hi) rs).trans ih
    | case2 rs _ => exact reflTransGen_round (fun _ hi => hi) rs
  done _ hi := consider_eq_of_round (round_settle (listed_nil inputs)) hi

namespace Settles

variable (hinputs : ∀ i ∈ inputs, isPhi i.1 ∧ ∀ e, e ∈ i.2 ↔ merges i.1 e)

include hinputs

variable (merges isPhi) in
theorem collapses (h : Settles inputs rs) :
    Faithful merges isPhi rs ∧ Relation.ReflTransGen (Collapse merges isPhi) some rs.resolve := by
  obtain ⟨hrun, -⟩ := h
  induction hrun with
  | refl => exact ⟨faithful_nil, .refl⟩
  | @tail rs _ _ hstep ih =>
    obtain ⟨i, hi, rfl⟩ := hstep
    obtain ⟨hfaithful, hcollapse⟩ := ih
    obtain ⟨hisPhi, hmerges⟩ := hinputs i hi
    refine ⟨hfaithful.consider hisPhi hmerges, ?_⟩
    rcases consider_cases rs hmerges with heq | ⟨other, heq, hphi, hother⟩
    · rwa [heq]
    · rw [heq, resolve_append_eq]
      exact hcollapse.tail (.remove hisPhi (hfaithful.unremoved _ hphi) hother)

theorem not_collapse (h : Settles inputs rs) (hlisted : ∀ phi, isPhi phi → ∃ ds, (phi, ds) ∈ inputs) :
    ¬Collapse merges isPhi rs.resolve stands := by
  rintro @⟨phi, other, hisPhi, hphi, hother⟩
  obtain ⟨ds, hds⟩ := hlisted phi hisPhi
  have hremoved := (h.collapses merges isPhi hinputs).1.kept phi phi hphi
  have htwo := two_le_length_merged (h.done _ hds) hremoved
  have hone {k : Nat} (hk : k ∈ rs.merged phi ds) : other = some k := by
    obtain ⟨hne, e, he, heq⟩ := mem_merged_iff.1 hk
    rcases hother.all e (((hinputs _ hds).2 e).1 he) with hnone | hself | hsame
    · simp [heq] at hnone
    · simp [heq, hne] at hself
    · exact hsame.symm.trans heq
  match hmerged : rs.merged phi ds, htwo with
  | d :: e :: rest, _ =>
    have hnodup : (rs.merged phi ds).Nodup := nodup_distinct _
    rw [hmerged] at hnodup
    have heq := (hone (hmerged ▸ List.mem_cons_self)).symm.trans
      (hone (k := e) (hmerged ▸ List.mem_cons_of_mem _ List.mem_cons_self))
    exact (List.nodup_cons.1 hnodup).1 (Option.some.inj heq ▸ List.mem_cons_self)

variable (merges isPhi) in
theorem resolve_eq (h : Settles inputs rs) (h' : Settles inputs rs')
    (hlisted : ∀ phi, isPhi phi → ∃ ds, (phi, ds) ∈ inputs) : rs.resolve = rs'.resolve := by
  have hlast {rs : Removals} {stands : Nat → Option Nat} (h : Settles inputs rs)
      (hcollapse : Relation.ReflTransGen (Collapse merges isPhi) rs.resolve stands) : stands = rs.resolve := by
    rcases hcollapse.cases_head with heq | ⟨_, hstep, -⟩
    · exact heq.symm
    · exact absurd hstep (h.not_collapse hinputs hlisted)
  obtain ⟨last, hrs, hrs'⟩ := Relation.church_rosser (fun _ _ _ h h' => h.diamond h')
    (h.collapses merges isPhi hinputs).2 (h'.collapses merges isPhi hinputs).2
  exact (hlast h hrs).symm.trans (hlast h' hrs')

end Settles

end ContractFlow.Removals
