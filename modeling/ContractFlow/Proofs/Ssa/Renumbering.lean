import ContractFlow.Proofs.Ssa.Confluence
import ContractFlow.Proofs.Ssa.Renaming
import Mathlib.Data.List.Induction
import Mathlib.Logic.Equiv.Basic

/-! This module shows that the numbers of phis do not matter. -/

namespace ContractFlow

section List

variable {α β κ : Type}

theorem lookup_map_snd [BEq κ] (f : α → β) (l : List (κ × α)) (k : κ) :
    (l.map (Prod.map id f)).lookup k = (l.lookup k).map f := by
  induction l with
  | nil => rfl
  | cons e l ih =>
    obtain ⟨k', a⟩ := e
    rw [List.map_cons, Prod.map_apply, id_eq, List.lookup_cons, List.lookup_cons, ih]
    cases k == k' <;> rfl

variable [BEq α] [LawfulBEq α]

theorem distinct_map [BEq β] [LawfulBEq β] {f : α → β} (hf : f.Injective) (l : List α) :
    distinct (l.map f) = (distinct l).map f := by
  suffices h : ∀ seen : List α, (l.map f).foldl (fun seen x => if seen.contains x then seen else seen ++ [x])
      (seen.map f) = (l.foldl (fun seen x => if seen.contains x then seen else seen ++ [x]) seen).map f from h []
  induction l with
  | nil => exact fun _ => rfl
  | cons x l ih =>
    intro seen
    have hmem : (seen.map f).contains (f x) = seen.contains x := by
      rw [Bool.eq_iff_iff, List.contains_iff_mem, List.contains_iff_mem, List.mem_map_of_injective hf]
    rw [List.map_cons, List.foldl_cons, List.foldl_cons, hmem]
    split
    · exact ih seen
    · rw [← List.map_singleton, ← List.map_append]
      exact ih _

def reindex (l l' : List α) (d : Nat) : Nat :=
  (l[d]?).elim d l'.idxOf

theorem reindex_reindex {l l' : List α} (h : l.Perm l') (hl : l.Nodup) (d : Nat) :
    reindex l' l (reindex l l' d) = d := by
  unfold reindex
  cases hd : l[d]? with
  | none =>
    have hlength : l'.length ≤ d := h.length_eq ▸ List.getElem?_eq_none_iff.1 hd
    simp [hlength]
  | some a =>
    obtain ⟨hlt, rfl⟩ := List.getElem?_eq_some_iff.1 hd
    have hmem := h.mem_iff.1 (List.getElem_mem hlt)
    rw [Option.elim_some, List.getElem?_idxOf hmem, Option.elim_some, hl.idxOf_getElem]

theorem exists_perm_idxOf {l l' : List α} (h : l.Perm l') (hl : l.Nodup) :
    ∃ π : Equiv.Perm Nat, (∀ d a, l[d]? = some a → π d = l'.idxOf a) ∧ ∀ d, l.length ≤ d → π d = d := by
  refine ⟨⟨reindex l l', reindex l' l, reindex_reindex h hl, reindex_reindex h.symm (h.nodup_iff.1 hl)⟩,
    fun d a ha => ?_, fun d hd => ?_⟩
  · simp [reindex, ha]
  · simp [reindex, hd]

end List

theorem lt_iff_of_fixed {π : Equiv.Perm Nat} {n d : Nat} (h : ∀ d, n ≤ d → π d = d) : π d < n ↔ d < n := by
  by_cases hd : n ≤ d
  · rw [h d hd]
  · refine ⟨fun _ => by omega, fun hlt => Nat.not_le.1 fun hle => ?_⟩
    have := π.injective (h (π d) hle)
    omega

namespace Removals

variable {π : Nat → Nat} {rs rs' : Removals} {inputs inputs' : List (Nat × List Nat)} {phi d : Nat} {ds : List Nat}

def relabel (π : Nat → Nat) (rs : Removals) : Removals :=
  rs.map fun r => (π r.1, r.2.map π)

theorem merged_map (hπ : π.Injective) (h : ∀ d, rs'.resolve (π d) = (rs.resolve d).map π) :
    rs'.merged (π phi) (ds.map π) = (rs.merged phi ds).map π := by
  have hfilter : ((ds.map π).filterMap rs'.resolve).filter (· != π phi) =
      ((ds.filterMap rs.resolve).filter (· != phi)).map π := by
    have hmap : (ds.map π).filterMap rs'.resolve = (ds.filterMap rs.resolve).map π := by
      rw [List.filterMap_map, List.map_filterMap]
      exact List.filterMap_congr fun d _ => h d
    rw [hmap, List.filter_map]
    congr 1
    apply List.filter_congr
    intro d _
    rw [Bool.eq_iff_iff]
    simp [hπ.eq_iff]
  unfold merged
  rw [hfilter, distinct_map hπ]

section Relabel

variable (hπ : π.Injective)

include hπ

theorem resolve_relabel (rs : Removals) (d : Nat) : (rs.relabel π).resolve (π d) = (rs.resolve d).map π := by
  induction rs using List.reverseRecOn with
  | nil => rfl
  | append_singleton rs r ih =>
    obtain ⟨phi, other⟩ := r
    have happend : relabel π (rs ++ [(phi, other)]) = relabel π rs ++ [(π phi, other.map π)] := List.map_append
    rw [happend, resolve_append, resolve_append, ih]
    have hphi : (resolve rs d).map π = some (π phi) ↔ resolve rs d = some phi :=
      (Option.map_injective hπ).eq_iff (b := some phi)
    simp only [hphi]
    split <;> rfl

theorem isRemoved_relabel (rs : Removals) (d : Nat) : (rs.relabel π).isRemoved (π d) = rs.isRemoved d := by
  unfold isRemoved relabel
  rw [List.any_map]
  congr 1
  funext r
  rw [Function.comp_apply, Bool.eq_iff_iff, beq_iff_eq, beq_iff_eq, hπ.eq_iff]

theorem consider_relabel (rs : Removals) (phi : Nat) (ds : List Nat) :
    (rs.relabel π).consider (π phi) (ds.map π) = relabel π (rs.consider phi ds) := by
  unfold consider
  rw [isRemoved_relabel hπ, merged_map hπ (resolve_relabel hπ rs)]
  split
  · rfl
  · match rs.merged phi ds with
    | [] => simp [relabel]
    | [d] => simp [relabel]
    | d :: e :: rest => rfl

theorem Settles.relabel (h : Settles inputs rs)
    (hinputs : ∀ i, i ∈ inputs' ↔ i ∈ inputs.map (Prod.map π (List.map π))) : Settles inputs' (rs.relabel π) := by
  obtain ⟨hrun, hdone⟩ := h
  refine ⟨?_, fun i' hi' => ?_⟩
  · clear hdone
    induction hrun with
    | refl => exact .refl
    | tail _ hstep ih =>
      obtain ⟨i, hi, rfl⟩ := hstep
      refine ih.tail ⟨_, (hinputs _).2 (List.mem_map_of_mem hi), ?_⟩
      exact (consider_relabel hπ _ i.1 i.2).symm
  · obtain ⟨i, hi, rfl⟩ := List.mem_map.1 ((hinputs i').1 hi')
    exact (consider_relabel hπ rs i.1 i.2).trans (congrArg _ (hdone i hi))

end Relabel

end Removals

namespace Renaming

structure Relabels (π : Equiv.Perm Nat) (count : Nat) (r r' : Renaming) : Prop where
  count_le : count ≤ r.definitions.size
  size : r'.definitions.size = r.definitions.size
  definition : ∀ d, r'.definitions[π d]? = r.definitions[d]?
  uses : r'.uses = r.uses.map (Prod.map id π)
  undefined : r'.undefined = r.undefined
  inputs : r'.inputs = r.inputs.map (Prod.map π π)
  atExit : r'.atExit = r.atExit.map (Prod.map id π)

theorem Relabels.lt_size_iff {π : Equiv.Perm Nat} {count d : Nat} {r r' : Renaming} (h : r.Relabels π count r') :
    π d < r.definitions.size ↔ d < r.definitions.size := by
  have hle : r'.definitions.size ≤ π d ↔ r.definitions.size ≤ d := by
    rw [← Array.getElem?_eq_none_iff, h.definition, Array.getElem?_eq_none_iff]
  rw [h.size] at hle
  omega

end Renaming

namespace RenamingPlan

structure Relabels (π : Equiv.Perm Nat) (p p' : RenamingPlan) : Prop where
  source : p'.source = p.source
  tracked : p'.tracked = p.tracked
  size : p'.phis.size = p.phis.size
  definition : ∀ d, p'.phis[π d]? = p.phis[d]?
  fixed : ∀ d, p.phis.size ≤ d → π d = d
  phisAt : ∀ i, p'.phisAt i = (p.phisAt i).map (Prod.map id π)

namespace Relabels

variable {π : Equiv.Perm Nat} {p p' : RenamingPlan} {r r' : Renaming}

theorem filterMap_lookup {α β : Type} (ρ : β → β) (l : List α) (env : Bindings) (key : α → NodeId) (f : α → β) :
    (l.filterMap fun u => ((env.map (Prod.map id π)).lookup (key u)).map (ρ (f u), ·)) =
      (l.filterMap fun u => (env.lookup (key u)).map (f u, ·)).map (Prod.map ρ π) := by
  rw [List.map_filterMap]
  congr 1
  funext u
  rw [lookup_map_snd, Option.map_map, Option.map_map]
  rfl

variable (h : Relabels π p p')

include h

theorem written (i : Nat) : p'.written i = p.written i := by
  unfold RenamingPlan.written
  rw [h.source]

theorem bound {k : Nat} (hk : p.phis.size ≤ k) (i : Nat) : p'.bound i k = (p.bound i k).map (Prod.map id π) := by
  unfold RenamingPlan.bound
  rw [h.written, List.map_reverse, List.map_map]
  congr 1
  apply List.map_congr_left
  intro d hd
  have hle := List.le_snd_of_mem_zipIdx hd
  simp [h.fixed d.2 (Nat.le_trans hk hle)]

theorem within (i : Nat) (env : Bindings) :
    p'.within i (env.map (Prod.map id π)) = (p.within i env).map (Prod.map id π) := by
  unfold RenamingPlan.within
  rw [h.phisAt, List.map_append]

theorem after {k : Nat} (hk : p.phis.size ≤ k) (i : Nat) (env : Bindings) :
    p'.after i (env.map (Prod.map id π)) k = (p.after i env k).map (Prod.map id π) := by
  unfold RenamingPlan.after
  rw [h.bound hk, h.within, List.map_append]

theorem readsAt (i : Nat) : p'.readsAt i = p.readsAt i := by
  unfold RenamingPlan.readsAt
  rw [h.source, h.tracked]

theorem usesAt (i : Nat) (env : Bindings) :
    p'.usesAt i (env.map (Prod.map id π)) = (p.usesAt i env).map (Prod.map id π) := by
  unfold RenamingPlan.usesAt
  rw [h.readsAt, h.within]
  exact filterMap_lookup id _ _ _ _

theorem undefinedAt (i : Nat) (env : Bindings) : p'.undefinedAt i (env.map (Prod.map id π)) = p.undefinedAt i env := by
  unfold RenamingPlan.undefinedAt
  rw [h.readsAt, h.within]
  simp only [lookup_map_snd, Option.isNone_map]

theorem passed {k : Nat} (hk : p.phis.size ≤ k) (i : Nat) (env : Bindings) :
    p'.passed i (env.map (Prod.map id π)) k = (p.passed i env k).map (Prod.map π π) := by
  unfold RenamingPlan.passed
  rw [h.source, h.after hk, List.map_flatMap]
  congr 1
  funext j
  rw [h.phisAt, List.filterMap_map]
  exact filterMap_lookup π _ _ _ _

theorem exiting {k : Nat} (hk : p.phis.size ≤ k) (i : Nat) (env : Bindings) :
    p'.exiting i (env.map (Prod.map id π)) k = (p.exiting i env k).map (Prod.map id π) := by
  unfold RenamingPlan.exiting
  rw [h.tracked, h.after hk]
  exact filterMap_lookup id _ _ _ _

theorem renameAt (hr : r.Relabels π p.phis.size r') (i : Nat) (env : Bindings) :
    (p.renameAt i env r).1.Relabels π p.phis.size (p'.renameAt i (env.map (Prod.map id π)) r').1 := by
  have hle := hr.count_le
  rw [renameAt_eq, renameAt_eq, h.written, hr.size, h.usesAt, h.undefinedAt, h.passed hle, h.exiting hle, h.source]
  refine ⟨?_, ?_, fun d => ?_, ?_, ?_, ?_, ?_⟩
  · simp only [Array.size_append]
    omega
  · simp only [Array.size_append, hr.size]
  · simp only [Array.getElem?_append, hr.size]
    simp only [hr.lt_size_iff]
    split
    · exact hr.definition d
    · rw [h.fixed d (by omega)]
  · simp only [hr.uses, List.map_append]
  · simp only [hr.undefined]
  · simp only [hr.inputs, List.map_append]
  · simp only [hr.atExit]
    split <;> rfl

theorem rename (hr : r.Relabels π p.phis.size r') (q : Nat) (env : Bindings) :
    (p.rename q env r).Relabels π p.phis.size (p'.rename q (env.map (Prod.map id π)) r') := by
  generalize hm : p.source.dominators.size - q = m
  induction m using Nat.strongRecOn generalizing q env r r' with
  | ind m ih =>
    have hchildren : ∀ cs : List Nat, (∀ c ∈ cs, c ∈ p.source.dominators.children q) → ∀ env r r',
        Renaming.Relabels π p.phis.size r r' → (cs.foldl (fun r c => p.rename c env r) r).Relabels π p.phis.size
          (cs.foldl (fun r c => p'.rename c (env.map (Prod.map id π)) r) r') := by
      intro cs hcs env r r' hr
      induction cs generalizing r r' with
      | nil => exact hr
      | cons c cs ihcs =>
        obtain ⟨hc, hcs⟩ := List.forall_mem_cons.1 hcs
        have hlt := Graph.Dominators.lt_of_mem_children hc
        exact ihcs hcs _ _ (ih _ (by omega) hr c env rfl)
    rw [rename_eq, rename_eq, hr.size]
    unfold perform place
    rw [h.source, h.after hr.count_le]
    exact hchildren _ (fun _ hc => hc) _ _ _ (h.renameAt hr _ env)

end Relabels

end RenamingPlan

end ContractFlow
