import ContractFlow.Graph.DepthFirst
import Mathlib.Data.List.Nodup
import Mathlib.Logic.Relation

/-! This module contains the theory of depth-first search: its postorder lists what can be reached, each vertex once. -/

namespace ContractFlow.Graph

def Adjacent (succ : Nat → List Nat) (n u v : Nat) : Prop :=
  v ∈ succ u ∧ v < n

abbrev Reaches (succ : Nat → List Nat) (n : Nat) : Nat → Nat → Prop :=
  Relation.ReflTransGen (Adjacent succ n)

def Event.vertex? : Event → Option Nat
  | leave v => some v
  | back _ => none

def onPath (frames : List (Nat × List Nat)) : List Nat :=
  frames.map (·.1)

variable {succ : Nat → List Nat} {n : Nat}

structure Searching (succ : Nat → List Nat) (n : Nat) (frames : List (Nat × List Nat))
    (seen : List Nat) : Prop where
  nodup : (onPath frames).Nodup
  onPath_seen : ∀ v ∈ onPath frames, v ∈ seen
  open_subset : ∀ f ∈ frames, f.2 ⊆ succ f.1
  open_rest : ∀ f ∈ frames, ∀ w ∈ succ f.1, w < n → w ∈ seen ∨ w ∈ f.2
  closed : ∀ v ∈ seen, v ∉ onPath frames → ∀ w ∈ succ v, w < n → w ∈ seen

namespace Searching

variable {frames rest : List (Nat × List Nat)} {seen us : List Nat} {v u : Nat}

theorem leave (h : Searching succ n ((v, []) :: rest) seen) : Searching succ n rest seen where
  nodup := (List.nodup_cons.1 h.nodup).2
  onPath_seen x hx := h.onPath_seen x (List.mem_cons_of_mem _ hx)
  open_subset f hf := h.open_subset f (List.mem_cons_of_mem _ hf)
  open_rest f hf := h.open_rest f (List.mem_cons_of_mem _ hf)
  closed x hx hp w hw hn := by
    by_cases hxv : x = v
    · subst hxv
      have := h.open_rest (x, []) (by simp) w hw hn
      simpa using this
    · apply h.closed x hx _ w hw hn
      intro hmem
      rcases List.mem_cons.1 hmem with rfl | hmem
      · exact hxv rfl
      · exact hp hmem

theorem open_subset_tail (h : Searching succ n ((v, u :: us) :: rest) seen) :
    ∀ f ∈ (v, us) :: rest, f.2 ⊆ succ f.1 := by
  obtain ⟨htop, hrest⟩ := List.forall_mem_cons.1 h.open_subset
  exact List.forall_mem_cons.2 ⟨List.Subset.trans (List.subset_cons_self u us) htop, hrest⟩

theorem open_rest_tail (h : Searching succ n ((v, u :: us) :: rest) seen) :
    ∀ f ∈ (v, us) :: rest, ∀ w ∈ succ f.1, w < n → w ∈ u :: seen ∨ w ∈ f.2 := by
  obtain ⟨htop, hrest⟩ := List.forall_mem_cons.1 h.open_rest
  refine List.forall_mem_cons.2 ⟨fun w hw hn => ?_, fun f hf w hw hn => ?_⟩
  · rw [List.mem_cons, or_right_comm, or_comm, ← List.mem_cons]
    exact htop w hw hn
  · exact (hrest f hf w hw hn).imp_left (List.mem_cons_of_mem _)

theorem skip (h : Searching succ n ((v, u :: us) :: rest) seen) (hu : u < n → u ∈ seen) :
    Searching succ n ((v, us) :: rest) seen where
  nodup := h.nodup
  onPath_seen := h.onPath_seen
  open_subset := h.open_subset_tail
  open_rest f hf w hw hn := by
    refine (h.open_rest_tail f hf w hw hn).imp_left fun hmem => ?_
    rcases List.mem_cons.1 hmem with rfl | hmem
    · exact hu hn
    · exact hmem
  closed := h.closed

theorem enter (h : Searching succ n ((v, u :: us) :: rest) seen) (hu : u ∉ seen) :
    Searching succ n ((u, succ u) :: (v, us) :: rest) (u :: seen) where
  nodup := List.nodup_cons.2 ⟨fun hmem => hu (h.onPath_seen u hmem), h.nodup⟩
  onPath_seen x hx := by
    rcases List.mem_cons.1 hx with rfl | hx
    · exact List.mem_cons_self
    · exact List.mem_cons_of_mem _ (h.onPath_seen x hx)
  open_subset := List.forall_mem_cons.2 ⟨List.Subset.refl _, h.open_subset_tail⟩
  open_rest := List.forall_mem_cons.2 ⟨fun w hw _ => .inr hw, h.open_rest_tail⟩
  closed x hx hp w hw hn := by
    have hxu : x ≠ u := fun he => hp (he ▸ List.mem_cons_self)
    have hseen : x ∈ seen := (List.mem_cons.1 hx).resolve_left hxu
    have hpath : x ∉ onPath ((v, u :: us) :: rest) := fun hmem => hp (List.mem_cons_of_mem _ hmem)
    exact List.mem_cons_of_mem _ (h.closed x hseen hpath w hw hn)

theorem root (root : Nat) (hclosed : ∀ v ∈ seen, ∀ w ∈ succ v, w < n → w ∈ seen) :
    Searching succ n [(root, succ root)] (root :: seen) where
  nodup := List.nodup_singleton root
  onPath_seen x hx := by
    rw [List.mem_singleton.1 hx]
    exact List.mem_cons_self
  open_subset := List.forall_mem_singleton.2 (List.Subset.refl _)
  open_rest := List.forall_mem_singleton.2 fun w hw _ => .inr hw
  closed x hx hp w hw hn := by
    have hxr : x ≠ root := fun he => hp (List.mem_singleton.2 he)
    exact List.mem_cons_of_mem _ (hclosed x ((List.mem_cons.1 hx).resolve_left hxr) w hw hn)

end Searching

structure Searched (succ : Nat → List Nat) (n : Nat) (frames : List (Nat × List Nat))
    (seen left found : List Nat) : Prop where
  path_sublist : (onPath frames).Sublist left
  last : left.getLast? = (onPath frames).getLast?
  nodup : left.Nodup
  mem_left : ∀ v, v ∈ left ↔ v ∈ onPath frames ∨ v ∈ found ∧ v ∉ seen
  seen_subset : seen ⊆ found
  closed : ∀ v ∈ found, ∀ w ∈ succ v, w < n → w ∈ found
  parent : ∀ v ∈ left, v ∉ onPath frames → ∃ u, v ∈ succ u ∧ [v, u].Sublist left
  reached : ∀ v ∈ found, v ∈ seen ∨ ∃ u ∈ onPath frames, Reaches succ n u v

namespace Searched

variable {frames rest : List (Nat × List Nat)} {seen us left found : List Nat} {v u : Nat}

theorem nil (h : Searching succ n [] seen) : Searched succ n [] seen [] seen where
  path_sublist := List.Sublist.refl _
  last := rfl
  nodup := List.nodup_nil
  mem_left v := by simp [onPath]
  seen_subset := fun _ hv => hv
  closed v hv := h.closed v hv (by simp [onPath])
  parent v hv := by simp at hv
  reached v hv := .inl hv

theorem leave (hs : Searching succ n ((v, []) :: rest) seen)
    (h : Searched succ n rest seen left found) :
    Searched succ n ((v, []) :: rest) seen (v :: left) found where
  path_sublist := h.path_sublist.cons_cons v
  last := by
    simp only [onPath, List.map_cons, List.getLast?_cons]
    rw [h.last]
    rfl
  nodup := by
    apply List.nodup_cons.2
    refine ⟨fun hmem => ?_, h.nodup⟩
    have hv : v ∈ seen := hs.onPath_seen v List.mem_cons_self
    rcases (h.mem_left v).1 hmem with hp | ⟨-, hns⟩
    · exact (List.nodup_cons.1 hs.nodup).1 hp
    · exact hns hv
  mem_left x := by
    rw [List.mem_cons, h.mem_left x]
    simp only [onPath, List.map_cons, List.mem_cons]
    rw [or_assoc]
  seen_subset := h.seen_subset
  closed := h.closed
  parent x hx hp := by
    have hxv : x ≠ v := fun he => hp (he ▸ List.mem_cons_self)
    have hleft : x ∈ left := (List.mem_cons.1 hx).resolve_left hxv
    obtain ⟨u, hu, hsub⟩ := h.parent x hleft fun hmem => hp (List.mem_cons_of_mem _ hmem)
    exact ⟨u, hu, hsub.cons v⟩
  reached x hx := by
    rcases h.reached x hx with hs | ⟨u, hu, hr⟩
    · exact .inl hs
    · exact .inr ⟨u, List.mem_cons_of_mem _ hu, hr⟩

theorem skip (h : Searched succ n ((v, us) :: rest) seen left found) :
    Searched succ n ((v, u :: us) :: rest) seen left found :=
  { h with }

theorem enter (hs : Searching succ n ((v, u :: us) :: rest) seen) (hn : u < n) (hu : u ∉ seen)
    (h : Searched succ n ((u, succ u) :: (v, us) :: rest) (u :: seen) left found) :
    Searched succ n ((v, u :: us) :: rest) seen left found where
  path_sublist := (List.sublist_cons_self u _).trans h.path_sublist
  last := by
    rw [h.last]
    exact List.getLast?_cons_cons
  nodup := h.nodup
  mem_left x := by
    rw [h.mem_left x]
    simp only [onPath, List.map_cons, List.mem_cons, not_or]
    constructor
    · rintro ((rfl | hp) | ⟨hf, -, hns⟩)
      · exact .inr ⟨h.seen_subset List.mem_cons_self, hu⟩
      · exact .inl hp
      · exact .inr ⟨hf, hns⟩
    · rintro (hp | ⟨hf, hns⟩)
      · exact .inl (.inr hp)
      · by_cases hxu : x = u
        · exact .inl (.inl hxu)
        · exact .inr ⟨hf, hxu, hns⟩
  seen_subset x hx := h.seen_subset (List.mem_cons_of_mem _ hx)
  closed := h.closed
  parent x hx hp := by
    by_cases hxu : x = u
    · -- the vertex below `u` on the path is the one that `u` was entered from
      subst hxu
      refine ⟨v, hs.open_subset (v, x :: us) (by simp) (by simp), ?_⟩
      apply List.Sublist.trans _ h.path_sublist
      exact ((List.nil_sublist _).cons_cons v).cons_cons x
    · apply h.parent x hx
      intro hmem
      rcases List.mem_cons.1 hmem with he | hmem
      · exact hxu he
      · exact hp hmem
  reached x hx := by
    have hvu : Adjacent succ n v u := ⟨hs.open_subset (v, u :: us) (by simp) (by simp), hn⟩
    have hv : v ∈ onPath ((v, u :: us) :: rest) := List.mem_cons_self
    rcases h.reached x hx with hmem | ⟨w, hw, hr⟩
    · rcases List.mem_cons.1 hmem with rfl | hmem
      · exact .inr ⟨v, hv, .single hvu⟩
      · exact .inl hmem
    · rcases List.mem_cons.1 hw with rfl | hw
      · exact .inr ⟨v, hv, .head hvu hr⟩
      · exact .inr ⟨w, hw, hr⟩

end Searched

theorem filterMap_vertex?_back {path : List Nat} {events : List Event} {c : Prop} [Decidable c] :
    (if c then .back path :: events else events).filterMap Event.vertex? = events.filterMap Event.vertex? := by
  split
  · rfl
  · rfl

theorem search_searched (frames : List (Nat × List Nat)) (seen : List Nat)
    (h : Searching succ n frames seen) :
    Searched succ n frames seen ((search succ n frames seen).1.filterMap Event.vertex?)
      (search succ n frames seen).2 := by
  fun_induction search succ n frames seen with
  | case1 seen => exact .nil h
  | case2 seen v rest events found hrest ih =>
    rw [hrest] at ih
    exact .leave h (ih h.leave)
  | case3 seen v u us rest hu _ ih =>
    have hns : u ∉ seen := by simpa using hu.2
    exact .enter h hu.1 hns (ih (h.enter hns))
  | case4 seen v u us rest hu events found hrest ih =>
    have hseen : u < n → u ∈ seen := by simpa using hu
    simp only [filterMap_vertex?_back]
    exact (ih (h.skip hseen)).skip

section Postorder

variable (succ : Nat → List Nat) (n root : Nat)

theorem postorder_searched :
    Searched succ n [(root, succ root)] [root] (postorder succ n root)
      (search succ n [(root, succ root)] [root]).2 :=
  search_searched _ _ (.root root (by simp))

theorem nodup_postorder : (postorder succ n root).Nodup :=
  (postorder_searched succ n root).nodup

theorem getLast?_postorder : (postorder succ n root).getLast? = some root :=
  (postorder_searched succ n root).last

theorem mem_postorder_iff {v : Nat} : v ∈ postorder succ n root ↔ Reaches succ n root v := by
  have h := postorder_searched succ n root
  have hroot := h.seen_subset (List.mem_singleton.2 rfl)
  constructor
  · intro hv
    rcases (h.mem_left v).1 hv with hp | ⟨hf, hns⟩
    · rw [List.mem_singleton.1 hp]
    · rcases h.reached v hf with hs | ⟨u, hu, hr⟩
      · exact absurd hs hns
      · obtain rfl : u = root := List.mem_singleton.1 hu
        exact hr
  · intro hr
    have hf : v ∈ (search succ n [(root, succ root)] [root]).2 := by
      induction hr with
      | refl => exact hroot
      | tail _ hstep ih => exact h.closed _ ih _ hstep.1 hstep.2
    apply (h.mem_left v).2
    by_cases hv : v = root
    · exact .inl (List.mem_singleton.2 hv)
    · exact .inr ⟨hf, fun hs => hv (List.mem_singleton.1 hs)⟩

theorem exists_pred_postorder {v : Nat} (hv : v ∈ postorder succ n root) (hne : v ≠ root) :
    ∃ u, v ∈ succ u ∧ [v, u].Sublist (postorder succ n root) :=
  (postorder_searched succ n root).parent v hv fun hmem => hne (List.mem_singleton.1 hmem)

end Postorder

section Return

open Relation (ReflTransGen TransGen)

variable {root : Nat} {stack seen : List Nat}

theorem exists_mem_of_leaves (hroot : root ∉ seen) (hclosed : ∀ v ∈ seen, ∀ w ∈ succ v, w ∈ seen ∨ w ∈ stack)
    {v : Nat} (hv : v ∈ seen) (h : ReflTransGen (fun v w => w ∈ succ v) v root) :
    ∃ w ∈ stack, w ∉ seen ∧ ReflTransGen (fun v w => w ∈ succ v) w root := by
  induction h using ReflTransGen.head_induction_on with
  | refl => exact absurd hv hroot
  | @head v w hstep hrest ih =>
    by_cases hw : w ∈ seen
    · exact ih hw
    · exact ⟨w, (hclosed v hv w hstep).resolve_left hw, hw, hrest⟩

theorem found_searchFor_iff (hsucc : ∀ v, ∀ w ∈ succ v, w < n) (hstack : ∀ u ∈ stack, u < n) (hroot : root ∉ seen)
    (hclosed : ∀ v ∈ seen, ∀ w ∈ succ v, w ∈ seen ∨ w ∈ stack) :
    (searchFor succ n root stack seen).found = true ↔
      ∃ u ∈ stack, ReflTransGen (fun v w => w ∈ succ v) u root := by
  fun_induction searchFor succ n root stack seen with
  | case1 seen => simp
  | case2 seen rest => exact iff_of_true rfl ⟨root, List.mem_cons_self, .refl⟩
  | case3 seen u rest hne hnew =>
    rename_i ih
    obtain ⟨hu, hrest⟩ := List.forall_mem_cons.1 hstack
    refine (ih ?_ ?_ ?_).trans ⟨?_, ?_⟩
    · simpa [or_imp, forall_and] using ⟨hsucc u, hrest⟩
    · simp [Ne.symm hne, hroot]
    · intro v hv w hw
      rcases List.mem_cons.1 hv with rfl | hv
      · exact .inr (List.mem_append_left _ (List.mem_reverse.2 hw))
      · rcases hclosed v hv w hw with hseen | hmem
        · exact .inl (List.mem_cons_of_mem _ hseen)
        · rcases List.mem_cons.1 hmem with rfl | hmem
          · exact .inl List.mem_cons_self
          · exact .inr (List.mem_append_right _ hmem)
    · rintro ⟨w, hw, hreaches⟩
      rcases List.mem_append.1 hw with hw | hw
      · exact ⟨u, List.mem_cons_self, .head (List.mem_reverse.1 hw) hreaches⟩
      · exact ⟨w, List.mem_cons_of_mem _ hw, hreaches⟩
    · rintro ⟨w, hw, hreaches⟩
      rcases List.mem_cons.1 hw with rfl | hw
      · obtain heq | ⟨x, hx, hreaches⟩ := hreaches.cases_head
        · exact absurd heq hne
        · exact ⟨x, List.mem_append_left _ (List.mem_reverse.2 hx), hreaches⟩
      · exact ⟨w, List.mem_append_right _ hw, hreaches⟩
  | case4 seen u rest hne hold ih =>
    obtain ⟨hu, hrest⟩ := List.forall_mem_cons.1 hstack
    have hseen : u ∈ seen := by simpa [hu] using hold
    have hother {w : Nat} (hw : w ∈ u :: rest) (hnew : w ∉ seen) : w ∈ rest :=
      (List.mem_cons.1 hw).resolve_left fun heq => hnew (heq ▸ hseen)
    refine (ih hrest hroot ?_).trans ⟨?_, ?_⟩
    · intro v hv w hw
      by_cases hnew : w ∈ seen
      · exact .inl hnew
      · exact .inr (hother ((hclosed v hv w hw).resolve_left hnew) hnew)
    · rintro ⟨w, hw, hreaches⟩
      exact ⟨w, List.mem_cons_of_mem _ hw, hreaches⟩
    · rintro ⟨w, hw, hreaches⟩
      rcases List.mem_cons.1 hw with rfl | hw
      · -- what was opened before leads on over the rest of the stack
        obtain ⟨x, hx, hnew, hreaches⟩ := exists_mem_of_leaves hroot hclosed hseen hreaches
        exact ⟨x, hother hx hnew, hreaches⟩
      · exact ⟨w, hw, hreaches⟩

theorem found_comesBack_iff (hsucc : ∀ v, ∀ w ∈ succ v, w < n) :
    (comesBack succ n root).found = true ↔ TransGen (fun v w => w ∈ succ v) root root := by
  have hstack : ∀ u ∈ (succ root).reverse, u < n := by simpa using hsucc root
  rw [comesBack, found_searchFor_iff hsucc hstack (by simp) (by simp), TransGen.head'_iff]
  simp only [List.mem_reverse]

theorem opened_searchFor (succ : Nat → List Nat) (n root : Nat) (stack seen : List Nat) :
    (searchFor succ n root stack seen).opened.Nodup ∧
      ∀ v ∈ (searchFor succ n root stack seen).opened, v < n ∧ v ≠ root ∧ v ∉ seen := by
  fun_induction searchFor succ n root stack seen with
  | case1 seen => simp
  | case2 seen rest => simp
  | case3 seen u rest hne hnew =>
    rename_i ih
    have hout : u ∉ seen := by simpa using hnew.2
    refine ⟨List.nodup_cons.2 ⟨fun hmem => (ih.2 u hmem).2.2 List.mem_cons_self, ih.1⟩, ?_⟩
    rw [List.forall_mem_cons]
    refine ⟨⟨hnew.1, hne, hout⟩, fun v hv => ?_⟩
    obtain ⟨hv, hroot, hseen⟩ := ih.2 v hv
    exact ⟨hv, hroot, fun hmem => hseen (List.mem_cons_of_mem _ hmem)⟩
  | case4 seen u rest hne hold ih => exact ih

end Return

theorem idxOf_lt_of_sublist {l : List Nat} (hl : l.Nodup) {x y : Nat} (h : [x, y].Sublist l) :
    l.idxOf x < l.idxOf y := by
  obtain ⟨front, back, rfl, hx, hy⟩ := List.cons_sublist_iff.1 h
  have hfront : y ∉ front := fun hy' => List.disjoint_of_nodup_append hl hy' (List.singleton_sublist.1 hy)
  rw [List.idxOf_append_of_mem hx, List.idxOf_append_of_notMem hfront]
  exact Nat.lt_add_right _ (List.idxOf_lt_length_of_mem hx)

end ContractFlow.Graph
