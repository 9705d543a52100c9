import ContractFlow.Graph.BreadthFirst
import ContractFlow.Proofs.Graph.DepthFirst
import Mathlib.Data.List.Chain

/-! This module contains the theory of breadth-first search. -/

namespace ContractFlow.Graph

theorem mem_fresh_iff {n u : Nat} {us seen : List Nat} : u ∈ fresh n us seen ↔ u ∈ us ∧ u < n ∧ u ∉ seen := by
  fun_induction fresh n us seen with
  | case1 seen => simp
  | case2 seen w us hw ih =>
    simp only [Bool.and_eq_true, decide_eq_true_eq, Bool.not_eq_true', List.contains_eq_mem,
      decide_eq_false_iff_not] at hw
    rw [List.mem_cons, ih]
    grind
  | case3 seen w us hw ih =>
    simp only [Bool.and_eq_true, decide_eq_true_eq, Bool.not_eq_true', List.contains_eq_mem,
      decide_eq_false_iff_not, not_and, not_not] at hw
    rw [ih]
    grind

variable {succ : Nat → List Nat} {n : Nat}

theorem mem_of_reaches {found : List Nat} (hc : ∀ v ∈ found, ∀ w, Adjacent succ n v w → w ∈ found)
    {u v : Nat} (hu : u ∈ found) (h : Reaches succ n u v) : v ∈ found := by
  induction h with
  | refl => exact hu
  | tail _ hstep ih => exact hc _ ih _ hstep

theorem mem_closureFrom_iff {queue seen : List Nat} {v : Nat} (hq : queue ⊆ seen)
    (hc : ∀ u ∈ seen, u ∉ queue → ∀ w, Adjacent succ n u w → w ∈ seen) :
    v ∈ closureFrom succ n queue seen ↔ ∃ u ∈ seen, Reaches succ n u v := by
  fun_induction closureFrom succ n queue seen with
  | case1 seen =>
    constructor
    · intro hv
      exact ⟨v, hv, .refl⟩
    · rintro ⟨u, hu, hr⟩
      exact mem_of_reaches (fun x hx => hc x hx (by simp)) hu hr
  | case2 seen x rest _ ih =>
    have hx : x ∈ seen := hq List.mem_cons_self
    rw [ih]
    · constructor
      · rintro ⟨u, hu, hr⟩
        rcases List.mem_append.1 hu with hu | hu
        · exact ⟨u, hu, hr⟩
        · have hu := mem_fresh_iff.1 hu
          exact ⟨x, hx, .head ⟨hu.1, hu.2.1⟩ hr⟩
      · rintro ⟨u, hu, hr⟩
        exact ⟨u, List.mem_append_left _ hu, hr⟩
    · intro u hu
      rcases List.mem_append.1 hu with hu | hu
      · exact List.mem_append_left _ (hq (List.mem_cons_of_mem _ hu))
      · exact List.mem_append_right _ hu
    · -- what leaves the queue is `x`, and its successors have just been added
      intro u hu hnq w hw
      rw [List.mem_append, not_or] at hnq
      have hu : u ∈ seen := (List.mem_append.1 hu).resolve_right hnq.2
      by_cases hux : u = x
      · subst hux
        by_cases hws : w ∈ seen
        · exact List.mem_append_left _ hws
        · exact List.mem_append_right _ (mem_fresh_iff.2 ⟨hw.1, hw.2, hws⟩)
      · apply List.mem_append_left
        apply hc u hu _ w hw
        intro hmem
        rcases List.mem_cons.1 hmem with he | hmem
        · exact hux he
        · exact hnq.1 hmem

theorem mem_closure_iff {u v : Nat} : v ∈ closure succ n u ↔ Reaches succ n u v := by
  unfold closure
  rw [mem_closureFrom_iff (fun _ h => h) (fun x hx hnx => absurd hx hnx)]
  simp

inductive IsWay (step : Nat → Nat → Prop) (root : Nat) : List Nat → Prop
  | start : IsWay step root [root]
  | next {u v : Nat} {way : List Nat} (h : IsWay step root (u :: way)) (hstep : step u v) :
      IsWay step root (v :: u :: way)

namespace IsWay

variable {step : Nat → Nat → Prop} {root v : Nat} {way later : List Nat}

theorem root_mem (h : IsWay step root way) : root ∈ way := by
  induction h with
  | start => exact List.mem_singleton_self root
  | next _ _ ih => exact List.mem_cons_of_mem _ ih

theorem of_append (h : IsWay step root (later ++ v :: way)) : IsWay step root (v :: way) := by
  induction later with
  | nil => exact h
  | cons u later ih =>
    apply ih
    rw [List.cons_append] at h
    generalize hrest : later ++ v :: way = rest at h
    cases h with
    | start => simp at hrest
    | next h _ => exact h

theorem step_of_cons {u : Nat} (h : IsWay step root (v :: u :: way)) : IsWay step root (u :: way) ∧ step u v := by
  cases h with
  | next h hstep => exact ⟨h, hstep⟩

theorem reaches (h : IsWay step root (v :: way)) : Relation.ReflTransGen step root v := by
  generalize hlist : v :: way = list at h
  induction h generalizing v way with
  | start =>
    obtain ⟨rfl, -⟩ := List.cons.inj hlist
    exact .refl
  | next _ hstep ih =>
    obtain ⟨rfl, -⟩ := List.cons.inj hlist
    exact .tail (ih rfl) hstep

theorem iff_isChain : IsWay step root way ↔ way.reverse.head? = some root ∧ way.reverse.IsChain step := by
  rw [List.head?_reverse, List.isChain_reverse]
  induction way with
  | nil => exact iff_of_false (fun h => nomatch h) (by simp)
  | cons v way ih =>
    cases way with
    | nil =>
      constructor
      · rintro ⟨⟩
        simp
      · rintro ⟨hlast, -⟩
        obtain rfl : v = root := by simpa using hlast
        exact .start
    | cons u way =>
      rw [List.getLast?_cons_cons, List.isChain_cons_cons, and_left_comm, ← ih]
      exact ⟨fun h => h.step_of_cons.symm, fun h => .next h.2 h.1⟩

end IsWay

section Bounded

variable {limit : Int} {root : Nat}

structure Followed (n : Nat) (limit : Int) (v : Visit) (us : List Nat) (r : Reached) (visits : List Visit)
    (r' : Reached) : Prop where
  seen : r'.seen = r.seen ++ visits.map (·.vertex)
  nodup : r.seen.Nodup → r'.seen.Nodup
  visits : ∀ w ∈ visits, ∃ u ∈ us, u < n ∧ (v.depth : Int) + 1 ≤ limit ∧ w = v.next u
  within : (v.depth : Int) + 1 ≤ limit ∨ r'.truncated = false → ∀ u ∈ us, u < n → u ∈ r'.seen
  keeps : r.truncated = true → r'.truncated = true
  flags : ∀ u ∈ us, u ∈ v.way → r'.truncated = true

namespace Followed

variable {v : Visit} {u : Nat} {us : List Nat} {r s r' : Reached} {visits : List Visit}

theorem skip (h : Followed n limit v us s visits r') (hseen : s.seen = r.seen)
    (hkeeps : r.truncated = true → s.truncated = true) (hflags : u ∈ v.way → s.truncated = true)
    (hwithin : (v.depth : Int) + 1 ≤ limit ∨ r'.truncated = false → u < n → u ∈ r.seen) :
    Followed n limit v (u :: us) r visits r' where
  seen := hseen ▸ h.seen
  nodup := hseen ▸ h.nodup
  visits w hw := by
    obtain ⟨x, hx, hw⟩ := h.visits w hw
    exact ⟨x, List.mem_cons_of_mem u hx, hw⟩
  within hall := by
    rw [List.forall_mem_cons]
    refine ⟨fun hu => ?_, h.within hall⟩
    rw [h.seen, hseen]
    exact List.mem_append_left _ (hwithin hall hu)
  keeps hr := h.keeps (hkeeps hr)
  flags := List.forall_mem_cons.2 ⟨fun hu => h.keeps (hflags hu), h.flags⟩

theorem add (h : Followed n limit v us s visits r') (hseen : s.seen = r.seen ++ [u])
    (hkeeps : r.truncated = true → s.truncated = true) (hflags : u ∈ v.way → s.truncated = true) (hu : u < n)
    (hnew : u ∉ r.seen) (hlimit : (v.depth : Int) + 1 ≤ limit) :
    Followed n limit v (u :: us) r (v.next u :: visits) r' where
  seen := by rw [h.seen, hseen, List.append_assoc]; rfl
  nodup hr := by
    apply h.nodup
    rw [hseen]
    exact List.Nodup.append hr (List.nodup_singleton u) (by simpa using hnew)
  visits := by
    rw [List.forall_mem_cons]
    refine ⟨⟨u, List.mem_cons_self, hu, hlimit, rfl⟩, fun w hw => ?_⟩
    obtain ⟨x, hx, hw⟩ := h.visits w hw
    exact ⟨x, List.mem_cons_of_mem u hx, hw⟩
  within _ := by
    rw [List.forall_mem_cons]
    refine ⟨fun _ => ?_, h.within (.inl hlimit)⟩
    rw [h.seen, hseen]
    simp
  keeps hr := h.keeps (hkeeps hr)
  flags := List.forall_mem_cons.2 ⟨fun hu => h.keeps (hflags hu), h.flags⟩

end Followed

theorem followed_follow (n : Nat) (limit : Int) (v : Visit) (us : List Nat) (r : Reached) :
    Followed n limit v us r (follow n limit v us r).1 (follow n limit v us r).2 := by
  induction us generalizing r with
  | nil => simp [follow, Followed.mk]
  | cons u us ih =>
    have hnote : ∃ s : Reached, (if v.way.contains u then { r with truncated := true } else r) = s ∧
        s.seen = r.seen ∧ (r.truncated = true → s.truncated = true) ∧ (u ∈ v.way → s.truncated = true) := by
      split <;> simp_all
    obtain ⟨s, hs, hseen, hkeeps, hflags⟩ := hnote
    rw [follow]
    simp only [hs]
    split
    · next hskip =>
      rw [hseen, Bool.or_eq_true, Bool.not_eq_true', decide_eq_false_iff_not, List.contains_iff_mem] at hskip
      exact (ih s).skip hseen hkeeps hflags fun _ hu => hskip.resolve_left (not_not.2 hu)
    · next hnew =>
      simp only [Bool.or_eq_true, Bool.not_eq_true', decide_eq_false_iff_not, List.contains_iff_mem, not_or,
        not_not, hseen] at hnew
      split
      · next hcut =>
        refine (ih _).skip hseen (fun _ => rfl) (fun _ => rfl) ?_
        rintro (hlimit | hwhole)
        · omega
        · have hcutted := (ih { s with truncated := true }).keeps rfl
          cases hcutted.symm.trans hwhole
      · next hlimit =>
        exact (ih _).add (congrArg (· ++ [u]) hseen) hkeeps hflags hnew.1 hnew.2 (by omega)

/--
What has been found by a search from `root` that has opened the vertices of `done`, in turn, and still has to
open those of `queue`.
-/
structure Explored (succ : Nat → List Nat) (n : Nat) (limit : Int) (root : Nat) (done queue : List Visit)
    (r : Reached) : Prop where
  seen : r.seen = (done ++ queue).map (·.vertex)
  nodup : r.seen.Nodup
  start : .start root ∈ done ++ queue
  way : ∀ v ∈ done ++ queue, v.way = v.vertex :: v.way.tail ∧ IsWay (Adjacent succ n) root v.way
  within : ∀ v ∈ done ++ queue, v.depth = 0 ∨ (v.depth : Int) ≤ limit
  sorted : queue.Pairwise fun v w => v.depth ≤ w.depth
  near : ∀ v ∈ queue, ∀ u ∈ done ++ queue, u.depth ≤ v.depth + 1
  opened : ∀ v ∈ done, (v.depth : Int) + 1 ≤ limit ∨ r.truncated = false → ∀ u, Adjacent succ n v.vertex u →
    ∃ w ∈ done ++ queue, w.vertex = u ∧ w.depth ≤ v.depth + 1
  flagged : ∀ v ∈ done, ∀ u ∈ succ v.vertex, u ∈ v.way → r.truncated = true

namespace Explored

variable {done queue rest visits : List Visit} {v : Visit} {r r' : Reached}

theorem length_way (h : Explored succ n limit root done queue r) (hv : v ∈ done ++ queue) :
    v.way.length = v.depth + 1 := by
  rw [Visit.depth, (h.way v hv).1]
  rfl

theorem step (h : Explored succ n limit root done (v :: rest) r)
    (hf : Followed n limit v (succ v.vertex) r visits r') :
    Explored succ n limit root (done ++ [v]) (rest ++ visits) r' := by
  have hall : done ++ [v] ++ (rest ++ visits) = done ++ v :: rest ++ visits := by simp
  have hv : v ∈ done ++ v :: rest := by simp
  have hdepth : ∀ w ∈ visits, w.depth = v.depth + 1 := by
    intro w hw
    obtain ⟨u, -, -, -, rfl⟩ := hf.visits w hw
    exact h.length_way hv
  obtain ⟨hlow, hsorted⟩ := List.pairwise_cons.1 h.sorted
  have hhigh : ∀ u ∈ done ++ v :: rest ++ visits, u.depth ≤ v.depth + 1 := by
    rw [List.forall_mem_append]
    exact ⟨h.near v List.mem_cons_self, fun u hu => Nat.le_of_eq (hdepth u hu)⟩
  have hseen : r'.seen = (done ++ v :: rest ++ visits).map (·.vertex) := by
    rw [hf.seen, h.seen, ← List.map_append]
  constructor
  · rw [hall, hseen]
  · exact hf.nodup h.nodup
  · rw [hall]
    exact List.mem_append_left _ h.start
  · rw [hall, List.forall_mem_append]
    refine ⟨h.way, fun w hw => ?_⟩
    obtain ⟨u, hu, hn, -, rfl⟩ := hf.visits w hw
    refine ⟨rfl, ?_⟩
    obtain ⟨hhead, hway⟩ := h.way v hv
    rw [Visit.next, hhead]
    exact .next (hhead ▸ hway) ⟨hu, hn⟩
  · rw [hall, List.forall_mem_append]
    refine ⟨h.within, fun w hw => ?_⟩
    obtain ⟨u, -, -, hlimit, -⟩ := hf.visits w hw
    rw [hdepth w hw]
    exact .inr hlimit
  · rw [List.pairwise_append]
    refine ⟨hsorted, ?_, fun w hw x hx => ?_⟩
    · apply List.pairwise_of_forall_mem_list
      intro w hw x hx
      exact Nat.le_of_eq ((hdepth w hw).trans (hdepth x hx).symm)
    · rw [hdepth x hx]
      exact hhigh w (by simp [hw])
  · -- what is opened next is not less deep than `v`, and nothing is deeper than what `v` leads to
    intro w hw u hu
    have hw : v.depth ≤ w.depth := by
      rcases List.mem_append.1 hw with hw | hw
      · exact hlow w hw
      · rw [hdepth w hw]
        exact Nat.le_succ _
    have hu : u.depth ≤ v.depth + 1 := hhigh u (hall ▸ hu)
    omega
  · rw [hall, List.forall_mem_append]
    constructor
    · intro w hw hall u hu
      have hearlier : r'.truncated = false → r.truncated = false := by
        simpa only [Bool.not_eq_true] using mt hf.keeps
      obtain ⟨x, hx, hxu⟩ := h.opened w hw (hall.imp_right hearlier) u hu
      exact ⟨x, List.mem_append_left _ hx, hxu⟩
    · rw [List.forall_mem_singleton]
      intro hall u hu
      have hmem := hf.within hall u hu.1 hu.2
      rw [hseen] at hmem
      obtain ⟨x, hx, rfl⟩ := List.mem_map.1 hmem
      exact ⟨x, hx, rfl, hhigh x hx⟩
  · rw [List.forall_mem_append, List.forall_mem_singleton]
    exact ⟨fun w hw u hu hback => hf.keeps (h.flagged w hw u hu hback), hf.flags⟩

theorem reachWithin (h : Explored succ n limit root done queue r) :
    ∃ done, Explored succ n limit root done [] (reachWithin succ n limit queue r) := by
  fun_induction Graph.reachWithin succ n limit queue r generalizing done with
  | case1 r => exact ⟨done, h⟩
  | case2 r v rest =>
    rename_i ih
    exact ih (h.step (followed_follow n limit v (succ v.vertex) r))

theorem exists_visit (h : Explored succ n limit root done queue r) {u : Nat} {way : List Nat}
    (hway : IsWay (Adjacent succ n) root (u :: way)) (hlimit : (way.length : Int) ≤ limit)
    (hqueue : ∀ v ∈ queue, way.length < v.depth) : ∃ v ∈ done, v.vertex = u ∧ v.depth ≤ way.length := by
  generalize hlist : u :: way = list at hway
  induction hway generalizing u way with
  | start =>
    obtain ⟨rfl, rfl⟩ := List.cons.inj hlist
    have hdone := (List.mem_append.1 h.start).resolve_right fun hmem => Nat.not_lt_zero 0 (hqueue _ hmem)
    exact ⟨_, hdone, rfl, Nat.le_refl 0⟩
  | @next x y way' hway hstep ih =>
    obtain ⟨rfl, rfl⟩ := List.cons.inj hlist
    rw [List.length_cons] at hlimit hqueue ⊢
    obtain ⟨v, hv, rfl, hdepth⟩ := ih (by omega) (fun v hv => Nat.lt_of_succ_lt (hqueue v hv)) rfl
    obtain ⟨w, hw, hwu, hwdepth⟩ := h.opened v hv (.inl (by omega)) u hstep
    refine ⟨w, (List.mem_append.1 hw).resolve_right fun hmem => ?_, hwu, by omega⟩
    have := hqueue w hmem
    omega

end Explored

theorem explored_start (succ : Nat → List Nat) (n : Nat) (limit : Int) (root : Nat) (truncated : Bool) :
    Explored succ n limit root [] [.start root] ⟨[root], truncated⟩ := by
  constructor
  all_goals simp [Visit.start, Visit.depth, IsWay.start]

theorem exists_explored (succ : Nat → List Nat) (n : Nat) (limit : Int) (root : Nat) :
    ∃ done, Explored succ n limit root done [] (reachable succ n limit root) :=
  (explored_start succ n limit root false).reachWithin

theorem mem_seen_iff {v : Nat} (hlimit : 0 ≤ limit) : v ∈ (reachable succ n limit root).seen ↔
    ∃ way, IsWay (Adjacent succ n) root (v :: way) ∧ (way.length : Int) ≤ limit := by
  obtain ⟨done, h⟩ := exists_explored succ n limit root
  have hseen := h.seen
  have hways := h.way
  have hwithin := h.within
  rw [List.append_nil] at hseen hways hwithin
  rw [hseen, List.mem_map]
  constructor
  · rintro ⟨x, hx, rfl⟩
    obtain ⟨hhead, hway⟩ := hways x hx
    refine ⟨x.way.tail, hhead ▸ hway, ?_⟩
    rw [List.length_tail, ← Visit.depth]
    rcases hwithin x hx with hzero | hle
    · rw [hzero]
      exact hlimit
    · exact hle
  · rintro ⟨way, hway, hlength⟩
    obtain ⟨x, hx, hxv, -⟩ := h.exists_visit hway hlength (by simp)
    exact ⟨x, hx, hxv⟩

theorem nodup_seen (succ : Nat → List Nat) (n : Nat) (limit : Int) (root : Nat) :
    (reachable succ n limit root).seen.Nodup := by
  obtain ⟨done, h⟩ := exists_explored succ n limit root
  exact h.nodup

theorem root_mem_seen (succ : Nat → List Nat) (n : Nat) (limit : Int) (root : Nat) :
    root ∈ (reachable succ n limit root).seen := by
  obtain ⟨done, h⟩ := exists_explored succ n limit root
  rw [h.seen]
  exact List.mem_map_of_mem h.start

theorem closed_seen (hwhole : (reachable succ n limit root).truncated = false) {u v : Nat}
    (hu : u ∈ (reachable succ n limit root).seen) (hstep : Adjacent succ n u v) :
    v ∈ (reachable succ n limit root).seen := by
  obtain ⟨done, h⟩ := exists_explored succ n limit root
  rw [h.seen] at hu ⊢
  obtain ⟨x, hx, rfl⟩ := List.mem_map.1 hu
  obtain ⟨y, hy, rfl, -⟩ := h.opened x (by simpa using hx) (.inr hwhole) v hstep
  exact List.mem_map_of_mem hy

theorem reaches_of_mem_seen {v : Nat} (hv : v ∈ (reachable succ n limit root).seen) : Reaches succ n root v := by
  obtain ⟨done, h⟩ := exists_explored succ n limit root
  rw [h.seen] at hv
  obtain ⟨x, hx, rfl⟩ := List.mem_map.1 hv
  obtain ⟨hhead, hway⟩ := h.way x hx
  exact (hhead ▸ hway).reaches

theorem truncated_or_bypassed {u v : Nat} {way : List Nat} (hway : IsWay (Adjacent succ n) root (u :: way))
    (hlimit : (way.length : Int) ≤ limit) (hv : v ∈ succ u) :
    (reachable succ n limit root).truncated = true ∨ ∃ other, IsWay (Adjacent succ n) root (u :: other) ∧
      other.length ≤ way.length ∧ v ∉ u :: other := by
  obtain ⟨done, h⟩ := exists_explored succ n limit root
  obtain ⟨x, hx, rfl, hdepth⟩ := h.exists_visit hway hlimit (by simp)
  obtain ⟨hhead, hother⟩ := h.way x (List.mem_append_left _ hx)
  by_cases hback : v ∈ x.way
  · exact .inl (h.flagged x hx v hv hback)
  · refine .inr ⟨x.way.tail, hhead ▸ hother, ?_, hhead ▸ hback⟩
    rw [List.length_tail]
    exact hdepth

theorem followed_fresh (n : Nat) {v : Visit} (hlimit : (v.depth : Int) + 1 ≤ limit) (us seen : List Nat) :
    Followed n limit v us ⟨seen, true⟩ ((fresh n us seen).map v.next) ⟨seen ++ fresh n us seen, true⟩ := by
  fun_induction fresh n us seen with
  | case1 seen => simp [Followed.mk]
  | case2 seen u us hnew ih =>
    simp only [Bool.and_eq_true, decide_eq_true_eq, Bool.not_eq_true', List.contains_eq_mem,
      decide_eq_false_iff_not] at hnew
    rw [List.append_assoc] at ih
    exact ih.add rfl id (fun _ => rfl) hnew.1 hnew.2 hlimit
  | case3 seen u us hold ih =>
    refine ih.skip rfl id (fun _ => rfl) fun _ hu => ?_
    simpa [hu] using hold

inductive Finds (succ : Nat → List Nat) (n : Nat) (limit : Int) (root target : Nat) : Option (List Nat) → Prop
  | none (h : ∀ way, IsWay (Adjacent succ n) root (target :: way) → limit < way.length) :
      Finds succ n limit root target none
  | some {way : List Nat} (hway : IsWay (Adjacent succ n) root (target :: way)) (hlimit : (way.length : Int) ≤ limit)
      (hleast : ∀ other, IsWay (Adjacent succ n) root (target :: other) → way.length ≤ other.length) :
      Finds succ n limit root target (some (target :: way).reverse)

section Target

variable {target : Nat} {done queue : List Visit} {seen : List Nat}

theorem Explored.lt_of_missed {r : Reached} (h : Explored succ n limit root done queue r) (hroot : root ≠ target)
    (hmissed : ∀ v ∈ done, (v.depth : Int) + 1 ≤ limit → target ∉ succ v.vertex) {way : List Nat}
    (hway : IsWay (Adjacent succ n) root (target :: way)) (hqueue : ∀ v ∈ queue, way.length ≤ v.depth) :
    limit < way.length := by
  by_contra hle
  cases way with
  | nil => exact hroot (List.mem_singleton.1 hway.root_mem)
  | cons u way =>
    rw [List.length_cons] at hle
    obtain ⟨hway, hstep⟩ := hway.step_of_cons
    obtain ⟨v, hv, rfl, hdepth⟩ := h.exists_visit hway (by omega) hqueue
    exact hmissed v hv (by omega) hstep.1

theorem finds_findWay (htarget : ∀ u, target ∈ succ u → target < n) (hroot : root ≠ target)
    (h : Explored succ n limit root done queue ⟨seen, true⟩)
    (hmissed : ∀ v ∈ done, (v.depth : Int) + 1 ≤ limit → target ∉ succ v.vertex) :
    Finds succ n limit root target (findWay succ n limit target queue seen).path := by
  fun_induction findWay succ n limit target queue seen generalizing done with
  | case1 seen => exact .none fun way hway => h.lt_of_missed hroot hmissed hway (by simp)
  | case2 seen v rest hcut ih =>
    have hlength := h.length_way (v := v) (by simp)
    have hnone : Followed n limit v (succ v.vertex) ⟨seen, true⟩ [] ⟨seen, true⟩ := by
      constructor <;> simp
      omega
    have hstep := h.step hnone
    rw [List.append_nil] at hstep
    apply ih hstep
    rw [List.forall_mem_append, List.forall_mem_singleton]
    exact ⟨hmissed, fun hle => by omega⟩
  | case3 seen v rest hcut hfound =>
    have hmem : target ∈ succ v.vertex := List.contains_iff_mem.1 hfound
    obtain ⟨hhead, hway⟩ := h.way v (by simp)
    have hlength := h.length_way (v := v) (by simp)
    have hfull : IsWay (Adjacent succ n) root (target :: v.way) := by
      rw [hhead] at hway ⊢
      exact .next hway ⟨hmem, htarget _ hmem⟩
    refine .some hfull (by omega) fun other hother => ?_
    by_contra hlt
    -- what waits is no less deep than `v`, so a shorter way would have been met before
    have hbeyond : limit < other.length := by
      apply h.lt_of_missed hroot hmissed hother
      rw [List.forall_mem_cons]
      have hsorted := (List.pairwise_cons.1 h.sorted).1
      exact ⟨by omega, fun w hw => by have := hsorted w hw; omega⟩
    omega
  | case4 seen v rest hcut hmiss =>
    rename_i ih
    have hlength := h.length_way (v := v) (by simp)
    apply ih (h.step (followed_fresh n (by omega) _ _))
    rw [List.forall_mem_append, List.forall_mem_singleton]
    exact ⟨hmissed, fun _ hmem => hmiss (List.contains_iff_mem.2 hmem)⟩

end Target

end Bounded

end ContractFlow.Graph
