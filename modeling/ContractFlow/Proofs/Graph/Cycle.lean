import ContractFlow.Proofs.Graph.DepthFirst
import Mathlib.Data.List.Chain

/-!
This module shows that depth-first search finds a cycle through every edge whose end it does not leave before its start,
and reports nothing but cycles.
-/

namespace ContractFlow.Graph

variable {succ : Nat → List Nat} {n : Nat}
variable {events : List Event} {u v : Nat} {path : List Nat}

def leaves (events : List Event) : List Nat :=
  events.filterMap Event.vertex?

def CyclesThrough (events : List Event) (u v : Nat) : Prop :=
  ∃ path, .back path ∈ events ∧ u ∈ path ∧ v ∈ path

def IsSettled (done : Nat → Prop) (events : List Event) (v w : Nat) : Prop :=
  done w ∨ [w, v].Sublist (leaves events) ∨ CyclesThrough events v w

def IsOpen (succ : Nat → List Nat) (frames : List (Nat × List Nat)) (v w : Nat) : Prop :=
  (∃ f ∈ frames, f.1 = v ∧ w ∈ f.2) ∨ v ∉ onPath frames ∧ w ∈ succ v

theorem CyclesThrough.mono {events' : List Event} (h : CyclesThrough events u v) (hsub : events ⊆ events') :
    CyclesThrough events' u v := by
  obtain ⟨path, hpath, hu, hv⟩ := h
  exact ⟨path, hsub hpath, hu, hv⟩

theorem IsSettled.of_sublist {done done' : Nat → Prop} {events' : List Event} {w : Nat}
    (h : IsSettled done events v w) (hsub : events.Sublist events')
    (hdone : done w → IsSettled done' events' v w) : IsSettled done' events' v w := by
  rcases h with h | h | h
  · exact hdone h
  · exact .inr (.inl (h.trans (hsub.filterMap _)))
  · exact .inr (.inr (h.mono hsub.subset))

theorem cyclesThrough_cycleAt : CyclesThrough (.back (cycleAt (v :: path) u) :: events) v u := by
  refine ⟨_, List.mem_cons_self, ?_, List.mem_cons_self⟩
  by_cases hvu : v = u
  · rw [hvu]
    exact List.mem_cons_self
  · have htake : v ∈ (v :: path).takeWhile (· != u) := by simp [hvu]
    exact List.mem_cons_of_mem _ (List.mem_reverse.2 htake)

namespace IsOpen

variable {rest : List (Nat × List Nat)} {us : List Nat} {x u v w : Nat}

theorem leave (h : IsOpen succ ((x, []) :: rest) v w) : IsOpen succ rest v w := by
  rcases h with ⟨f, hf, hfv, hw⟩ | ⟨hp, hw⟩
  · rcases List.mem_cons.1 hf with rfl | hf
    · simp at hw
    · exact .inl ⟨f, hf, hfv, hw⟩
  · exact .inr ⟨fun hmem => hp (List.mem_cons_of_mem _ hmem), hw⟩

theorem follow (h : IsOpen succ ((x, u :: us) :: rest) v w) : (v = x ∧ w = u) ∨ IsOpen succ ((x, us) :: rest) v w := by
  rcases h with ⟨f, hf, hfv, hw⟩ | hout
  · rcases List.mem_cons.1 hf with rfl | hf
    · rcases List.mem_cons.1 hw with he | hw
      · exact .inl ⟨hfv.symm, he⟩
      · exact .inr (.inl ⟨(x, us), by simp, hfv, hw⟩)
    · exact .inr (.inl ⟨f, by simp [hf], hfv, hw⟩)
  · exact .inr (.inr hout)

theorem enter (h : IsOpen succ rest v w) : IsOpen succ ((u, succ u) :: rest) v w := by
  rcases h with ⟨f, hf, hfv, hw⟩ | ⟨hp, hw⟩
  · exact .inl ⟨f, List.mem_cons_of_mem _ hf, hfv, hw⟩
  · by_cases hvu : v = u
    · exact .inl ⟨(u, succ u), by simp, hvu.symm, hvu ▸ hw⟩
    · refine .inr ⟨fun hmem => ?_, hw⟩
      exact hp ((List.mem_cons.1 hmem).resolve_left hvu)

theorem ne_of_leave (h : IsOpen succ ((x, []) :: rest) v w) (hx : x ∉ onPath rest) : v ≠ x := by
  rintro rfl
  rcases h with ⟨f, hf, hfv, hw⟩ | ⟨hp, -⟩
  · rcases List.mem_cons.1 hf with rfl | hf
    · simp at hw
    · exact hx (List.mem_map.2 ⟨f, hf, hfv⟩)
  · exact hp List.mem_cons_self

end IsOpen

theorem search_settles (frames : List (Nat × List Nat)) (seen : List Nat)
    (h : Searching succ n frames seen) {w : Nat} (hv : v ∈ leaves (search succ n frames seen).1)
    (hw : w < n) (hopen : IsOpen succ frames v w) :
    IsSettled (fun x => x ∈ seen ∧ x ∉ onPath frames) (search succ n frames seen).1 v w := by
  fun_induction search succ n frames seen with
  | case1 seen => simp [leaves] at hv
  | case2 seen x rest events found hrest ih =>
    rw [hrest] at ih
    have hne : v ≠ x := hopen.ne_of_leave (List.nodup_cons.1 h.nodup).1
    have hleft : v ∈ leaves events := (List.mem_cons.1 hv).resolve_left hne
    refine (ih h.leave hleft hopen.leave).of_sublist (List.sublist_cons_self _ _) fun hdone => ?_
    by_cases hwx : w = x
    · -- the vertex that is left now is left before `v`
      subst hwx
      exact .inr (.inl ((List.singleton_sublist.2 hleft).cons_cons w))
    · exact .inl ⟨hdone.1, fun hmem => hdone.2 ((List.mem_cons.1 hmem).resolve_left hwx)⟩
  | case3 seen x u us rest hu _ ih =>
    have hns : u ∉ seen := by simpa using hu.2
    rcases hopen.follow with ⟨rfl, rfl⟩ | hopen
    · -- `w` comes to lie above `v` on the path, which is left from the top
      refine .inr (.inl (List.Sublist.trans ?_ (search_searched _ _ (h.enter hns)).path_sublist))
      exact ((List.nil_sublist _).cons_cons v).cons_cons w
    · rcases ih (h.enter hns) hv hopen.enter with ⟨hseen, hp⟩ | hrest
      · have hwu : w ≠ u := fun he => hp (he ▸ List.mem_cons_self)
        refine .inl ⟨(List.mem_cons.1 hseen).resolve_left hwu, fun hmem => ?_⟩
        exact hp (List.mem_cons_of_mem _ hmem)
      · exact .inr hrest
  | case4 seen x u us rest hu events found hrest ih =>
    have hseen : u < n → u ∈ seen := by simpa using hu
    rcases hopen.follow with ⟨rfl, rfl⟩ | hopen
    · by_cases hpath : w ∈ v :: rest.map (·.1)
      · simp only [if_pos (List.contains_iff_mem.2 hpath)]
        exact .inr (.inr cyclesThrough_cycleAt)
      · exact .inl ⟨hseen hw, hpath⟩
    · simp only [leaves, filterMap_vertex?_back] at hv
      refine (ih (h.skip hseen) hv hopen).of_sublist ?_ .inl
      dsimp only
      split
      · exact List.sublist_cons_self _ _
      · exact List.Sublist.refl _

structure SearchedAll (succ : Nat → List Nat) (n : Nat) (roots seen : List Nat) (events : List Event) :
    Prop where
  nodup : (leaves events).Nodup
  fresh : ∀ v ∈ leaves events, v ∉ seen
  bounded : (∀ r ∈ roots, r < n) → ∀ v ∈ leaves events, v < n
  roots_found : ∀ r ∈ roots, r ∈ seen ∨ r ∈ leaves events
  settled : ∀ v ∈ leaves events, ∀ w ∈ succ v, w < n → IsSettled (· ∈ seen) events v w

theorem leaves_append (events events' : List Event) : leaves (events ++ events') = leaves events ++ leaves events' :=
  List.filterMap_append

theorem SearchedAll.cons {root : Nat} {roots seen : List Nat} (hroot : root ∉ seen)
    (hclosed : ∀ v ∈ seen, ∀ w ∈ succ v, w < n → w ∈ seen)
    (h : SearchedAll succ n roots (search succ n [(root, succ root)] (root :: seen)).2 events) :
    SearchedAll succ n (root :: roots) seen
      ((search succ n [(root, succ root)] (root :: seen)).1 ++ events) := by
  have hstart := Searching.root root hclosed
  have hone := search_searched _ _ hstart
  have hsettled := fun v w => search_settles _ _ hstart (v := v) (w := w)
  revert h hone hsettled
  generalize search succ n [(root, succ root)] (root :: seen) = result
  obtain ⟨first, found⟩ := result
  intro h hone hsettled
  have hfound := hone.seen_subset
  have hleft (v : Nat) : v ∈ leaves first ↔ v ∈ found ∧ v ∉ seen := by
    refine (hone.mem_left v).trans ?_
    by_cases hv : v = root
    · simp [onPath, hv, hroot, hfound List.mem_cons_self]
    · simp [onPath, hv]
  have hmem (v : Nat) : v ∈ leaves (first ++ events) ↔ v ∈ leaves first ∨ v ∈ leaves events := by
    rw [leaves_append, List.mem_append]
  refine ⟨?_, fun v hv hseen => ?_, fun hroots v hv => ?_, fun r hr => ?_, fun v hv w hw hn => ?_⟩
  · rw [leaves_append]
    exact hone.nodup.append h.nodup fun v hv hv' => h.fresh v hv' ((hleft v).1 hv).1
  · rcases (hmem v).1 hv with hv | hv
    · exact ((hleft v).1 hv).2 hseen
    · exact h.fresh v hv (hfound (List.mem_cons_of_mem _ hseen))
  · rcases (hmem v).1 hv with hv | hv
    · obtain ⟨hf, hns⟩ := (hleft v).1 hv
      rcases hone.reached v hf with hs | ⟨u, hu, hr⟩
      · exact (List.mem_cons.1 hs).resolve_right hns ▸ hroots _ List.mem_cons_self
      · obtain rfl : u = root := List.mem_singleton.1 hu
        rcases Relation.ReflTransGen.cases_tail hr with he | ⟨_, -, hadj⟩
        · exact he ▸ hroots _ List.mem_cons_self
        · exact hadj.2
    · exact h.bounded (fun r hr => hroots r (List.mem_cons_of_mem _ hr)) v hv
  · rw [hmem]
    rcases List.mem_cons.1 hr with rfl | hr
    · exact .inr (.inl ((hleft r).2 ⟨hfound List.mem_cons_self, hroot⟩))
    · rcases h.roots_found r hr with hf | hl
      · by_cases hs : r ∈ seen
        · exact .inl hs
        · exact .inr (.inl ((hleft r).2 ⟨hf, hs⟩))
      · exact .inr (.inr hl)
  · rcases (hmem v).1 hv with hv | hv
    · have hopen : IsOpen succ [(root, succ root)] v w := .enter (.inr ⟨List.not_mem_nil, hw⟩)
      refine (hsettled v w hv hn hopen).of_sublist (List.sublist_append_left _ _) fun hdone => .inl ?_
      exact (List.mem_cons.1 hdone.1).resolve_left fun he => hdone.2 (List.mem_singleton.2 he)
    · refine (h.settled v hv w hw hn).of_sublist (List.sublist_append_right _ _) fun hf => ?_
      by_cases hs : w ∈ seen
      · exact .inl hs
      · -- `w` was left in the search from this root, `v` in a later one
        refine .inr (.inl ?_)
        rw [leaves_append]
        exact (List.singleton_sublist.2 ((hleft w).2 ⟨hf, hs⟩)).append (List.singleton_sublist.2 hv)

theorem searchAll_searched (roots seen : List Nat)
    (hclosed : ∀ v ∈ seen, ∀ w ∈ succ v, w < n → w ∈ seen) :
    SearchedAll succ n roots seen (searchAll succ n roots seen) := by
  induction roots generalizing seen with
  | nil => constructor <;> simp [searchAll, leaves]
  | cons r roots ih =>
    rw [searchAll]
    by_cases hr : r ∈ seen
    · rw [if_pos (List.contains_iff_mem.2 hr)]
      obtain ⟨nodup, fresh, bounded, found, settled⟩ := ih seen hclosed
      refine ⟨nodup, fresh, fun h => bounded fun x hx => h x (List.mem_cons_of_mem _ hx), ?_, settled⟩
      intro x hx
      rcases List.mem_cons.1 hx with rfl | hx
      · exact .inl hr
      · exact found x hx
    · rw [if_neg (by simpa using hr)]
      have hone := search_searched _ _ (Searching.root (n := n) r hclosed)
      exact .cons hr hclosed (ih _ hone.closed)

theorem SearchedAll.exists_cyclesThrough {roots : List Nat} (h : SearchedAll succ n roots [] events)
    {c : Nat} {walk : List Nat} (hchain : (c :: walk).IsChain fun v w => w ∈ succ v) (hback : c ∈ walk)
    (hleft : ∀ v ∈ c :: walk, v < n ∧ v ∈ leaves events) :
    ∃ v w, [v, w] <:+: c :: walk ∧ CyclesThrough events v w := by
  by_contra hnone
  -- along an edge that is on none of the paths the search leaves earlier and earlier vertices
  have hearlier : (c :: walk).IsChain fun v w => (leaves events).idxOf w < (leaves events).idxOf v := by
    rw [List.isChain_iff_forall_rel_of_append_cons_cons]
    intro v w before after heq
    have hpair : [v, w] <:+: c :: walk := ⟨before, after, by simp [heq]⟩
    have hedge : w ∈ succ v := List.isChain_pair.1 <| List.IsChain.infix hchain hpair
    have hw := (hleft w (hpair.subset (by simp))).1
    rcases h.settled v (hleft v (hpair.subset (by simp))).2 w hedge hw with hnil | hsub | hcycle
    · cases hnil
    · exact idxOf_lt_of_sublist h.nodup hsub
    · exact absurd ⟨v, w, hpair, hcycle⟩ hnone
  have hordered := List.pairwise_map.1 ((List.isChain_map (R := (· > ·)) _).2 hearlier).pairwise
  exact Nat.lt_irrefl _ ((List.pairwise_cons.1 hordered).1 c hback)

structure IsCircuit (succ : Nat → List Nat) (path : List Nat) : Prop where
  nonempty : path ≠ []
  nodup : path.Nodup
  chain : path.IsChain fun v w => w ∈ succ v
  closed : ∀ first ∈ path.head?, ∀ last ∈ path.getLast?, first ∈ succ last

def IsLinked (succ : Nat → List Nat) (path : List Nat) : Prop :=
  path.IsChain fun v w => v ∈ succ w

theorem takeWhile_append_isPrefix (hu : u ∈ path) : path.takeWhile (· != u) ++ [u] <+: path := by
  induction path with
  | nil => cases hu
  | cons v path ih =>
    by_cases hv : v = u
    · simp [hv]
    · have hrest : u ∈ path := (List.mem_cons.1 hu).resolve_left (Ne.symm hv)
      simpa [hv] using ih hrest

theorem IsLinked.isCircuit (h : IsLinked succ (v :: path)) (hnodup : (v :: path).Nodup)
    (hu : u ∈ v :: path) (hedge : u ∈ succ v) : IsCircuit succ (cycleAt (v :: path) u) := by
  have hreverse : cycleAt (v :: path) u = ((v :: path).takeWhile (· != u) ++ [u]).reverse := by
    simp [cycleAt]
  have hprefix := takeWhile_append_isPrefix hu
  refine ⟨List.cons_ne_nil _ _, ?_, ?_, ?_⟩
  · rw [hreverse, List.nodup_reverse]
    exact hnodup.sublist hprefix.sublist
  · rw [hreverse, List.isChain_reverse]
    exact List.IsChain.prefix h hprefix
  · intro first hfirst last hlast
    obtain rfl : u = first := Option.some.inj hfirst
    by_cases hv : v = u
    · have hlast : u = last := by simpa [cycleAt, hv] using hlast
      rw [← hlast]
      exact hv ▸ hedge
    · have hlast : v = last := by simpa [cycleAt, hv, List.getLast?_cons] using hlast
      rwa [← hlast]

theorem isCircuit_of_back (frames : List (Nat × List Nat)) (seen : List Nat)
    (h : Searching succ n frames seen) (hlinked : IsLinked succ (onPath frames))
    (hpath : .back path ∈ (search succ n frames seen).1) : IsCircuit succ path := by
  fun_induction search succ n frames seen with
  | case1 seen => cases hpath
  | case2 seen x rest events found hrest ih =>
    rw [hrest] at ih
    have hlater : .back path ∈ events := (List.mem_cons.1 hpath).resolve_left (by simp)
    exact ih h.leave hlinked.tail hlater
  | case3 seen x u us rest hu _ ih =>
    have hns : u ∉ seen := by simpa using hu.2
    have hedge : u ∈ succ x := h.open_subset (x, u :: us) List.mem_cons_self List.mem_cons_self
    exact ih (h.enter hns) (List.isChain_cons_cons.2 ⟨hedge, hlinked⟩) hpath
  | case4 seen x u us rest hu events found hrest ih =>
    have hseen : u < n → u ∈ seen := by simpa using hu
    rw [hrest] at ih hpath
    have hlater (hmem : .back path ∈ events) : IsCircuit succ path := ih (h.skip hseen) hlinked hmem
    dsimp only at hpath
    split at hpath
    · next hon =>
      rcases List.mem_cons.1 hpath with heq | hmem
      · have hedge : u ∈ succ x := h.open_subset (x, u :: us) List.mem_cons_self List.mem_cons_self
        rw [Event.back.inj heq]
        exact hlinked.isCircuit h.nodup (List.contains_iff_mem.1 hon) hedge
      · exact hlater hmem
    · exact hlater hpath

theorem isCircuit_of_searchAll (roots seen : List Nat)
    (hclosed : ∀ v ∈ seen, ∀ w ∈ succ v, w < n → w ∈ seen)
    (hpath : .back path ∈ searchAll succ n roots seen) : IsCircuit succ path := by
  induction roots generalizing seen with
  | nil => cases hpath
  | cons r roots ih =>
    rw [searchAll] at hpath
    split at hpath
    · exact ih seen hclosed hpath
    · have hstart : Searching succ n [(r, succ r)] (r :: seen) := .root r hclosed
      rcases List.mem_append.1 hpath with hfirst | hlater
      · exact isCircuit_of_back _ _ hstart (List.isChain_singleton r) hfirst
      · exact ih _ (search_searched _ _ hstart).closed hlater

theorem reflTransGen_of_isChain {r : Nat → Nat → Prop} (h : path.IsChain r) (hv : v ∈ path) :
    (∀ first ∈ path.head?, Relation.ReflTransGen r first v) ∧
      ∀ last ∈ path.getLast?, Relation.ReflTransGen r v last := by
  have hordered : path.Pairwise (Relation.ReflTransGen r) := (h.imp fun _ _ hedge => .single hedge).pairwise
  constructor
  · intro first hfirst
    rw [← List.head_of_mem_head? hfirst]
    exact hordered.rel_head hv
  · intro last hlast
    obtain ⟨-, rfl⟩ := List.mem_getLast?_eq_getLast hlast
    exact hordered.rel_getLast hv

namespace IsCircuit

variable {path : List Nat} {v w : Nat} (h : IsCircuit succ path)

include h

theorem transGen (hv : v ∈ path) (hw : w ∈ path) : Relation.TransGen (fun v w => w ∈ succ v) v w := by
  have hfirst := List.head?_eq_some_head h.nonempty
  have hlast := List.getLast?_eq_some_getLast h.nonempty
  have hleave := (reflTransGen_of_isChain h.chain hv).2 _ hlast
  exact (Relation.TransGen.tail' hleave (h.closed _ hfirst _ hlast)).trans_left
    ((reflTransGen_of_isChain h.chain hw).1 _ hfirst)

theorem exists_next (hv : v ∈ path) : ∃ w ∈ path, w ∈ succ v := by
  obtain ⟨before, after, rfl⟩ := List.append_of_mem hv
  cases after with
  | nil =>
    have hfirst := List.head?_eq_some_head h.nonempty
    exact ⟨_, List.mem_of_head? hfirst, h.closed _ hfirst v (by simp)⟩
  | cons w after =>
    have hedge := (List.isChain_cons_cons.1 (List.isChain_append.1 h.chain).2.1).1
    exact ⟨w, by simp, hedge⟩

end IsCircuit

end ContractFlow.Graph
