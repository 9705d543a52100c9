import ContractFlow.Proofs.Control.Trace
import ContractFlow.Proofs.Control.Visit

/-!
This module shows that each part of a body is built as if it stood alone, and what is built around it only adds to it.
-/

namespace ContractFlow

namespace Draft

variable {d d₁ d₂ d₃ : Draft} {ps s : List Nat} {u v w : List NodeId} {n : NodeId} {low i j k : Nat}

theorem lt_size_of_visited (hn : n ∈ d.visited k) : k < d.size :=
  lt_size_of_node? (Option.mem_toList.1 hn)

structure Grows (d d' : Draft) : Prop where
  points : d.points.toList <+: d'.points.toList
  edge : ∀ i j, d.HasEdge i j → d'.HasEdge i j

namespace Grows

theorem refl (d : Draft) : d.Grows d :=
  ⟨List.prefix_rfl, fun _ _ h => h⟩

theorem trans (h₁ : d.Grows d₁) (h₂ : d₁.Grows d₂) : d.Grows d₂ :=
  ⟨h₁.points.trans h₂.points, fun i j h => h₂.edge i j (h₁.edge i j h)⟩

theorem connect (h : d.Grows d₁) (ps : Pending) (target : Nat) : d.Grows (d₁.connect ps target) where
  points := by
    rw [points_connect]
    exact h.points
  edge i j he := (hasEdge_connect ps target).2 (.inl (h.edge i j he))

theorem le (h : d.Grows d₁) : d.size ≤ d₁.size :=
  h.points.length_le

theorem visited_eq (h : d.Grows d₁) (hk : k < d.size) : d₁.visited k = d.visited k :=
  visited_of_prefix h.points hk

theorem way (h : d.Grows d₁) (hway : d.Way low d.size i j w) : d₁.Way low d₁.size i j w := by
  induction hway with
  | start => exact .start
  | step _ hedge hlow hhigh ih =>
    rw [← h.visited_eq hhigh]
    exact ih.step (h.edge _ _ hedge) hlow (Nat.lt_of_lt_of_le hhigh h.le)

end Grows

theorem Region.grows (h : Region ps d d₁ s) (hd : d.Sound) : d.Grows d₁ where
  points := by
    obtain ⟨made, hmade, -⟩ := h.points
    exact ⟨made, hmade.symm⟩
  edge i j he := by
    by_cases hj : j = exit
    · subst hj
      exact (h.toExit i).2 (.inl he)
    · exact (h.old i j (hd.edge i j he).2.2.1 hj).2 he

def Adds (d d' : Draft) (visits : List NodeId) : Prop :=
  ∃ laid, d.Lays d' laid ∧ laid.Sublist visits

theorem Lays.adds (h : d.Lays d₁ v) : d.Adds d₁ v :=
  ⟨v, h, .refl v⟩

namespace Adds

theorem trans (h₁ : d.Adds d₁ v) (h₂ : d₁.Adds d₂ w) : d.Adds d₂ (v ++ w) := by
  obtain ⟨laid₁, hlays₁, hsub₁⟩ := h₁
  obtain ⟨laid₂, hlays₂, hsub₂⟩ := h₂
  exact ⟨laid₁ ++ laid₂, hlays₁.trans hlays₂, hsub₁.append hsub₂⟩

theorem visits_of_visited (h : d.Adds d₁ v) (hk : d.size ≤ k) (hn : n ∈ d₁.visited k) : n ∈ v := by
  obtain ⟨laid, ⟨made, hpoints, rfl⟩, hsub⟩ := h
  apply hsub.mem
  have hk : d.points.toList.length ≤ k := hk
  obtain ⟨p, hp, hnode⟩ := getElem?_of_node? (Option.mem_toList.1 hn)
  rw [hpoints, List.getElem?_append_right hk] at hp
  exact List.mem_filterMap.2 ⟨p, List.mem_of_getElem? hp, hnode⟩

theorem visited_before (h : d.Adds d₁ v) (hv : n ∉ v) (hn : n ∈ d₁.visited k) : n ∈ d.visited k := by
  have hk : k < d.size := by
    by_contra hk
    exact hv (h.visits_of_visited (Nat.le_of_not_lt hk) hn)
  obtain ⟨laid, ⟨made, hpoints, -⟩, -⟩ := h
  exact visited_of_prefix ⟨made, hpoints.symm⟩ hk ▸ hn

theorem visited_split (h₁ : d.Adds d₁ v) (h₂ : d₁.Adds d₂ w) (hnodup : (v ++ w).Nodup) (hk : d.size ≤ k)
    (hn : n ∈ d₂.visited k) : (n ∈ v → n ∈ d₁.visited k) ∧ (n ∈ w → d₁.size ≤ k) := by
  constructor
  · intro hv
    exact h₂.visited_before (fun hw => List.disjoint_of_nodup_append hnodup hv hw) hn
  · intro hw
    by_contra hlt
    obtain ⟨laid, ⟨made, hpoints, -⟩, -⟩ := h₂
    have hn₁ : n ∈ d₁.visited k := visited_of_prefix ⟨made, hpoints.symm⟩ (Nat.lt_of_not_le hlt) ▸ hn
    exact List.disjoint_of_nodup_append hnodup (h₁.visits_of_visited hk hn₁) hw

theorem visited_split₃ (h₁ : d.Adds d₁ u) (h₂ : d₁.Adds d₂ v) (h₃ : d₂.Adds d₃ w) (hnodup : (u ++ v ++ w).Nodup)
    (hk : d.size ≤ k) (hn : n ∈ d₃.visited k) :
    (n ∈ u → n ∈ d₁.visited k) ∧ (n ∈ v → d₁.size ≤ k ∧ n ∈ d₂.visited k) ∧ (n ∈ w → d₂.size ≤ k) := by
  obtain ⟨hfront, hback⟩ := (h₁.trans h₂).visited_split h₃ hnodup hk hn
  refine ⟨fun hu => ?_, fun hv => ?_, hback⟩
  · exact (h₁.visited_split h₂ hnodup.of_append_left hk (hfront (List.mem_append_left _ hu))).1 hu
  · have hn₂ := hfront (List.mem_append_right _ hv)
    exact ⟨(h₁.visited_split h₂ hnodup.of_append_left hk hn₂).2 hv, hn₂⟩

end Adds

end Draft

namespace Control

variable {b c c' first second condition yes no : Control} {n : NodeId}

theorem adds_build (owner : CallableId) (c : Control) (ps : Pending) (d : Draft) :
    d.Adds (c.build owner noBody ps d).2 c.visits :=
  ⟨_, lays_build owner c ps d, made_sublist_visits _ c⟩

theorem adds_if_nonempty {d d' : Draft} {x y : Exits} {latch : Pending} {v : List NodeId}
    (h : d.Adds d' v) : d.Adds (if latch.isEmpty then (x, d) else (y, d')).2 v := by
  split
  · exact ⟨[], .refl d, List.nil_sublist v⟩
  · exact h

inductive IsPart (c : Control) : Control → Prop
  | refl : IsPart c c
  | first {first second : Control} : IsPart c first → IsPart c (.seq first second)
  | second {first second : Control} : IsPart c second → IsPart c (.seq first second)
  | left {first second : Control} : IsPart c first → IsPart c (.either first second)
  | right {first second : Control} : IsPart c second → IsPart c (.either first second)
  | label {kind : EdgeKind} {part : Control} : IsPart c part → IsPart c (.label kind part)
  | join {part : Control} : IsPart c part → IsPart c (.join part)
  | condition {condition yes no : Control} : IsPart c condition → IsPart c (.branch condition yes no)
  | yes {condition yes no : Control} : IsPart c yes → IsPart c (.branch condition yes no)
  | no {condition yes no : Control} : IsPart c no → IsPart c (.branch condition yes no)
  | test {condition body next : Control} : IsPart c condition → IsPart c (.loop condition body next)
  | body {condition body next : Control} : IsPart c body → IsPart c (.loop condition body next)
  | next {condition body next : Control} : IsPart c next → IsPart c (.loop condition body next)
  | doBody {body condition : Control} : IsPart c body → IsPart c (.doLoop body condition)
  | doTest {body condition : Control} : IsPart c condition → IsPart c (.doLoop body condition)

namespace IsPart

theorem trans (h : c.IsPart c') (h' : c'.IsPart b) : c.IsPart b := by
  induction h' with
  | refl => exact h
  | first _ ih => exact .first ih
  | second _ ih => exact .second ih
  | left _ ih => exact .left ih
  | right _ ih => exact .right ih
  | label _ ih => exact .label ih
  | join _ ih => exact .join ih
  | condition _ ih => exact .condition ih
  | yes _ ih => exact .yes ih
  | no _ ih => exact .no ih
  | test _ ih => exact .test ih
  | body _ ih => exact .body ih
  | next _ ih => exact .next ih
  | doBody _ ih => exact .doBody ih
  | doTest _ ih => exact .doTest ih

theorem all {cs : List Control} (hc : c ∈ cs) : c.IsPart (.all cs) := by
  induction cs with
  | nil => simp at hc
  | cons c' cs ih =>
    rcases List.mem_cons.1 hc with rfl | hc
    · exact .first .refl
    · exact .second (ih hc)

theorem anyOf {cs : List Control} (hc : c ∈ cs) : c.IsPart (.anyOf cs) := by
  induction cs with
  | nil => simp at hc
  | cons c' cs ih =>
    rcases List.mem_cons.1 hc with rfl | hc
    · exact .left .refl
    · exact .right (ih hc)

theorem sublist (h : c.IsPart b) : c.visits.Sublist b.visits := by
  induction h with
  | refl => exact List.Sublist.refl _
  | first _ ih | left _ ih | doBody _ ih => exact ih.trans (List.sublist_append_left _ _)
  | second _ ih | right _ ih | no _ ih | next _ ih | doTest _ ih => exact ih.trans (List.sublist_append_right _ _)
  | label _ ih => exact ih
  | join _ ih => exact ih
  | condition _ ih | test _ ih => exact ih.trans ((List.sublist_append_left _ _).trans (List.sublist_append_left _ _))
  | yes _ ih | body _ ih => exact ih.trans ((List.sublist_append_right _ _).trans (List.sublist_append_left _ _))

theorem visits (h : c.IsPart b) (hn : n ∈ c.visits) : n ∈ b.visits :=
  h.sublist.mem hn

end IsPart

structure Stands (owner : CallableId) (c : Control) (k : Nat) (d : Draft) : Prop where
  built : ∃ qs d₁, d₁.Placed (Pending.sources qs) ∧ d₁.size ≤ k ∧
    (c.build owner noBody qs d₁).2.Grows d ∧ k < (c.build owner noBody qs d₁).2.size

theorem Stands.grows {owner : CallableId} {k : Nat} {d d' : Draft} (h : Stands owner c k d) (hg : d.Grows d') :
    Stands owner c k d' := by
  obtain ⟨qs, d₁, hp, hle, hgrows, hlt⟩ := h.built
  exact ⟨qs, d₁, hp, hle, hgrows.trans hg, hlt⟩

theorem grows_build (owner : CallableId) (c : Control) {ps : Pending} {d : Draft}
    (hp : d.Placed ps.sources) : d.Grows (c.build owner noBody ps d).2 := by
  obtain ⟨s, h⟩ := traced_build owner c hp
  exact h.toRegion.grows hp.toSound

theorem grows_if_nonempty (owner : CallableId) (c : Control) {latch : Pending} {d : Draft}
    (hp : d.Placed latch.sources) :
    d.Grows (if latch.isEmpty then (⟨[], [], [], []⟩, d) else c.build owner noBody latch d).2 := by
  split
  · exact .refl d
  · exact grows_build owner c hp

theorem not_mem_right {v w : List NodeId} (h : (v ++ w).Nodup) (hn : n ∈ v) : n ∉ w :=
  fun hw => List.disjoint_of_nodup_append h hn hw

theorem not_mem_left {v w : List NodeId} (h : (v ++ w).Nodup) (hn : n ∈ w) : n ∉ v :=
  fun hv => List.disjoint_of_nodup_append h hv hn

section Stands

variable {owner : CallableId} {ps : Pending} {d : Draft} {k : Nat}

theorem stands_self (hp : d.Placed ps.sources) (hk : d.size ≤ k)
    (hn : n ∈ (b.build owner noBody ps d).2.visited k) : Stands owner b k (b.build owner noBody ps d).2 :=
  ⟨ps, d, hp, hk, .refl _, Draft.lt_size_of_visited hn⟩

theorem stands_if_nonempty {latch : Pending} (hk : d.size ≤ k)
    (h : n ∈ (b.build owner noBody latch d).2.visited k → Stands owner c k (b.build owner noBody latch d).2)
    (hn : n ∈ (if latch.isEmpty then (⟨[], [], [], []⟩, d) else b.build owner noBody latch d).2.visited k) :
    Stands owner c k (if latch.isEmpty then (⟨[], [], [], []⟩, d) else b.build owner noBody latch d).2 := by
  by_cases hlatch : latch.isEmpty = true
  · rw [if_pos hlatch] at hn
    exact absurd (Draft.lt_size_of_visited hn) (Nat.not_lt_of_le hk)
  · rw [if_neg hlatch] at hn ⊢
    exact h hn

theorem IsPart.stands (h : c.IsPart b) (hnodup : b.visits.Nodup) (hc : n ∈ c.visits)
    (hp : d.Placed ps.sources) (hk : d.size ≤ k) (hn : n ∈ (b.build owner noBody ps d).2.visited k) :
    Stands owner c k (b.build owner noBody ps d).2 := by
  induction b generalizing ps d with
  | seq first second ih₁ ih₂ =>
    obtain ⟨s₁, h₁⟩ := traced_build owner first hp
    have hp₁ := h₁.placed_fall hp
    obtain ⟨hfirst, hsecond⟩ :=
      (adds_build owner first ps d).visited_split (adds_build owner second _ _) hnodup hk hn
    cases h with
    | refl => exact stands_self hp hk hn
    | first h =>
      exact (ih₁ h hnodup.of_append_left hp hk (hfirst (h.visits hc))).grows (grows_build owner second hp₁)
    | second h => exact ih₂ h hnodup.of_append_right hp₁ (hsecond (h.visits hc)) hn
  | either first second ih₁ ih₂ =>
    obtain ⟨s₁, h₁⟩ := traced_build owner first hp
    have hp₁ := h₁.placed_start hp
    obtain ⟨hfirst, hsecond⟩ :=
      (adds_build owner first ps d).visited_split (adds_build owner second _ _) hnodup hk hn
    cases h with
    | refl => exact stands_self hp hk hn
    | left h =>
      exact (ih₁ h hnodup.of_append_left hp hk (hfirst (h.visits hc))).grows (grows_build owner second hp₁)
    | right h => exact ih₂ h hnodup.of_append_right hp₁ (hsecond (h.visits hc)) hn
  | label kind part ih =>
    cases h with
    | refl => exact stands_self hp hk hn
    | label h => exact ih h hnodup (Pending.sources_relabel kind ps ▸ hp) hk hn
  | join part ih =>
    obtain ⟨s₁, h₁⟩ := traced_build owner part hp
    cases h with
    | refl => exact stands_self hp hk hn
    | join h =>
      have hmerge := (Draft.Lays.refl (part.build owner noBody ps d).2).merge owner
        (part.build owner noBody ps d).1.fall
      have hsound := (h₁.placed_fall hp).toSound
      exact (ih h hnodup hp hk (hmerge.adds.visited_before List.not_mem_nil hn)).grows
        ((Built.merge hsound owner).grows hsound)
  | branch condition yes no ih₁ ih₂ ih₃ =>
    obtain ⟨s₁, h₁⟩ := traced_build owner condition hp
    have hp₁ := h₁.placed_true hp condition
    obtain ⟨s₂, h₂⟩ := traced_build owner yes hp₁
    have hp₂ := h₂.placed_false hp₁
    have hyes := grows_build owner yes hp₁
    have hno := grows_build owner no hp₂
    obtain ⟨hin₁, hin₂, hin₃⟩ := (adds_build owner condition ps d).visited_split₃ (adds_build owner yes _ _)
      (adds_build owner no _ _) hnodup hk hn
    cases h with
    | refl => exact stands_self hp hk hn
    | condition h =>
      exact (ih₁ h hnodup.of_append_left.of_append_left hp hk (hin₁ (h.visits hc))).grows (hyes.trans hno)
    | yes h =>
      obtain ⟨hk₁, hn₁⟩ := hin₂ (h.visits hc)
      exact (ih₂ h hnodup.of_append_left.of_append_right hp₁ hk₁ hn₁).grows hno
    | no h => exact ih₃ h hnodup.of_append_right hp₂ (hin₃ (h.visits hc)) hn
  | loop condition body next ih₁ ih₂ ih₃ =>
    have hp₀ := Built.placed_header hp owner
    obtain ⟨s₁, h₁⟩ := traced_build owner condition hp₀
    have hp₁ := h₁.placed_true hp₀ condition
    obtain ⟨s₂, h₂⟩ := traced_build owner body hp₁
    have hp₂ := h₂.placed_latch hp₁
    have hbody := grows_build owner body hp₁
    have hnext := grows_if_nonempty owner next hp₂
    have hcondition := adds_build owner condition (d.extend ⟨.join, owner⟩ ps).1 (d.extend ⟨.join, owner⟩ ps).2
    change _ ∈ (Draft.connect _ _ _).visited k at hn
    rw [Draft.visited_connect] at hn
    have hk₀ := (((Draft.Lays.refl d).join owner ps).adds.visited_split
      ((hcondition.trans (adds_build owner body _ _)).trans (adds_if_nonempty (adds_build owner next _ _)))
      hnodup hk hn).2 (h.visits hc)
    obtain ⟨hin₁, hin₂, hin₃⟩ := hcondition.visited_split₃ (adds_build owner body _ _)
      (adds_if_nonempty (adds_build owner next _ _)) hnodup hk₀ hn
    cases h with
    | refl => exact stands_self hp hk (by rwa [← Draft.visited_connect] at hn)
    | test h =>
      exact (ih₁ h hnodup.of_append_left.of_append_left hp₀ hk₀ (hin₁ (h.visits hc))).grows
        ((hbody.trans hnext).connect _ _)
    | body h =>
      obtain ⟨hk₁, hn₁⟩ := hin₂ (h.visits hc)
      exact (ih₂ h hnodup.of_append_left.of_append_right hp₁ hk₁ hn₁).grows (hnext.connect _ _)
    | next h =>
      have hk₂ := hin₃ (h.visits hc)
      exact (stands_if_nonempty hk₂ (ih₃ h hnodup.of_append_right hp₂ hk₂) hn).grows ((Draft.Grows.refl _).connect _ _)
  | doLoop body condition ih₁ ih₂ =>
    have hp₀ := Built.placed_header hp owner
    obtain ⟨s₁, h₁⟩ := traced_build owner body hp₀
    have hp₁ := h₁.placed_latch hp₀
    have hcondition := grows_if_nonempty owner condition hp₁
    have hbody := adds_build owner body (d.extend ⟨.join, owner⟩ ps).1 (d.extend ⟨.join, owner⟩ ps).2
    change _ ∈ (Draft.connect _ _ _).visited k at hn
    rw [Draft.visited_connect] at hn
    have hk₀ := (((Draft.Lays.refl d).join owner ps).adds.visited_split
      (hbody.trans (adds_if_nonempty (adds_build owner condition _ _))) hnodup hk hn).2 (h.visits hc)
    obtain ⟨hin₁, hin₂⟩ := hbody.visited_split (adds_if_nonempty (adds_build owner condition _ _)) hnodup hk₀ hn
    cases h with
    | refl => exact stands_self hp hk (by rwa [← Draft.visited_connect] at hn)
    | doBody h =>
      exact (ih₁ h hnodup.of_append_left hp₀ hk₀ (hin₁ (h.visits hc))).grows (hcondition.connect _ _)
    | doTest h =>
      have hk₁ := hin₂ (h.visits hc)
      exact (stands_if_nonempty hk₁ (ih₂ h hnodup.of_append_right hp₁ hk₁) hn).grows ((Draft.Grows.refl _).connect _ _)
  | _ => cases h; exact stands_self hp hk hn

end Stands

inductive Finishes (n : NodeId) : Control → List NodeId → Prop
  | visit : Finishes n (.visit n) []
  | first {first second : Control} {w w' : List NodeId} :
      Finishes n first w → w' ∈ second.traces .falls → Finishes n (.seq first second) (w ++ w')
  | second {first second : Control} {w : List NodeId} : Finishes n second w → Finishes n (.seq first second) w
  | yes {condition yes no : Control} {w : List NodeId} :
      Finishes n yes w → Finishes n (.branch condition yes no) w
  | no {condition yes no : Control} {w : List NodeId} :
      Finishes n no w → Finishes n (.branch condition yes no) w

namespace Finishes

variable {owner : CallableId} {ps : Pending} {d : Draft} {k : Nat} {w w' : List NodeId}

theorem mem_visits (h : Finishes n c w) : n ∈ c.visits := by
  induction h with
  | visit => exact List.mem_singleton_self n
  | first _ _ ih => exact List.mem_append_left _ ih
  | second _ ih | no _ ih => exact List.mem_append_right _ ih
  | yes _ ih => exact List.mem_append_left _ (List.mem_append_right _ ih)

theorem exists_way (h : Finishes n c w) (hnodup : c.visits.Nodup) (hp : d.Placed ps.sources) (hk : d.size ≤ k)
    (hn : n ∈ (c.build owner noBody ps d).2.visited k) :
    ∃ j ∈ (c.build owner noBody ps d).1.fall.sources,
      (c.build owner noBody ps d).2.Way d.size (c.build owner noBody ps d).2.size k j w := by
  induction h generalizing ps d with
  | visit =>
    have hlt := Draft.lt_size_of_visited hn
    have hsize : ((Control.visit n).build owner noBody ps d).2.size = d.size + 1 := Draft.size_extend d _ ps
    obtain rfl : k = d.size := by omega
    exact ⟨d.size, List.mem_singleton_self _, .start⟩
  | @first first second w w' h hw' ih =>
    obtain ⟨s₁, h₁⟩ := traced_build owner first hp
    have hp₁ := h₁.placed_fall hp
    obtain ⟨s₂, h₂⟩ := traced_build owner second hp₁
    have hn₁ := (adds_build owner second _ _).visited_before (not_mem_right hnodup h.mem_visits) hn
    obtain ⟨i, hi, hway⟩ := ih hnodup.of_append_left hp hk hn₁
    obtain ⟨j, hj, hway'⟩ := (h₂.leads .falls i hi w').1 hw'
    exact ⟨j, hj, ((grows_build owner second hp₁).way hway).trans (hway'.mono h₁.le (Nat.le_refl _))⟩
  | @second first second w h ih =>
    obtain ⟨s₁, h₁⟩ := traced_build owner first hp
    have hp₁ := h₁.placed_fall hp
    have hin₂ := ((adds_build owner first ps d).visited_split (adds_build owner second _ _) hnodup hk hn).2
    obtain ⟨j, hj, hway⟩ := ih hnodup.of_append_right hp₁ (hin₂ h.mem_visits) hn
    exact ⟨j, hj, hway.mono h₁.le (Nat.le_refl _)⟩
  | @yes condition yes no w h ih =>
    obtain ⟨s₁, h₁⟩ := traced_build owner condition hp
    have hp₁ := h₁.placed_true hp condition
    obtain ⟨s₂, h₂⟩ := traced_build owner yes hp₁
    have hp₂ := h₂.placed_false hp₁
    obtain ⟨-, hin₂, -⟩ := (adds_build owner condition ps d).visited_split₃ (adds_build owner yes _ _)
      (adds_build owner no _ _) hnodup hk hn
    obtain ⟨hk₁, hn₁⟩ := hin₂ h.mem_visits
    obtain ⟨j, hj, hway⟩ := ih hnodup.of_append_left.of_append_right hp₁ hk₁ hn₁
    refine ⟨j, ?_, ((grows_build owner no hp₂).way hway).mono h₁.le (Nat.le_refl _)⟩
    exact Traced.mem_sources_append.1 (.inl hj)
  | @no condition yes no w h ih =>
    obtain ⟨s₁, h₁⟩ := traced_build owner condition hp
    have hp₁ := h₁.placed_true hp condition
    obtain ⟨s₂, h₂⟩ := traced_build owner yes hp₁
    have hp₂ := h₂.placed_false hp₁
    obtain ⟨-, -, hin₃⟩ := (adds_build owner condition ps d).visited_split₃ (adds_build owner yes _ _)
      (adds_build owner no _ _) hnodup hk hn
    obtain ⟨j, hj, hway⟩ := ih hnodup.of_append_right hp₂ (hin₃ h.mem_visits) hn
    refine ⟨j, ?_, hway.mono (Nat.le_trans h₁.le h₂.le) (Nat.le_refl _)⟩
    exact Traced.mem_sources_append.1 (.inr hj)

end Finishes

end Control

namespace ControlGraph

variable {g : ControlGraph} {d : Draft} {low i j k : Nat} {path : List Nat} {n : NodeId} {t w w' : List NodeId}

theorem Run.way (hrun : g.Run path i) (hg : d.Grows g.toDraft) (hway : d.Way low d.size i j w) :
    ∃ path', g.Run path' j ∧ g.trace path' = g.trace path ++ w := by
  induction hway with
  | start => exact ⟨path, hrun, (List.append_nil _).symm⟩
  | @step j k w _ hedge _ hhigh ih =>
    obtain ⟨path', hrun', htrace⟩ := ih
    refine ⟨path' ++ [k], hrun'.step (mem_next_iff.2 (hg.edge j k hedge)), ?_⟩
    rw [trace_append_singleton, htrace, List.append_assoc, hg.visited_eq hhigh]

theorem mem_visited_iff : n ∈ g.toDraft.visited i ↔ g.node? i = some n := by
  unfold Draft.visited
  rw [Option.mem_toList]
  rfl

theorem Run.exists_at (hrun : g.Run path i) (hsound : g.Sound) (htrace : g.trace path = t ++ [n]) :
    ∃ path' j, g.Run path' j ∧ g.node? j = some n ∧ g.trace path' = t ++ [n] := by
  induction hrun with
  | entry =>
    rw [trace_entry hsound] at htrace
    simp at htrace
  | @step path i j hrun hnext ih =>
    rw [trace_append_singleton] at htrace
    cases hj : g.node? j with
    | none =>
      have hvisited : g.toDraft.visited j = [] :=
        List.eq_nil_iff_forall_not_mem.2 fun m hm => by simp [mem_visited_iff.1 hm] at hj
      rw [hvisited, List.append_nil] at htrace
      exact ih htrace
    | some m =>
      have hvisited : g.toDraft.visited j = [m] := by
        show (g.node? j).toList = [m]
        rw [hj]
        rfl
      rw [hvisited] at htrace
      obtain ⟨rfl, hm⟩ := List.append_inj' htrace rfl
      obtain rfl := (List.cons.inj hm).1
      refine ⟨_, j, hrun.step hnext, hj, ?_⟩
      rw [trace_append_singleton, hvisited]

section Body

variable {callable : CallableId} {body c : Control} (hk : (ofLayers callable [] body).node? k = some n)

include hk

theorem visited_build : (Draft.start callable).size ≤ k ∧
    n ∈ (body.build callable Control.noBody [(Draft.entry, .normal)] (.start callable)).2.visited k := by
  have hvisited := mem_visited_iff.2 hk
  constructor
  · by_contra hlt
    have hlow : k = Draft.entry ∨ k = Draft.exit := by
      have hlt : k < 2 := Nat.lt_of_not_le hlt
      unfold Draft.entry Draft.exit
      omega
    rw [(sound_ofLayers callable [] body).visited_eq_nil hlow] at hvisited
    simp at hvisited
  · change n ∈ (Draft.connect _ _ _).visited k at hvisited
    rw [Draft.visited_connect] at hvisited
    exact hvisited

theorem mem_visits_of_node? : n ∈ body.visits :=
  (Control.adds_build callable body _ _).visits_of_visited (visited_build hk).1 (visited_build hk).2

theorem Run.exists_behind {m : NodeId} (hpart : c.IsPart body) (hnodup : body.visits.Nodup)
    (hfinish : c.Finishes n (w ++ [m])) (hrun : (ofLayers callable [] body).Run path k) :
    ∃ path' j, (ofLayers callable [] body).Run path' j ∧ (ofLayers callable [] body).node? j = some m ∧
      (ofLayers callable [] body).trace path' = (ofLayers callable [] body).trace path ++ w ++ [m] := by
  have hstart := Draft.placed_start callable
  obtain ⟨hsize, hbuilt⟩ := visited_build hk
  obtain ⟨qs, d₁, hp, hle, hgrows, hlt⟩ := (hpart.stands hnodup hfinish.mem_visits hstart hsize hbuilt).built
  rw [hgrows.visited_eq hlt] at hbuilt
  obtain ⟨j, -, hway⟩ := hfinish.exists_way (hnodup.sublist hpart.sublist) hp hle hbuilt
  obtain ⟨path', hrun', htrace⟩ := hrun.way (hgrows.connect _ _) hway
  rw [← List.append_assoc] at htrace
  exact hrun'.exists_at (sound_ofLayers callable [] body) htrace

end Body

end ControlGraph

end ContractFlow
