import ContractFlow.Query
import Mathlib.Data.List.Basic

/-! This module contains facts about the outcomes of questions. -/

namespace ContractFlow

/-! Outcomes -/

namespace Outcome

variable {α β : Type} {m : Type → Type} [Monad m]
variable {f : α → Except Fault β} {xs : List α} {ys : List β}

theorem exists_of_isOk {ε : Type} {e : Except ε α} (h : e.isOk = true) : ∃ a, e = .ok a := by
  cases e with
  | error e => cases h
  | ok a => exact ⟨a, rfl⟩

theorem bind_eq_ok {e : Except Fault α} {b : β} : e >>= f = .ok b ↔ ∃ a, e = .ok a ∧ f a = .ok b := by
  cases e with
  | error e => simp [bind, Except.bind]
  | ok a => simp [bind, Except.bind]

theorem pure_eq_ok {a b : α} : (pure a : Except Fault α) = .ok b ↔ a = b := by
  simp [pure, Except.pure]

theorem exists_filterMapM_eq_ok {f : α → Except Fault (Option β)} :
    (∃ ys, xs.filterMapM f = .ok ys) ↔ ∀ x ∈ xs, ∃ y, f x = .ok y := by
  induction xs with
  | nil => simp [pure, Except.pure]
  | cons x xs ih =>
    simp only [List.filterMapM_cons, bind_eq_ok, List.forall_mem_cons, ← ih]
    constructor
    · rintro ⟨ys, y, hy, hys⟩
      refine ⟨⟨y, hy⟩, ?_⟩
      cases y with
      | none => exact ⟨ys, hys⟩
      | some z =>
        obtain ⟨zs, hzs, -⟩ := bind_eq_ok.1 hys
        exact ⟨zs, hzs⟩
    · rintro ⟨⟨y, hy⟩, ys, hys⟩
      cases y with
      | none => exact ⟨ys, none, hy, hys⟩
      | some z => exact ⟨z :: ys, some z, hy, bind_eq_ok.2 ⟨ys, hys, rfl⟩⟩

theorem mem_of_filterMapM_eq_ok {f : α → Except Fault (Option β)} (h : xs.filterMapM f = .ok ys) (y : β) :
    y ∈ ys ↔ ∃ x ∈ xs, f x = .ok (some y) := by
  induction xs generalizing ys with
  | nil =>
    obtain rfl := pure_eq_ok.1 h
    simp
  | cons x xs ih =>
    rw [List.filterMapM_cons] at h
    obtain ⟨o, ho, h⟩ := bind_eq_ok.1 h
    rw [List.exists_mem_cons_iff, ho]
    cases o with
    | none => simp [ih h]
    | some z =>
      obtain ⟨zs, hzs, h⟩ := bind_eq_ok.1 h
      obtain rfl := pure_eq_ok.1 h
      simp [ih hzs, eq_comm]

theorem mapM_eq_filterMapM [LawfulMonad m] (f : α → m β) (xs : List α) :
    xs.mapM f = xs.filterMapM fun x => some <$> f x := by
  induction xs with
  | nil => rfl
  | cons x xs ih => simp only [List.mapM_cons, List.filterMapM_cons, ih, bind_map_left]

theorem exists_mapM_eq_ok : (∃ ys, xs.mapM f = .ok ys) ↔ ∀ x ∈ xs, ∃ y, f x = .ok y := by
  rw [mapM_eq_filterMapM, exists_filterMapM_eq_ok]
  refine forall₂_congr fun x _ => ?_
  cases f x <;> simp

theorem mem_of_mapM_eq_ok (h : xs.mapM f = .ok ys) (y : β) : y ∈ ys ↔ ∃ x ∈ xs, f x = .ok y := by
  rw [mapM_eq_filterMapM] at h
  rw [mem_of_filterMapM_eq_ok h]
  refine exists_congr fun x => and_congr_right fun _ => ?_
  cases f x <;> simp

theorem mem_flatten_of_mapM_eq_ok {f : α → Except Fault (List β)} {yss : List (List β)} (h : xs.mapM f = .ok yss)
    {y : β} : y ∈ yss.flatten ↔ ∃ x ∈ xs, ∃ ys, f x = .ok ys ∧ y ∈ ys := by
  simp only [List.mem_flatten, mem_of_mapM_eq_ok h]
  grind

theorem forall₂_of_mapM_eq_ok (h : xs.mapM f = .ok ys) : List.Forall₂ (fun x y => f x = .ok y) xs ys := by
  induction xs generalizing ys with
  | nil =>
    obtain rfl := pure_eq_ok.1 h
    exact .nil
  | cons x xs ih =>
    simp only [List.mapM_cons, bind_eq_ok, pure_eq_ok] at h
    obtain ⟨y, hy, ys, hys, rfl⟩ := h
    exact .cons hy (ih hys)

theorem map_of_filterMapM_eq_ok {γ : Type} {f : α → Except Fault (Option β)} {g : β → γ}
    {k : α → Option γ} (hf : ∀ x o, f x = .ok o → o.map g = k x) (h : xs.filterMapM f = .ok ys) :
    ys.map g = xs.filterMap k := by
  induction xs generalizing ys with
  | nil =>
    obtain rfl := pure_eq_ok.1 h
    rfl
  | cons x xs ih =>
    rw [List.filterMapM_cons] at h
    obtain ⟨o, ho, h⟩ := bind_eq_ok.1 h
    rw [List.filterMap_cons, ← hf x o ho]
    cases o with
    | none => exact ih h
    | some z =>
      obtain ⟨zs, hzs, h⟩ := bind_eq_ok.1 h
      obtain rfl := pure_eq_ok.1 h
      simp [ih hzs]

theorem filterM_cons [LawfulMonad m] {f : α → m Bool} {x : α} : (x :: xs).filterM f = f x >>= fun b =>
    xs.filterM f >>= fun ys => pure (if b then x :: ys else ys) := by
  have haux : ∀ (zs acc : List α), zs.filterAuxM f acc
      = zs.filterAuxM f [] >>= fun ys => (pure (ys ++ acc) : m (List α)) := by
    intro zs
    induction zs with
    | nil => simp [List.filterAuxM]
    | cons z zs ih =>
      intro acc
      simp only [List.filterAuxM, bind_assoc]
      refine bind_congr fun b => ?_
      rw [ih (cond b (z :: acc) acc), ih (cond b [z] [])]
      cases b <;> simp
  unfold List.filterM
  simp only [List.filterAuxM, bind_assoc]
  refine bind_congr fun b => ?_
  rw [haux xs (cond b [x] [])]
  cases b <;> simp

theorem filterM_eq_filterMapM [LawfulMonad m] (f : α → m Bool) (xs : List α) :
    xs.filterM f = xs.filterMapM fun x => (fun b => if b then some x else none) <$> f x := by
  induction xs with
  | nil => simp [List.filterM, List.filterAuxM]
  | cons x xs ih =>
    rw [filterM_cons, List.filterMapM_cons, ih, bind_map_left]
    refine bind_congr fun b => ?_
    cases b <;> simp

theorem exists_filterM_eq_ok {f : α → Except Fault Bool} :
    (∃ ys, xs.filterM f = .ok ys) ↔ ∀ x ∈ xs, ∃ b, f x = .ok b := by
  rw [filterM_eq_filterMapM, exists_filterMapM_eq_ok]
  refine forall₂_congr fun x _ => ?_
  cases f x <;> simp

theorem mem_of_filterM_eq_ok {f : α → Except Fault Bool} {ys : List α} (h : xs.filterM f = .ok ys) (x : α) :
    x ∈ ys ↔ x ∈ xs ∧ f x = .ok true := by
  rw [filterM_eq_filterMapM] at h
  rw [mem_of_filterMapM_eq_ok h]
  constructor
  · rintro ⟨z, hz, hfz⟩
    cases hf : f z with
    | error e => simp [hf] at hfz
    | ok b => cases b <;> simp_all
  · rintro ⟨hx, hfx⟩
    exact ⟨x, hx, by simp [hfx]⟩

theorem exists_anyM_eq_ok {f : α → Except Fault Bool} (h : ∀ x ∈ xs, ∃ b, f x = .ok b) :
    ∃ b, xs.anyM f = .ok b ∧ (b = true ↔ ∃ x ∈ xs, f x = .ok true) := by
  induction xs with
  | nil => exact ⟨false, rfl, by simp⟩
  | cons x xs ih =>
    obtain ⟨⟨b, hb⟩, hrest⟩ := List.forall_mem_cons.1 h
    rw [List.anyM_cons, hb]
    cases b with
    | true => exact ⟨true, rfl, by simp [hb]⟩
    | false =>
      obtain ⟨b', hb', hiff⟩ := ih hrest
      exact ⟨b', hb', by simp [hiff, hb]⟩

def Succeeds (e : Except Fault α) (P : α → Prop := fun _ => True) : Prop :=
  ∃ a, e = .ok a ∧ P a

namespace Succeeds

variable {P : α → Prop} {Q : β → Prop}
variable {e : Except Fault α} {xs : List α}

theorem pure {a : α} (h : P a) : Succeeds (pure a) P :=
  ⟨a, rfl, h⟩

theorem bind {f : α → Except Fault β} (he : Succeeds e P) (hf : ∀ a, P a → Succeeds (f a) Q) :
    Succeeds (e >>= f) Q := by
  obtain ⟨a, rfl, ha⟩ := he
  exact hf a ha

theorem mono {R : α → Prop} (he : Succeeds e P) (h : ∀ a, P a → R a) : Succeeds e R := by
  obtain ⟨a, rfl, ha⟩ := he
  exact ⟨a, rfl, h a ha⟩

theorem trivial (he : Succeeds e P) : Succeeds e :=
  he.mono fun _ _ => True.intro

theorem exists_eq (he : Succeeds e P) : ∃ a, e = .ok a :=
  he.imp fun _ ha => ha.1

theorem mapM {f : α → Except Fault β} (h : ∀ x ∈ xs, Succeeds (f x) Q) :
    Succeeds (xs.mapM f) fun ys => ∀ y ∈ ys, Q y := by
  obtain ⟨ys, hys⟩ := exists_mapM_eq_ok.2 fun x hx => (h x hx).exists_eq
  refine ⟨ys, hys, fun y hy => ?_⟩
  obtain ⟨x, hx, hfx⟩ := (mem_of_mapM_eq_ok hys y).1 hy
  obtain ⟨_, hfx', hQ⟩ := h x hx
  obtain rfl := Except.ok.inj (hfx.symm.trans hfx')
  exact hQ

theorem filterMapM {f : α → Except Fault (Option β)} (h : ∀ x ∈ xs, Succeeds (f x)) : Succeeds (xs.filterMapM f) := by
  obtain ⟨ys, hys⟩ := exists_filterMapM_eq_ok.2 fun x hx => (h x hx).exists_eq
  exact ⟨ys, hys, True.intro⟩

theorem filterM {f : α → Except Fault Bool} (h : ∀ x ∈ xs, Succeeds (f x)) : Succeeds (xs.filterM f) := by
  obtain ⟨ys, hys⟩ := exists_filterM_eq_ok.2 fun x hx => (h x hx).exists_eq
  exact ⟨ys, hys, True.intro⟩

theorem anyM {f : α → Except Fault Bool} (h : ∀ x ∈ xs, Succeeds (f x)) : Succeeds (xs.anyM f) := by
  obtain ⟨b, hb, -⟩ := exists_anyM_eq_ok fun x hx => (h x hx).exists_eq
  exact ⟨b, hb, True.intro⟩

end Succeeds

end Outcome

namespace Query

variable {α β : Type}
variable {q : Query α} {x : α} {f : α → Query β}

@[simp]
theorem outcome_liftM (x : Except Fault α) : (liftM x : Query α).outcome = x := rfl

theorem outcome_orReport_eq_some {incident : Fault → Incident} :
    (q.orReport incident).outcome = .ok (some x) ↔ q.outcome = .ok x := by
  unfold orReport
  cases q.outcome with
  | ok y => simp
  | error e => simp

theorem lawfulMonad : LawfulMonad Query := LawfulMonad.mk' Query
  (by
    intro α x
    show x.andThen ok = x
    unfold andThen
    split
    · next e he => cases x; simp_all
    · next a ha => cases x; simp_all [ok])
  (by
    intro α β x f
    show (ok x).andThen f = f x
    simp [andThen, ok])
  (by
    intro α β γ x f g
    show (x.andThen f).andThen g = x.andThen fun a => (f a).andThen g
    unfold andThen
    cases x.outcome with
    | error e => rfl
    | ok a =>
      simp only
      cases (f a).outcome with
      | error e => rfl
      | ok b => simp)

theorem outcome_bind_eq_ok {b : β} : (q >>= f).outcome = .ok b ↔ ∃ a, q.outcome = .ok a ∧ (f a).outcome = .ok b := by
  rw [outcome_bind]
  cases q.outcome with
  | error e => simp [Except.bind]
  | ok a => simp [Except.bind]

theorem getD_eq_of_outcome {y : α} (h : q.outcome = .ok x) : q.getD y = x := by
  unfold getD
  rw [h]

theorem mem_getD_nil_iff {q : Query (List α)} : x ∈ q.getD [] ↔ ∃ xs, q.outcome = .ok xs ∧ x ∈ xs := by
  unfold getD
  cases q.outcome with
  | ok xs => simp
  | error e => simp

theorem outcome_filterMapM (f : α → Query (Option β)) (xs : List α) :
    (xs.filterMapM f).outcome = xs.filterMapM fun x => (f x).outcome := by
  have := lawfulMonad
  induction xs with
  | nil => rfl
  | cons x xs ih =>
    rw [List.filterMapM_cons, List.filterMapM_cons, outcome_bind, ← ih]
    refine congrArg _ (funext fun y => ?_)
    cases y with
    | none => rfl
    | some z => rw [outcome_bind]; rfl

theorem outcome_map (g : α → β) (q : Query α) : (g <$> q).outcome = g <$> q.outcome := by
  show (q.andThen _).outcome = _
  unfold andThen
  cases q.outcome <;> rfl

theorem outcome_mapM (f : α → Query β) (xs : List α) : (xs.mapM f).outcome = xs.mapM fun x => (f x).outcome := by
  have := lawfulMonad
  simp only [Outcome.mapM_eq_filterMapM, outcome_filterMapM, outcome_map]

theorem mem_flatten_iff {f : α → Query (List β)} {xs : List α} {yss : List (List β)} {y : β}
    (h : (xs.mapM f).outcome = .ok yss) :
    y ∈ yss.flatten ↔ ∃ x ∈ xs, ∃ ys, (f x).outcome = .ok ys ∧ y ∈ ys := by
  rw [outcome_mapM] at h
  exact Outcome.mem_flatten_of_mapM_eq_ok h

theorem outcome_filterM (f : α → Query Bool) (xs : List α) :
    (xs.filterM f).outcome = xs.filterM fun x => (f x).outcome := by
  have := lawfulMonad
  simp only [Outcome.filterM_eq_filterMapM, outcome_filterMapM, outcome_map]

theorem outcome_anyM (f : α → Query Bool) (xs : List α) : (xs.anyM f).outcome = xs.anyM fun x => (f x).outcome := by
  induction xs with
  | nil => rfl
  | cons x xs ih =>
    rw [List.anyM_cons, List.anyM_cons, outcome_bind, ← ih]
    refine congrArg _ (funext fun b => ?_)
    cases b <;> rfl

def Gives (q : Query α) (P : α → Prop) : Prop :=
  ∀ a, q.outcome = .ok a → P a

namespace Gives

variable {P : α → Prop} {Q : β → Prop}

theorem pure {a : α} (h : P a) : (pure a : Query α).Gives P := by
  rintro _ ⟨⟩
  exact h

theorem bind (h : ∀ a, q.outcome = .ok a → (f a).Gives Q) : (q >>= f).Gives Q := by
  intro b hb
  obtain ⟨a, ha, hb⟩ := outcome_bind_eq_ok.1 hb
  exact h a ha b hb

end Gives

def Answers (q : Query α) (P : α → Prop := fun _ => True) : Prop :=
  Outcome.Succeeds q.outcome P

namespace Answers

variable {P : α → Prop} {Q : β → Prop}

theorem pure {a : α} (h : P a) : (pure a : Query α).Answers P :=
  ⟨a, rfl, h⟩

theorem liftM {e : Except Fault α} (h : Outcome.Succeeds e P) : (liftM e : Query α).Answers P :=
  h

theorem bind (hq : q.Answers P) (hf : ∀ a, P a → (f a).Answers Q) : (q >>= f).Answers Q := by
  obtain ⟨a, ha, hP⟩ := hq
  obtain ⟨b, hb, hQ⟩ := hf a hP
  exact ⟨b, outcome_bind_eq_ok.2 ⟨a, ha, hb⟩, hQ⟩

theorem bind_ok {a : α} (hq : q.outcome = .ok a) (hf : (f a).Answers Q) : (q >>= f).Answers Q :=
  bind ⟨a, hq, rfl⟩ fun _ heq => heq ▸ hf

theorem trivial (h : q.Answers P) : q.Answers :=
  Outcome.Succeeds.trivial h

theorem mapM {xs : List α} (h : ∀ x ∈ xs, (f x).Answers Q) : (xs.mapM f).Answers fun ys => ∀ y ∈ ys, Q y := by
  unfold Answers
  rw [outcome_mapM]
  exact .mapM h

theorem filterMapM {f : α → Query (Option β)} {xs : List α} (h : ∀ x ∈ xs, (f x).Answers) :
    (xs.filterMapM f).Answers := by
  unfold Answers
  rw [outcome_filterMapM]
  exact .filterMapM h

theorem filterM {f : α → Query Bool} {xs : List α} (h : ∀ x ∈ xs, (f x).Answers) : (xs.filterM f).Answers := by
  unfold Answers
  rw [outcome_filterM]
  exact .filterM h

theorem anyM {f : α → Query Bool} {xs : List α} (h : ∀ x ∈ xs, (f x).Answers) : (xs.anyM f).Answers := by
  unfold Answers
  rw [outcome_anyM]
  exact .anyM h

end Answers

structure Settles (q : Query α) (h : Prop) (P : α → Prop) : Prop where
  gives : q.Gives P
  answers : h → q.Answers

namespace Settles

variable {h : Prop} {P : α → Prop} {Q : β → Prop}

theorem pure {a : α} (ha : P a) : (pure a : Query α).Settles h P :=
  ⟨.pure ha, fun _ => .pure trivial⟩

theorem bind (hq : h → q.Answers P) (hf : ∀ a, q.outcome = .ok a → (f a).Settles h Q) : (q >>= f).Settles h Q := by
  refine ⟨.bind fun a ha => (hf a ha).gives, fun hh => ?_⟩
  obtain ⟨a, ha, -⟩ := hq hh
  exact .bind ⟨a, ha, ha⟩ fun b hb => (hf b hb).answers hh

end Settles

def Reports (q : Query α) (P : Incident → Prop) : Prop :=
  ∀ i ∈ q.incidents, P i

theorem incidents_bind_ok {a : α} (h : q.outcome = .ok a) : (q >>= f).incidents = q.incidents ++ (f a).incidents := by
  show (q.andThen f).incidents = _
  unfold andThen
  rw [h]

namespace Reports

variable {P : Incident → Prop}
variable {xs : List α}

theorem pure {a : α} : (pure a : Query α).Reports P :=
  fun _ hi => absurd hi List.not_mem_nil

theorem liftM {e : Except Fault α} : (liftM e : Query α).Reports P :=
  fun _ hi => absurd hi List.not_mem_nil

theorem bind (hq : q.Reports P) (hf : ∀ a, (f a).Reports P) : (q >>= f).Reports P := by
  intro i hi
  change i ∈ (q.andThen f).incidents at hi
  unfold andThen at hi
  split at hi
  · exact hq i hi
  · next a _ => exact (List.mem_append.1 hi).elim (hq i) (hf a i)

theorem filterMapM {f : α → Query (Option β)} (h : ∀ x, (f x).Reports P) : (xs.filterMapM f).Reports P := by
  have := lawfulMonad
  induction xs with
  | nil => exact .pure
  | cons x xs ih =>
    rw [List.filterMapM_cons]
    refine .bind (h x) fun y => ?_
    cases y with
    | none => exact ih
    | some y => exact .bind ih fun _ => .pure

theorem mapM (h : ∀ x, (f x).Reports P) : (xs.mapM f).Reports P := by
  have := lawfulMonad
  rw [Outcome.mapM_eq_filterMapM]
  exact .filterMapM fun x => .bind (h x) fun _ => .pure

theorem forM {f : α → Query Unit} (h : ∀ x, (f x).Reports P) : (xs.forM f).Reports P := by
  induction xs with
  | nil => exact .pure
  | cons x xs ih => exact .bind (h x) fun _ => ih

end Reports

theorem exists_of_mapM_ok {xs : List α} {ys : List β} (h : (xs.mapM f).outcome = .ok ys) (hx : x ∈ xs) :
    ∃ y, (f x).outcome = .ok y ∧ (f x).incidents ⊆ (xs.mapM f).incidents := by
  have := lawfulMonad
  induction xs generalizing ys with
  | nil => cases hx
  | cons z xs ih =>
    rw [List.mapM_cons] at h ⊢
    obtain ⟨y, hy, h⟩ := outcome_bind_eq_ok.1 h
    obtain ⟨rest, hrest, -⟩ := outcome_bind_eq_ok.1 h
    rw [incidents_bind_ok hy, incidents_bind_ok hrest]
    obtain rfl | hx := List.mem_cons.1 hx
    · exact ⟨y, hy, List.subset_append_left _ _⟩
    · obtain ⟨y, hy, hsub⟩ := ih hrest hx
      refine ⟨y, hy, fun i hi => ?_⟩
      exact List.mem_append_right _ (List.mem_append_left _ (hsub hi))

theorem of_forM_ok {f : α → Query Unit} {xs : List α} (h : (xs.forM f).outcome = .ok ()) (hx : x ∈ xs) :
    (f x).outcome = .ok () ∧ (f x).incidents ⊆ (xs.forM f).incidents := by
  induction xs with
  | nil => cases hx
  | cons z xs ih =>
    show _ ∧ _ ⊆ (f z >>= fun _ => xs.forM f).incidents
    obtain ⟨_, hz, h⟩ := outcome_bind_eq_ok.1 h
    rw [incidents_bind_ok hz]
    obtain rfl | hx := List.mem_cons.1 hx
    · exact ⟨hz, List.subset_append_left _ _⟩
    · obtain ⟨hok, hsub⟩ := ih h hx
      exact ⟨hok, fun i hi => List.mem_append_right _ (hsub hi)⟩

end Query

end ContractFlow
