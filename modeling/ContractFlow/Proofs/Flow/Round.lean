import ContractFlow.Proofs.Flow.Search

/-!
This module says what a round of a search for flows does if all that it asks has an answer, and what a whole search
keeps: an account of the steps from the nodes that it has opened, and a record of how it came to them.
-/

namespace ContractFlow.Search

def Rules.reenters (r : Rules) (chain : List CallableId) (y : FlowNode) (change : Int) : Bool :=
  0 < change && (r.owner y).any chain.contains

inductive Stepped (r : Rules) (x : FlowNode) (chain : List CallableId) (y : FlowNode) (change : Int) (next : Nat)
    (s s' : Search) : Prop
  | cut : r.isBeyond next = .ok true → s'.truncated = true → s'.marks = s.marks → s'.queue = s.queue →
      s'.reached = s.reached → Stepped r x chain y change next s s'
  | left : r.isBeyond next = .ok false → s'.truncated = (s.truncated || r.reenters chain y change) →
      ((r.isBarrier y).outcome = .ok true ∨ ∃ d ≤ next, s.depth? y = some d) → s'.marks = s.marks →
      s'.queue = s.queue → s'.reached = s.reached → Stepped r x chain y change next s s'
  | entered : r.isBeyond next = .ok false → s'.truncated = (s.truncated || r.reenters chain y change) →
      (r.isBarrier y).outcome = .ok false → (∀ d, s.depth? y = some d → next < d) →
      s'.marks = (y, ⟨next, nextChain chain (r.owner y) change⟩) :: s.marks → s'.queue = s.queue ++ [(y, next)] →
      s'.reached = (if s.reached.any (·.1 == y) then s.reached else s.reached ++ [(y, some x)]) →
      Stepped r x chain y change next s s'

inductive Walked (r : Rules) (x : FlowNode) (depth : Nat) (chain : List CallableId) :
    List (FlowNode × Int) → Search → Search → Prop
  | nil {s : Search} : Walked r x depth chain [] s s
  | cons {y : FlowNode} {change : Int} {steps : List (FlowNode × Int)} {s t s' : Search} :
      Stepped r x chain y change ((depth : Int) + change).toNat s t → Walked r x depth chain steps t s' →
      Walked r x depth chain ((y, change) :: steps) s s'

inductive Round (r : Rules) (s s' : Search) : Prop
  | done : s.queue = [] → s' = s → Round r s s'
  | opened {x : FlowNode} {depth : Nat} {rest : List (FlowNode × Nat)} {steps : List (FlowNode × Int)}
      {t : Search} : s.queue = (x, depth) :: rest → (r.steps x).outcome = .ok steps →
      t.marks = s.marks → t.queue = rest → t.reached = s.reached → t.truncated = s.truncated →
      Walked r x depth (((s.marks.lookup x).map (·.chain)).getD []) steps t s' → Round r s s'

variable {r : Rules} {x y : FlowNode} {depth next : Nat} {change : Int} {chain : List CallableId} {s s' t : Search}

theorem outcome_note_eq_ok {α : Type} {q : Query α} :
    (s.note q).notes.outcome = .ok () ↔ s.notes.outcome = .ok () ∧ ∃ a, q.outcome = .ok a := by
  refine ⟨fun h => ?_, fun ⟨h, hq⟩ => outcome_note h hq⟩
  obtain ⟨⟨⟩, hs, h⟩ := Query.outcome_bind_eq_ok.1 h
  obtain ⟨a, ha, -⟩ := Query.outcome_bind_eq_ok.1 h
  exact ⟨hs, a, ha⟩

theorem stepped_of_near (htruncated : t.truncated = (s.truncated || r.reenters chain y change))
    (hmarks : t.marks = s.marks) (hqueue : t.queue = s.queue) (hreached : t.reached = s.reached)
    (hnotes : (if (t.marks.lookup y).any (fun mark => decide (mark.depth ≤ next)) then t
      else if (r.isBarrier y).getD false then t.note (r.isBarrier y)
      else (t.note (r.isBarrier y)).enter x y
        ⟨next, nextChain chain (r.owner y) change⟩).notes.outcome = .ok ()) :
    t.notes.outcome = .ok () ∧ (r.isBeyond next = .ok false → Stepped r x chain y change next s
      (if (t.marks.lookup y).any (fun mark => decide (mark.depth ≤ next)) then t
      else if (r.isBarrier y).getD false then t.note (r.isBarrier y)
      else (t.note (r.isBarrier y)).enter x y ⟨next, nextChain chain (r.owner y) change⟩)) := by
  have hknown : (t.marks.lookup y).any (fun mark => decide (mark.depth ≤ next)) = true ↔
      ∃ d ≤ next, s.depth? y = some d := by
    rw [hmarks]
    unfold depth?
    cases s.marks.lookup y with
    | none => simp
    | some mark => simp
  split at hnotes
  · next h =>
    rw [if_pos h]
    exact ⟨hnotes, fun hnear => .left hnear htruncated (.inr (hknown.1 h)) hmarks hqueue hreached⟩
  · next h =>
    rw [if_neg h]
    have hnoted : (t.note (r.isBarrier y)).notes.outcome = .ok () := by
      revert hnotes
      cases (r.isBarrier y).getD false <;> exact id
    obtain ⟨ht, b, hb⟩ := outcome_note_eq_ok.1 hnoted
    refine ⟨ht, fun hnear => ?_⟩
    rw [Query.getD_eq_of_outcome hb]
    cases b with
    | true => exact .left hnear htruncated (.inl hb) hmarks hqueue hreached
    | false =>
      refine .entered hnear htruncated hb (fun d hd => ?_) (congrArg _ hmarks) (congrArg (· ++ _) hqueue)
        (hreached ▸ rfl)
      exact Nat.not_le.1 fun hle => h (hknown.2 ⟨d, hle, hd⟩)

theorem stepped_take (hnotes : (take r x depth chain s (y, change)).notes.outcome = .ok ()) :
    s.notes.outcome = .ok () ∧
      Stepped r x chain y change ((depth : Int) + change).toNat s (take r x depth chain s (y, change)) := by
  generalize hnext : ((depth : Int) + change).toNat = next
  unfold take at hnotes ⊢
  simp only [hnext] at hnotes ⊢
  split at hnotes
  · next hfar =>
    obtain ⟨hs, b, hb⟩ := outcome_note_eq_ok.1 hnotes
    rw [if_pos hfar]
    rw [Query.getD_eq_of_outcome hb] at hfar
    exact ⟨hs, .cut (hfar ▸ hb) rfl rfl rfl rfl⟩
  · next hfar =>
    rw [if_neg hfar]
    have hasked (h : (s.note (liftM (r.isBeyond next) : Query Bool)).notes.outcome = .ok ()) :
        s.notes.outcome = .ok () ∧ r.isBeyond next = .ok false := by
      obtain ⟨hs, b, hb⟩ := outcome_note_eq_ok.1 h
      rw [Query.getD_eq_of_outcome hb, Bool.not_eq_true] at hfar
      exact ⟨hs, hfar ▸ hb⟩
    split at hnotes
    · next hagain =>
      have htruncated : true = (s.truncated || r.reenters chain y change) := by
        rw [show r.reenters chain y change = true from hagain, Bool.or_true]
      rw [if_pos hagain]
      obtain ⟨ht, hstep⟩ := stepped_of_near (s := s) (t := { s.note _ with truncated := true }) htruncated rfl rfl rfl
        hnotes
      exact ⟨(hasked ht).1, hstep (hasked ht).2⟩
    · next hagain =>
      have htruncated : s.truncated = (s.truncated || r.reenters chain y change) := by
        rw [show r.reenters chain y change = false from Bool.not_eq_true _ ▸ hagain, Bool.or_false]
      rw [if_neg hagain]
      obtain ⟨ht, hstep⟩ := stepped_of_near (s := s) (t := s.note _) htruncated rfl rfl rfl hnotes
      exact ⟨(hasked ht).1, hstep (hasked ht).2⟩

theorem walked_foldl {steps : List (FlowNode × Int)}
    (hnotes : (steps.foldl (take r x depth chain) s).notes.outcome = .ok ()) :
    s.notes.outcome = .ok () ∧ Walked r x depth chain steps s (steps.foldl (take r x depth chain) s) := by
  induction steps generalizing s with
  | nil => exact ⟨hnotes, .nil⟩
  | cons step steps ih =>
    obtain ⟨ht, hrest⟩ := ih hnotes
    obtain ⟨hs, hstep⟩ := stepped_take ht
    exact ⟨hs, .cons hstep hrest⟩

theorem Walked.keeps {P : Search → Prop} {steps : List (FlowNode × Int)} (h : Walked r x depth chain steps s s')
    (hstep : ∀ {y change s s'}, (y, change) ∈ steps →
      Stepped r x chain y change ((depth : Int) + change).toNat s s' → P s → P s') (hs : P s) : P s' := by
  induction h with
  | nil => exact hs
  | cons h _ ih => exact ih (fun hmem => hstep (List.mem_cons_of_mem _ hmem)) (hstep List.mem_cons_self h hs)

theorem round_next (hnotes : (s.next r).notes.outcome = .ok ()) : s.notes.outcome = .ok () ∧ Round r s (s.next r) := by
  unfold Search.next at hnotes ⊢
  split
  · next hqueue =>
    simp only [hqueue] at hnotes
    exact ⟨hnotes, .done hqueue rfl⟩
  · next x depth rest hqueue =>
    simp only [hqueue] at hnotes
    obtain ⟨hnoted, -⟩ := walked_foldl hnotes
    obtain ⟨hs, steps, hsteps⟩ := outcome_note_eq_ok.1 hnoted
    rw [expand_eq hsteps] at hnotes ⊢
    have hwalked := (walked_foldl hnotes).2
    exact ⟨hs, .opened (t := Search.note { s with queue := rest } (r.steps x)) hqueue hsteps rfl rfl rfl rfl hwalked⟩

theorem iterate_of_round {P : Search → Prop} (hround : ∀ {s s'}, Round r s s' → P s → P s') (hs : P s) (k : Nat)
    (hnotes : ((Search.next r)^[k] s).notes.outcome = .ok ()) : P ((Search.next r)^[k] s) := by
  induction k with
  | zero => exact hs
  | succ k ih =>
    rw [Function.iterate_succ_apply'] at hnotes ⊢
    obtain ⟨hasked, h⟩ := round_next hnotes
    exact hround h (ih hasked)

/-! What has come of the steps -/

inductive Settled (r : Rules) (s : Search) (mark : Mark) (y : FlowNode) (change : Int) : Prop
  | cut : r.isBeyond ((mark.depth : Int) + change).toNat = .ok true → s.truncated = true →
      Settled r s mark y change
  | taken : r.isBeyond ((mark.depth : Int) + change).toNat = .ok false →
      (r.reenters mark.chain y change = true → s.truncated = true) →
      ((r.isBarrier y).outcome = .ok true ∨ ∃ d ≤ ((mark.depth : Int) + change).toNat, s.depth? y = some d) →
      Settled r s mark y change

structure Advances (s s' : Search) : Prop where
  truncated : s.truncated = true → s'.truncated = true
  improves : ∀ x d, s.depth? x = some d → ∃ d' ≤ d, s'.depth? x = some d'

structure Accounts (r : Rules) (s : Search) (waiting : List (FlowNode × Nat)) : Prop where
  waits : ∀ x d, (x, d) ∈ waiting → ∃ mark, s.marks.lookup x = some mark ∧ mark.depth ≤ d
  settled : ∀ x mark, s.marks.lookup x = some mark → (x, mark.depth) ∈ waiting ∨
    ∃ steps, (r.steps x).outcome = .ok steps ∧ ∀ y change, (y, change) ∈ steps → s.Settled r mark y change
  reached : ∀ x, x ∈ s.reached.map (·.1) ↔ (s.marks.lookup x).isSome

variable {z : FlowNode} {s'' : Search} {mark : Mark} {steps : List (FlowNode × Int)} {waiting : List (FlowNode × Nat)}

theorem Advances.refl (s : Search) : s.Advances s :=
  ⟨id, fun _ d hd => ⟨d, le_rfl, hd⟩⟩

theorem Advances.trans (h : s.Advances s') (h' : s'.Advances s'') : s.Advances s'' := by
  refine ⟨h'.truncated ∘ h.truncated, fun x d hd => ?_⟩
  obtain ⟨d', hle, hd'⟩ := h.improves x d hd
  obtain ⟨d'', hle', hd''⟩ := h'.improves x d' hd'
  exact ⟨d'', hle'.trans hle, hd''⟩

theorem Advances.of_marks (hmarks : s'.marks = s.marks) (htruncated : s.truncated = true → s'.truncated = true) :
    s.Advances s' :=
  ⟨htruncated, fun z d hd => ⟨d, le_rfl, (depth?_of_marks hmarks z).trans hd⟩⟩

theorem Settled.mono (h : s.Settled r mark y change) (hs : s.Advances s') : s'.Settled r mark y change := by
  cases h with
  | cut hfar htruncated => exact .cut hfar (hs.truncated htruncated)
  | taken hnear hagain hwhy =>
    refine .taken hnear (fun h => hs.truncated (hagain h)) (hwhy.imp_right fun ⟨d, hle, hd⟩ => ?_)
    obtain ⟨d', hle', hd'⟩ := hs.improves y d hd
    exact ⟨d', hle'.trans hle, hd'⟩

theorem Accounts.of_marks (h : s.Accounts r waiting) (hmarks : s'.marks = s.marks) (hreached : s'.reached = s.reached)
    (hs : s.Advances s') : s'.Accounts r waiting := by
  refine ⟨hmarks ▸ h.waits, fun z mark hz => ?_, by rw [hreached, hmarks]; exact h.reached⟩
  refine (h.settled z mark (hmarks ▸ hz)).imp_right fun ⟨steps, hsteps, hall⟩ => ⟨steps, hsteps, ?_⟩
  exact fun y change hmem => (hall y change hmem).mono hs

namespace Stepped

theorem advances (h : Stepped r x chain y change next s s') : s.Advances s' := by
  cases h with
  | cut _ htruncated hmarks _ _ => exact .of_marks hmarks fun _ => htruncated
  | left _ htruncated _ hmarks _ _ => exact .of_marks hmarks fun h => by rw [htruncated, h, Bool.true_or]
  | entered _ htruncated _ hless hmarks _ _ =>
    refine ⟨fun h => by rw [htruncated, h, Bool.true_or], fun z d hd => ?_⟩
    rw [depth?_of_entered hmarks]
    split
    · next hz => exact ⟨next, (hless d (hz ▸ hd)).le, rfl⟩
    · exact ⟨d, le_rfl, hd⟩

theorem settled (h : Stepped r x chain y change ((depth : Int) + change).toNat s s') :
    s'.Settled r ⟨depth, chain⟩ y change := by
  cases h with
  | cut hfar htruncated _ _ _ => exact .cut hfar htruncated
  | left hnear htruncated hwhy hmarks _ _ =>
    refine .taken hnear (fun h => ?_) (hwhy.imp_right fun ⟨d, hle, hd⟩ => ⟨d, hle, ?_⟩)
    · rw [htruncated, h, Bool.or_true]
    · exact (depth?_of_marks hmarks y).trans hd
  | entered hnear htruncated _ _ hmarks _ _ =>
    refine .taken hnear (fun h => ?_) (.inr ⟨_, le_rfl, ?_⟩)
    · rw [htruncated, h, Bool.or_true]
    · rw [depth?_of_entered hmarks, if_pos rfl]

theorem accounts (h : Stepped r x chain y change next s s') (hs : s.Accounts r (waiting ++ s.queue)) :
    s'.Accounts r (waiting ++ s'.queue) := by
  have hadvances := h.advances
  cases h with
  | cut _ _ hmarks hqueue hreached => exact hqueue ▸ hs.of_marks hmarks hreached hadvances
  | left _ _ _ hmarks hqueue hreached => exact hqueue ▸ hs.of_marks hmarks hreached hadvances
  | entered _ _ _ hless hmarks hqueue hreached =>
    have hlookup := lookup_of_entered hmarks
    refine ⟨fun z d hz => ?_, fun z mark hz => ?_, fun z => ?_⟩
    · rw [hqueue, ← List.append_assoc, List.mem_append, List.mem_singleton] at hz
      rw [hlookup]
      split
      · next heq =>
        subst heq
        rcases hz with hz | hz
        · obtain ⟨mark, hmark, hle⟩ := hs.waits z d hz
          exact ⟨_, rfl, (hless mark.depth (depth?_of_lookup hmark)).le.trans hle⟩
        · cases hz
          exact ⟨_, rfl, le_rfl⟩
      · next hne => exact hs.waits z d (hz.resolve_right fun heq => hne (Prod.mk.inj heq).1)
    · rw [hlookup] at hz
      rw [hqueue, ← List.append_assoc, List.mem_append, List.mem_singleton]
      split at hz
      · next heq =>
        cases hz
        exact .inl (.inr (heq ▸ rfl))
      · refine (hs.settled z mark hz).imp .inl fun ⟨steps, hsteps, hall⟩ => ⟨steps, hsteps, ?_⟩
        exact fun y change hmem => (hall y change hmem).mono hadvances
    · have hmember : z ∈ s'.reached.map (·.1) ↔ z = y ∨ z ∈ s.reached.map (·.1) := by
        rw [hreached]
        exact @mem_reached_enter s x y ⟨0, []⟩ z
      rw [hmember, hlookup, hs.reached]
      split
      · next hz => simp [hz]
      · next hz => simp [hz]

end Stepped

def HasOpened (s : Search) (x : FlowNode) (opened : Mark) : Prop :=
  ∃ mark, s.marks.lookup x = some mark ∧ (mark = opened ∨ mark.depth < opened.depth)

theorem Stepped.hasOpened {opened : Mark} (h : Stepped r x chain y change next s s') (hs : s.HasOpened z opened) :
    s'.HasOpened z opened := by
  obtain ⟨mark, hmark, hless⟩ := hs
  cases h with
  | cut _ _ hmarks _ _ => exact ⟨mark, hmarks ▸ hmark, hless⟩
  | left _ _ _ hmarks _ _ => exact ⟨mark, hmarks ▸ hmark, hless⟩
  | entered _ _ _ hnext hmarks _ _ =>
    by_cases hz : z = y
    · refine ⟨_, by rw [lookup_of_entered hmarks, if_pos hz], .inr ?_⟩
      have hlt := hnext mark.depth (depth?_of_lookup (hz ▸ hmark))
      rcases hless with rfl | hless
      · exact hlt
      · exact hlt.trans hless
    · exact ⟨mark, by rw [lookup_of_entered hmarks, if_neg hz, hmark], hless⟩

theorem Walked.advances (h : Walked r x depth chain steps s s') : s.Advances s' := by
  induction h with
  | nil => exact .refl _
  | cons hstep _ ih => exact hstep.advances.trans ih

theorem Walked.accounts (h : Walked r x depth chain steps s s') (hs : s.Accounts r (waiting ++ s.queue)) :
    s'.Accounts r (waiting ++ s'.queue) :=
  h.keeps (P := fun s => s.Accounts r (waiting ++ s.queue)) (fun _ hstep => hstep.accounts) hs

theorem Walked.hasOpened {opened : Mark} (h : Walked r x depth chain steps s s') (hs : s.HasOpened z opened) :
    s'.HasOpened z opened :=
  h.keeps (fun _ hstep => hstep.hasOpened) hs

theorem Walked.settled (h : Walked r x depth chain steps s s') (hmem : (y, change) ∈ steps) :
    s'.Settled r ⟨depth, chain⟩ y change := by
  induction h with
  | nil => simp at hmem
  | cons hstep hrest ih =>
    rcases List.mem_cons.1 hmem with heq | hmem
    · obtain ⟨rfl, rfl⟩ := Prod.mk.inj heq
      exact hstep.settled.mono hrest.advances
    · exact ih hmem

theorem Round.accounts (h : Round r s s') (hs : s.Accounts r s.queue) : s'.Accounts r s'.queue := by
  cases h with
  | done _ heq => exact heq ▸ hs
  | @opened x depth rest steps t hqueue hsteps hmarks hrest hreached htruncated hwalked =>
    have hstart : t.Accounts r ([(x, depth)] ++ t.queue) := by
      rw [hrest, List.singleton_append, ← hqueue]
      exact hs.of_marks hmarks hreached (.of_marks hmarks htruncated.trans)
    obtain ⟨mark, hmark, hle⟩ := hs.waits x depth (hqueue ▸ List.mem_cons_self)
    rw [hmark] at hwalked
    -- `x` is opened with its mark, unless it has been reached less deep since it began to wait
    obtain ⟨last, hlast, hless⟩ : s'.HasOpened x ⟨depth, mark.chain⟩ := by
      refine hwalked.hasOpened ⟨mark, hmarks ▸ hmark, ?_⟩
      rcases hle.eq_or_lt with heq | hlt
      · exact .inl (by rw [← heq])
      · exact .inr hlt
    have hend := hwalked.accounts hstart
    refine ⟨fun z d hz => hend.waits z d (List.mem_append_right _ hz), fun z mark' hz => ?_, hend.reached⟩
    refine (hend.settled z mark' hz).elim (fun hmem => ?_) .inr
    rcases List.mem_append.1 hmem with hmem | hmem
    · obtain ⟨rfl, hdepth⟩ := Prod.mk.inj (List.mem_singleton.1 hmem)
      obtain rfl := Option.some.inj (hlast.symm.trans hz)
      obtain rfl := hless.resolve_right (hdepth ▸ Nat.lt_irrefl _)
      exact .inr ⟨steps, hsteps, fun y change hmem => hwalked.settled hmem⟩
    · exact .inl hmem

theorem lookup_start (source : FlowNode) (owner : Option CallableId) (x : FlowNode) :
    (start source owner).marks.lookup x = if x = source then some ⟨0, owner.toList⟩ else none :=
  lookup_of_entered (s := { start source owner with marks := [] }) rfl x

theorem depth?_start (source : FlowNode) (owner : Option CallableId) : (start source owner).depth? source = some 0 :=
  depth?_of_lookup ((lookup_start source owner source).trans (if_pos rfl))

theorem accounts_start (source : FlowNode) (owner : Option CallableId) :
    (start source owner).Accounts r (start source owner).queue := by
  have hlookup := lookup_start source owner
  refine ⟨fun x d hx => ?_, fun x mark hx => ?_, fun x => ?_⟩
  · cases List.mem_singleton.1 hx
    exact ⟨_, by rw [hlookup, if_pos rfl], le_rfl⟩
  · rw [hlookup] at hx
    split at hx
    · next heq =>
      cases hx
      exact .inl (heq ▸ List.mem_cons_self)
    · cases hx
  · simp [start]

theorem Round.advances (h : Round r s s') : s.Advances s' := by
  cases h with
  | done _ heq => exact heq ▸ .refl s
  | opened _ _ hmarks _ _ htruncated hwalked => exact .trans (.of_marks hmarks htruncated.trans) hwalked.advances

theorem Round.depth?_eq_zero (h : Round r s s') (hs : s.depth? x = some 0) : s'.depth? x = some 0 := by
  obtain ⟨d, hd, hx⟩ := h.advances.improves x 0 hs
  exact Nat.le_zero.1 hd ▸ hx

/-! What is on record -/

structure Records (R : List (FlowNode × Option FlowNode) → Prop) (W : FlowNode → Nat → Prop) (s : Search)
    (waiting : List (FlowNode × Nat)) : Prop where
  record : R s.reached.reverse
  waits : ∀ x d, (x, d) ∈ waiting → W x d ∧ x ∈ s.reached.map (·.1)

def Rules.Extends (r : Rules) (R : List (FlowNode × Option FlowNode) → Prop) (W : FlowNode → Nat → Prop) : Prop :=
  ∀ {x y depth change steps record}, R record → W x depth → x ∈ record.map (·.1) → (r.steps x).outcome = .ok steps →
    (y, change) ∈ steps → r.isBeyond ((depth : Int) + change).toNat = .ok false →
    (r.isBarrier y).outcome = .ok false →
    W y ((depth : Int) + change).toNat ∧ (y ∉ record.map (·.1) → R ((y, some x) :: record))

section Record

variable {R : List (FlowNode × Option FlowNode) → Prop} {W : FlowNode → Nat → Prop} (hr : r.Extends R W)

include hr

theorem Stepped.records (h : Stepped r x chain y change ((depth : Int) + change).toNat s s')
    (hsteps : (r.steps x).outcome = .ok steps) (hmem : (y, change) ∈ steps)
    (hs : s.Records R W ((x, depth) :: s.queue)) : s'.Records R W ((x, depth) :: s'.queue) := by
  obtain ⟨hwaits, hx⟩ := hs.waits x depth List.mem_cons_self
  have hkept (hqueue : s'.queue = s.queue) (hreached : s'.reached = s.reached) :
      s'.Records R W ((x, depth) :: s'.queue) := by
    refine ⟨hreached ▸ hs.record, ?_⟩
    rw [hqueue, hreached]
    exact hs.waits
  cases h with
  | cut _ _ _ hqueue hreached => exact hkept hqueue hreached
  | left _ _ _ _ hqueue hreached => exact hkept hqueue hreached
  | entered hnear _ hbarrier _ _ hqueue hreached =>
    obtain ⟨hy, hrecord⟩ := hr hs.record hwaits (by simpa using hx) hsteps hmem hnear hbarrier
    have hmember (z : FlowNode) : z ∈ s'.reached.map (·.1) ↔ z = y ∨ z ∈ s.reached.map (·.1) := by
      rw [hreached]
      exact @mem_reached_enter s x y ⟨0, []⟩ z
    constructor
    · rw [hreached]
      split
      · exact hs.record
      · next hnew =>
        rw [List.reverse_append]
        exact hrecord (by simpa using hnew)
    · intro z d hz
      rw [hqueue, ← List.cons_append, List.mem_append, List.mem_singleton] at hz
      rw [hmember]
      rcases hz with hz | hz
      · exact (hs.waits z d hz).imp_right .inr
      · cases hz
        exact ⟨hy, .inl rfl⟩

theorem Round.records (h : Round r s s') (hs : s.Records R W s.queue) : s'.Records R W s'.queue := by
  cases h with
  | done _ heq => exact heq ▸ hs
  | @opened x depth _ _ _ hqueue hsteps _ hrest hreached _ hwalked =>
    have hend := hwalked.keeps (P := fun s => s.Records R W ((x, depth) :: s.queue))
      (fun hmem h => h.records hr hsteps hmem)
      ⟨hreached ▸ hs.record, by rw [hrest, hreached, ← hqueue]; exact hs.waits⟩
    exact ⟨hend.record, fun z d hz => hend.waits z d (List.mem_cons_of_mem _ hz)⟩

theorem record_iterate {source : FlowNode} (hrecord : R [(source, none)]) (hwaits : W source 0)
    (owner : Option CallableId) (k : Nat)
    (hnotes : ((Search.next r)^[k] (start source owner)).notes.outcome = .ok ()) :
    R ((Search.next r)^[k] (start source owner)).reached.reverse := by
  refine (iterate_of_round (P := fun s => s.Records R W s.queue) (fun h => h.records hr) ?_ k hnotes).record
  refine ⟨hrecord, fun x d hx => ?_⟩
  cases List.mem_singleton.1 hx
  exact ⟨hwaits, List.mem_singleton.2 rfl⟩

end Record

/-! What a search within a bound reaches -/

variable {limit : Int} {source : FlowNode}

theorem Accounts.exists_mark_of_leads (h : s.Accounts r [])
    (hbeyond : ∀ depth, r.isBeyond depth = .ok (decide (limit < depth))) (hsource : s.depth? source = some 0)
    (hx : r.Leads limit source x depth) : ∃ mark, s.marks.lookup x = some mark ∧ mark.depth ≤ depth := by
  induction hx with
  | start =>
    obtain ⟨mark, hmark, hdepth⟩ := Option.map_eq_some_iff.1 hsource
    exact ⟨mark, hmark, hdepth.le⟩
  | @step x y depth next change steps _ hsteps hmem hbarrier hnext hnear ih =>
    obtain ⟨mark, hmark, hle⟩ := ih
    obtain ⟨steps', hsteps', hall⟩ := (h.settled x mark hmark).resolve_left (by simp)
    obtain rfl := Except.ok.inj (hsteps.symm.trans hsteps')
    cases hall y change hmem with
    | cut hfar _ =>
      have hlimit : limit < ((((mark.depth : Int) + change).toNat : Nat) : Int) := by
        simpa using Except.ok.inj ((hbeyond _).symm.trans hfar)
      omega
    | taken _ _ hwhy =>
      rcases hwhy with hbars | ⟨d, hd, hy⟩
      · exact absurd (hbars.symm.trans hbarrier) (by simp)
      · obtain ⟨mark', hmark', rfl⟩ := Option.map_eq_some_iff.1 hy
        exact ⟨mark', hmark', by omega⟩

theorem extends_leads (hbeyond : ∀ depth, r.isBeyond depth = .ok (decide (limit < depth))) :
    r.Extends (fun record => ∀ x ∈ record.map (·.1), ∃ d, r.Leads limit source x d) (r.Leads limit source) := by
  intro x y depth change steps record hrecord hx _ hsteps hmem hnear hbarrier
  have hlimit : ((((depth : Int) + change).toNat : Nat) : Int) ≤ limit := by
    simpa using Except.ok.inj ((hbeyond _).symm.trans hnear)
  have hy : r.Leads limit source y ((depth : Int) + change).toNat := .step hx hsteps hmem hbarrier (by omega) hlimit
  exact ⟨hy, fun _ => List.forall_mem_cons.2 ⟨⟨_, hy⟩, hrecord⟩⟩

section Exact

variable (ha : r.IsAnswered limit source) (owner : Option CallableId)

include ha

theorem exists_leads_of_mem_reached {k : Nat} (hx : x ∈ ((Search.next r)^[k] (start source owner)).reached.map (·.1)) :
    ∃ d, r.Leads limit source x d := by
  have hsource : ∀ x ∈ [(source, (none : Option FlowNode))].map (·.1), ∃ d, r.Leads limit source x d := by
    intro x hx
    exact ⟨0, List.mem_singleton.1 hx ▸ .start⟩
  refine record_iterate (extends_leads ha.beyond) hsource .start owner k (outcome_notes_iterate ha owner k) x ?_
  simpa using hx

theorem mem_reached_iff {k : Nat} (hqueue : ((Search.next r)^[k] (start source owner)).queue = []) (x : FlowNode) :
    x ∈ ((Search.next r)^[k] (start source owner)).reached.map (·.1) ↔ ∃ d, r.Leads limit source x d := by
  refine ⟨exists_leads_of_mem_reached ha owner, fun ⟨d, hx⟩ => ?_⟩
  have hnotes := outcome_notes_iterate ha owner k
  have haccounts := iterate_of_round (P := fun s => s.Accounts r s.queue) Round.accounts
    (accounts_start source owner) k hnotes
  have hzero := iterate_of_round (P := fun s => s.depth? source = some 0) Round.depth?_eq_zero
    (depth?_start source owner) k hnotes
  rw [hqueue] at haccounts
  obtain ⟨mark, hmark, -⟩ := haccounts.exists_mark_of_leads ha.beyond hzero hx
  exact (haccounts.reached x).2 (hmark ▸ rfl)

theorem exists_queue_eq_nil_of_leads (hfinite : {x | ∃ d, r.Leads limit source x d}.Finite) :
    ∃ k, ((Search.next r)^[k] (start source owner)).queue = [] :=
  exists_queue_eq_nil_of_finite hfinite.toFinset fun _ _ hz =>
    hfinite.mem_toFinset.2 (exists_leads_of_mem_reached ha owner hz)

theorem exists_queue_eq_nil (hfinite : {x | Relation.ReflTransGen r.Step source x}.Finite) :
    ∃ k, ((Search.next r)^[k] (start source owner)).queue = [] :=
  exists_queue_eq_nil_of_leads ha owner (hfinite.subset fun _ ⟨_, hx⟩ => hx.reachable)

end Exact

end ContractFlow.Search
