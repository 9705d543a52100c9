import ContractFlow.Flow.Reach
import ContractFlow.Proofs.Query
import Mathlib.Algebra.Order.BigOperators.Group.Finset
import Mathlib.Data.Prod.Lex
import Mathlib.Data.Set.Finite.Basic
import Mathlib.Logic.Relation

/-!
This module shows that a bounded search for flows comes to an end if it can reach finitely many nodes only, and that it
meets no fault if all that it can ask has an answer.
-/

namespace ContractFlow.Search

namespace Rules

variable (r : Rules) (limit : Int) (source : FlowNode)

def Step (x y : FlowNode) : Prop :=
  ∃ steps change, (r.steps x).outcome = .ok steps ∧ (y, change) ∈ steps

/-- A node that a search may come to, with the call depth on the way that it takes. -/
inductive Leads : FlowNode → Nat → Prop
  | start : Leads source 0
  | step {x y : FlowNode} {depth next : Nat} {change : Int} {steps : List (FlowNode × Int)} :
      Leads x depth → (r.steps x).outcome = .ok steps → (y, change) ∈ steps →
      (r.isBarrier y).outcome = .ok false →
      (next : Int) = max 0 (depth + change) → (next : Int) ≤ limit → Leads y next

structure IsAnswered : Prop where
  beyond : ∀ depth, r.isBeyond depth = .ok (decide (limit < depth))
  steps : ∀ x, Relation.ReflTransGen r.Step source x → ∃ steps, (r.steps x).outcome = .ok steps
  barrier : ∀ x, Relation.ReflTransGen r.Step source x → ∃ b, (r.isBarrier x).outcome = .ok b

variable {r limit source}

theorem Leads.reachable {x : FlowNode} {depth : Nat} (h : r.Leads limit source x depth) :
    Relation.ReflTransGen r.Step source x := by
  induction h with
  | start => exact .refl
  | step _ hsteps hmem _ _ _ ih => exact ih.tail ⟨_, _, hsteps, hmem⟩

theorem Leads.cases_head {x : FlowNode} {depth : Nat} (h : r.Leads limit source x depth) :
    x = source ∨ ∃ y steps change, (r.steps source).outcome = .ok steps ∧ (y, change) ∈ steps ∧
      (r.isBarrier y).outcome = .ok false := by
  induction h with
  | start => exact .inl rfl
  | step _ hsteps hmem hbarrier _ _ ih =>
    rcases ih with rfl | hfirst
    · exact .inr ⟨_, _, _, hsteps, hmem, hbarrier⟩
    · exact .inr hfirst

end Rules

def depth? (s : Search) (x : FlowNode) : Option Nat :=
  (s.marks.lookup x).map (·.depth)

variable {s s' : Search} {x y : FlowNode} {mark : Mark}

theorem depth?_of_marks (h : s'.marks = s.marks) (x : FlowNode) : s'.depth? x = s.depth? x := by
  unfold depth?
  rw [h]

theorem depth?_of_lookup (h : s.marks.lookup x = some mark) : s.depth? x = some mark.depth := by
  unfold depth?
  rw [h, Option.map_some]

theorem lookup_of_entered (h : s'.marks = (y, mark) :: s.marks) (z : FlowNode) :
    s'.marks.lookup z = if z = y then some mark else s.marks.lookup z := by
  rw [h, List.lookup_cons]
  by_cases hz : z = y
  · simp [hz]
  · rw [beq_false_of_ne hz, if_neg hz]

theorem depth?_of_entered (h : s'.marks = (y, mark) :: s.marks) (z : FlowNode) :
    s'.depth? z = if z = y then some mark.depth else s.depth? z := by
  unfold depth?
  rw [lookup_of_entered h]
  split
  · rfl
  · rfl

variable {r : Rules} {limit : Int} {source : FlowNode}

theorem outcome_note {α : Type} {q : Query α} (h : s.notes.outcome = .ok ()) (hq : ∃ x, q.outcome = .ok x) :
    (s.note q).notes.outcome = .ok () := by
  obtain ⟨x, hx⟩ := hq
  unfold note
  rw [Query.outcome_bind_ok h, Query.outcome_bind_ok hx]
  rfl

theorem mem_reached_enter {z : FlowNode} :
    z ∈ (s.enter x y mark).reached.map (·.1) ↔ z = y ∨ z ∈ s.reached.map (·.1) := by
  unfold enter
  split
  · next h =>
    obtain ⟨e, he, hy⟩ := List.any_eq_true.1 h
    rw [beq_iff_eq] at hy
    constructor
    · exact .inr
    · rintro (rfl | hz)
      · exact List.mem_map.2 ⟨e, he, hy⟩
      · exact hz
  · rw [List.map_append, List.mem_append, List.map_singleton, List.mem_singleton, or_comm]

section Take

variable {x y : FlowNode} {depth : Nat} {change : Int} {chain : List CallableId} {s : Search}

theorem outcome_take (hbeyond : ∀ depth, r.isBeyond depth = .ok (decide (limit < depth)))
    (hbarrier : ∃ b, (r.isBarrier y).outcome = .ok b) (h : s.notes.outcome = .ok ()) :
    (take r x depth chain s (y, change)).notes.outcome = .ok () := by
  have hfirst : ∀ next : Nat, (s.note (liftM (r.isBeyond next) : Query Bool)).notes.outcome = .ok () :=
    fun next => outcome_note h ⟨_, hbeyond _⟩
  have hrest : ∀ (t : Search) (known bars : Bool) (mark : Mark), t.notes.outcome = .ok () →
      (if known then t else if bars then t.note (r.isBarrier y)
        else (t.note (r.isBarrier y)).enter x y mark).notes.outcome = .ok () := by
    intro t known bars mark ht
    have hnote := outcome_note ht hbarrier
    cases known with
    | true => exact ht
    | false =>
      cases bars with
      | true => exact hnote
      | false => exact hnote
  unfold take
  dsimp only
  split
  · exact hfirst _
  · split
    · exact hrest _ _ _ _ (hfirst _)
    · exact hrest _ _ _ _ (hfirst _)

theorem expand_eq {steps : List (FlowNode × Int)} (hsteps : (r.steps x).outcome = .ok steps) :
    s.expand r x depth = steps.foldl (take r x depth (((s.marks.lookup x).map (·.chain)).getD []))
      (s.note (r.steps x)) := by
  rw [← Query.getD_eq_of_outcome (y := []) hsteps]
  rfl

end Take

/-! A search comes to an end. -/

inductive Moved (y : FlowNode) (s s' : Search) : Prop
  | kept : s'.marks = s.marks → s'.queue = s.queue → s'.reached = s.reached → Moved y s s'
  | entered {mark : Mark} : (∀ d, s.depth? y = some d → mark.depth < d) →
      s'.marks = (y, mark) :: s.marks → s'.queue = s.queue ++ [(y, mark.depth)] →
      (∀ z, z ∈ s'.reached.map (·.1) ↔ z = y ∨ z ∈ s.reached.map (·.1)) → Moved y s s'

structure Among (nodes : Set FlowNode) (s : Search) : Prop where
  queued : ∀ x ∈ s.queue, x.1 ∈ nodes
  reached : ∀ x ∈ s.reached.map (·.1), x ∈ nodes

section Rounds

variable {nodes : Set FlowNode} {s s' t : Search} {x y : FlowNode} {depth : Nat} {change : Int}
  {chain : List CallableId}
variable {steps : List (FlowNode × Int)}

theorem moved_of_near {near : Nat} {bars : Bool} (hmarks : t.marks = s.marks)
    (hqueue : t.queue = s.queue) (hreached : t.reached = s.reached) :
    Moved y s
      (if (t.marks.lookup y).any (fun known => decide (known.depth ≤ near)) then t
      else if bars then t.note (r.isBarrier y)
      else (t.note (r.isBarrier y)).enter x y ⟨near, chain⟩) := by
  split
  · exact .kept hmarks hqueue hreached
  next hknown =>
    cases bars with
    | true => exact .kept hmarks hqueue hreached
    | false =>
      refine .entered (fun d hd => ?_) (congrArg _ hmarks) (congrArg (· ++ _) hqueue) fun z => ?_
      · obtain ⟨known, hlookup, rfl⟩ := Option.map_eq_some_iff.1 hd
        rw [hmarks, hlookup] at hknown
        simpa using hknown
      · rw [← hreached]
        exact mem_reached_enter

theorem moved_take (s : Search) : Moved y s (take r x depth chain s (y, change)) := by
  unfold take
  dsimp only
  split
  · exact .kept rfl rfl rfl
  · split
    · exact moved_of_near rfl rfl rfl
    · exact moved_of_near rfl rfl rfl

theorem Moved.among (h : Moved y s s') (hs : s.Among nodes) (hy : y ∈ nodes) : s'.Among nodes := by
  cases h with
  | kept _ hqueue hreached =>
    exact ⟨fun x hx => hs.queued x (hqueue ▸ hx), fun x hx => hs.reached x (hreached ▸ hx)⟩
  | entered _ _ hqueue hreached =>
    refine ⟨fun x hx => ?_, fun x hx => ?_⟩
    · rw [hqueue, List.mem_append, List.mem_singleton] at hx
      rcases hx with hx | rfl
      · exact hs.queued x hx
      · exact hy
    · rcases (hreached x).1 hx with rfl | hx
      · exact hy
      · exact hs.reached x hx

theorem among_start {owner : Option CallableId} (hsource : source ∈ nodes) : (start source owner).Among nodes :=
  ⟨by simpa [start] using hsource, by simpa [start] using hsource⟩

theorem Among.foldl (hs : s.Among nodes) (hsteps : ∀ step ∈ steps, step.1 ∈ nodes) :
    (steps.foldl (take r x depth chain) s).Among nodes := by
  induction steps generalizing s with
  | nil => exact hs
  | cons step steps ih =>
    obtain ⟨hstep, hsteps⟩ := List.forall_mem_cons.1 hsteps
    exact ih ((moved_take s).among hs hstep) hsteps

theorem Among.next (hs : s.Among nodes)
    (hclosed : ∀ x ∈ nodes, ∀ step ∈ (r.steps x).getD [], step.1 ∈ nodes) : (s.next r).Among nodes := by
  unfold Search.next
  split
  · exact hs
  · next x depth rest hqueue =>
    have hx : x ∈ nodes := hs.queued (x, depth) (hqueue ▸ List.mem_cons_self)
    have hrest : ({ s with queue := rest } : Search).Among nodes :=
      ⟨fun y hy => hs.queued y (hqueue ▸ List.mem_cons_of_mem _ hy), hs.reached⟩
    exact Among.foldl (s := Search.note _ _) ⟨hrest.queued, hrest.reached⟩ (hclosed x hx)

theorem Among.iterate (hs : s.Among nodes)
    (hclosed : ∀ x ∈ nodes, ∀ step ∈ (r.steps x).getD [], step.1 ∈ nodes) (k : Nat) :
    ((Search.next r)^[k] s).Among nodes := by
  induction k with
  | zero => exact hs
  | succ k ih =>
    rw [Function.iterate_succ_apply']
    exact ih.next hclosed

def toDo (nodes : Finset FlowNode) (s : Search) : Nat ×ₗ Nat ×ₗ Nat :=
  toLex ((nodes.filter fun x => s.depth? x = none).card,
    toLex (∑ x ∈ nodes, (s.depth? x).getD 0, s.queue.length))

theorem Moved.toDo_le {nodes : Finset FlowNode} (h : Moved y s s')
    (hnodes : ∀ x ∈ s'.reached.map (·.1), x ∈ nodes) : s'.toDo nodes ≤ s.toDo nodes := by
  cases h with
  | kept hmarks hqueue _ =>
    unfold toDo
    simp only [depth?_of_marks hmarks, hqueue]
    exact le_rfl
  | @entered mark hless hmarks _ hreached =>
    have hy : y ∈ nodes := hnodes y ((hreached y).2 (.inl rfl))
    have hdepth := depth?_of_entered hmarks
    have hsub : (nodes.filter fun x => s'.depth? x = none) ⊆ nodes.filter fun x => s.depth? x = none := by
      intro x hx
      rw [Finset.mem_filter, hdepth] at hx
      rw [Finset.mem_filter]
      grind
    refine le_of_lt (Prod.Lex.toLex_lt_toLex.2 ?_)
    cases hd : s.depth? y with
    | none =>
      -- a node is reached for the first time
      refine .inl (Finset.card_lt_card ((Finset.ssubset_iff_of_subset hsub).2 ⟨y, ?_, ?_⟩))
      · exact Finset.mem_filter.2 ⟨hy, hd⟩
      · rw [Finset.mem_filter, hdepth, if_pos rfl]
        simp
    | some d =>
      -- a node is reached less deep than before
      have hkeep : (nodes.filter fun x => s.depth? x = none) ⊆ nodes.filter fun x => s'.depth? x = none := by
        intro x hx
        rw [Finset.mem_filter] at hx
        rw [Finset.mem_filter, hdepth]
        grind
      refine .inr ⟨congrArg Finset.card (hsub.antisymm hkeep), Prod.Lex.toLex_lt_toLex.2 (.inl ?_)⟩
      refine Finset.sum_lt_sum (fun x _ => ?_) ⟨y, hy, ?_⟩
      · rw [hdepth]
        split
        · next hx => simpa [hx, hd] using (hless d hd).le
        · exact le_rfl
      · simpa [hdepth, hd] using hless d hd

theorem Moved.mem_reached (h : Moved y s s') (hx : x ∈ s.reached.map (·.1)) : x ∈ s'.reached.map (·.1) := by
  cases h with
  | kept _ _ hreached => exact hreached ▸ hx
  | entered _ _ _ hreached => exact (hreached x).2 (.inr hx)

theorem mem_reached_foldl {z : FlowNode} (hz : z ∈ s.reached.map (·.1)) :
    z ∈ (steps.foldl (take r x depth chain) s).reached.map (·.1) := by
  induction steps generalizing s with
  | nil => exact hz
  | cons step steps ih => exact ih ((moved_take s).mem_reached hz)

theorem toDo_foldl_le {nodes : Finset FlowNode}
    (hnodes : ∀ z ∈ (steps.foldl (take r x depth chain) s).reached.map (·.1), z ∈ nodes) :
    (steps.foldl (take r x depth chain) s).toDo nodes ≤ s.toDo nodes := by
  induction steps generalizing s with
  | nil => exact le_rfl
  | cons step steps ih =>
    refine (ih hnodes).trans ((moved_take s).toDo_le fun z hz => hnodes z ?_)
    exact mem_reached_foldl (s := take r x depth chain s step) hz

theorem toDo_next_lt {nodes : Finset FlowNode} (hqueue : s.queue ≠ [])
    (hnodes : ∀ z ∈ (s.next r).reached.map (·.1), z ∈ nodes) :
    (s.next r).toDo nodes < s.toDo nodes := by
  unfold Search.next at hnodes ⊢
  split
  · next h => exact absurd h hqueue
  · next x depth rest h =>
    rw [h] at hnodes
    refine lt_of_le_of_lt (toDo_foldl_le hnodes) (Prod.Lex.toLex_lt_toLex.2 (.inr ⟨rfl, ?_⟩))
    refine Prod.Lex.toLex_lt_toLex.2 (.inr ⟨rfl, ?_⟩)
    rw [h]
    exact Nat.lt_succ_self _

theorem exists_queue_eq_nil_of_finite (nodes : Finset FlowNode)
    (hnodes : ∀ k, ∀ z ∈ ((Search.next r)^[k] s).reached.map (·.1), z ∈ nodes) :
    ∃ k, ((Search.next r)^[k] s).queue = [] := by
  induction hn : s.toDo nodes using WellFoundedLT.induction generalizing s with
  | _ n ih =>
    by_cases hqueue : s.queue = []
    · exact ⟨0, hqueue⟩
    · obtain ⟨k, hk⟩ := ih _ (hn ▸ toDo_next_lt hqueue (hnodes 1)) (fun k => hnodes (k + 1)) rfl
      exact ⟨k + 1, hk⟩

end Rounds

/-! A search meets no fault. -/

theorem outcome_foldl {depth : Nat} {chain : List CallableId} {steps : List (FlowNode × Int)}
    (hbeyond : ∀ depth, r.isBeyond depth = .ok (decide (limit < depth)))
    (hbarrier : ∀ step ∈ steps, ∃ b, (r.isBarrier step.1).outcome = .ok b) (hs : s.notes.outcome = .ok ()) :
    (steps.foldl (take r x depth chain) s).notes.outcome = .ok () := by
  induction steps generalizing s with
  | nil => exact hs
  | cons step steps ih =>
    obtain ⟨hstep, hsteps⟩ := List.forall_mem_cons.1 hbarrier
    exact ih hsteps (outcome_take hbeyond hstep hs)

theorem outcome_notes_iterate (ha : r.IsAnswered limit source) (owner : Option CallableId) (k : Nat) :
    ((Search.next r)^[k] (start source owner)).notes.outcome = .ok () := by
  have hclosed (x : FlowNode) (hx : Relation.ReflTransGen r.Step source x) :
      ∀ step ∈ (r.steps x).getD [], Relation.ReflTransGen r.Step source step.1 := by
    intro step hstep
    obtain ⟨steps, hsteps, hmem⟩ := Query.mem_getD_nil_iff.1 hstep
    exact hx.tail ⟨steps, step.2, hsteps, hmem⟩
  induction k with
  | zero => rfl
  | succ k ih =>
    have hstart : (start source owner).Among {x | Relation.ReflTransGen r.Step source x} := among_start .refl
    have hamong := hstart.iterate hclosed k
    rw [Function.iterate_succ_apply']
    unfold Search.next
    split
    · exact ih
    · next x depth rest hqueue =>
      have hx := hamong.queued (x, depth) (hqueue ▸ List.mem_cons_self)
      obtain ⟨steps, hsteps⟩ := ha.steps x hx
      rw [expand_eq hsteps]
      refine outcome_foldl ha.beyond (fun step hstep => ha.barrier _ ?_) (outcome_note ih ⟨steps, hsteps⟩)
      exact hx.tail ⟨steps, step.2, hsteps, hstep⟩

theorem run_eq_iterate {k : Nat} (h : ((Search.next r)^[k] s).queue = []) : s.run r = (Search.next r)^[k] s := by
  induction k generalizing s with
  | zero =>
    rw [Function.iterate_zero_apply] at h
    rw [run_eq, h]
    rfl
  | succ k ih =>
    rw [run_eq]
    split
    · next hqueue =>
      have hfix : s.next r = s := by
        unfold Search.next
        rw [List.isEmpty_iff.1 hqueue]
      rw [Function.iterate_fixed hfix]
    · exact ih h

end ContractFlow.Search
