import ContractFlow.Proofs.Control.Behaviour
import ContractFlow.Proofs.Control.Run
import ContractFlow.Proofs.Control.Way

/-!
This module shows that the ways through the control flow graph of a body are those of its control structure.
-/

open Computability

namespace ContractFlow

open Draft (Inside Leads Region)

def Ending.ports (ps : Pending) (d : Draft) (x : Exits) (d' : Draft) (stops : List Nat) :
    Ending → Nat → Prop
  | falls => (· ∈ x.fall.sources)
  | breaks => (· ∈ x.breaks.sources)
  | continues => (· ∈ x.continues.sources)
  | returns => (· ∈ x.returns.sources)
  | reverts => (· ∈ stops)
  | underway => Inside ps.sources d d'

open Ending (ports)

namespace Control

structure Traced (ps : Pending) (d : Draft) (x : Exits) (d' : Draft) (stops : List Nat)
    (b : Behaviour) : Prop extends Built ps d x d' stops where
  leads : ∀ e, Leads ps.sources d d' (ports ps d x d' stops e) (b e)

namespace Traced

variable {ps qs : Pending} {d d₁ d₂ d₃ : Draft} {x y z : Exits} {s s₁ s₂ s₃ : List Nat}
  {b b₁ b₂ b₃ : Behaviour} {e : Ending} {j : Nat}

theorem mem_sources_append : j ∈ ps.sources ∨ j ∈ qs.sources ↔ j ∈ (ps ++ qs).sources := by
  rw [Pending.sources_append, List.mem_append]

theorem inside (h : Built ps d x d₁ s) (hj : ports ps d x d₁ s e j) : Inside ps.sources d d₁ j := by
  cases e with
  | falls => exact h.port j (Exits.mem_sources_iff.2 (.inl hj))
  | breaks => exact h.port j (Exits.mem_sources_iff.2 (.inr (.inl hj)))
  | continues => exact h.port j (Exits.mem_sources_iff.2 (.inr (.inr (.inl hj))))
  | returns => exact h.port j (Exits.mem_sources_iff.2 (.inr (.inr (.inr hj))))
  | reverts => exact h.stop j hj
  | underway => exact hj

theorem inside_latch (h : Built ps d x d₁ s) (hj : j ∈ (x.fall ++ x.continues).sources) : Inside ps.sources d d₁ j := by
  rcases mem_sources_append.2 hj with hj | hj
  · exact inside (e := .falls) h hj
  · exact inside (e := .continues) h hj

theorem lt_size (h : Built ps d x d₁ s) (hp : d.Placed ps.sources) (hj : ports ps d x d₁ s e j) : j < d₁.size := by
  have hle := h.le
  rcases inside h hj with hj | hj
  · have := hp.source j hj
    omega
  · omega

theorem of_sources (h : Traced ps d x d₁ s b) (hqs : ps.sources = qs.sources) : Traced qs d x d₁ s b where
  toBuilt := h.toBuilt.of_sources hqs
  leads e := by
    rw [← hqs]
    apply (h.leads e).congr
    cases e with
    | underway => simp only [ports, hqs, implies_true]
    | _ => exact fun _ => Iff.rfl

theorem only (way : Ending) (hp : d.Placed ps.sources) (h : Built ps d x d₁ s) (hsize : d₁.size = d.size)
    (hports : ∀ e, e ≠ .underway → ∀ j, ports ps d x d₁ s e j ↔ e = way ∧ j ∈ ps.sources) :
    Traced ps d x d₁ s (.only way) where
  toBuilt := h
  leads e := by
    unfold Behaviour.only
    by_cases he : e = .underway
    · rw [if_pos (.inr he)]
      subst he
      refine (Leads.stay hp).congr fun j => ⟨.inl, fun hj => ?_⟩
      exact hj.elim id fun hj => by omega
    · by_cases hway : e = way
      · rw [if_pos (.inl hway)]
        exact (Leads.stay hp).congr fun j => by rw [hports e he, and_iff_right hway]
      · rw [if_neg (by tauto)]
        exact Leads.none.congr fun j => by simp [hports e he, hway]

theorem idle (way : Ending) (hp : d.Placed ps.sources)
    (hports : ∀ e, e ≠ .underway → ∀ j, ports ps d x d [] e j ↔ e = way ∧ j ∈ ps.sources) :
    Traced ps d x d [] (.only way) := by
  refine only way hp (.refl hp.toSound fun j hj => ?_) rfl hports
  rcases Exits.mem_sources_iff.1 hj with hj | hj | hj | hj
  · exact ((hports .falls (by simp) j).1 hj).2
  · exact ((hports .breaks (by simp) j).1 hj).2
  · exact ((hports .continues (by simp) j).1 hj).2
  · exact ((hports .returns (by simp) j).1 hj).2

theorem visit (n : NodeId) (owner : CallableId) (hp : d.Placed ps.sources) :
    Traced ps d ⟨(d.extend ⟨.visit n, owner⟩ ps).1, [], [], []⟩ (d.extend ⟨.visit n, owner⟩ ps).2 []
      (.visit n) where
  toBuilt := .extend ps hp.toSound (by simp)
  leads e := by
    have hnew := Leads.extend (p := ⟨.visit n, owner⟩) hp
    cases e with
    | falls => exact hnew.congr (by simp [ports])
    | underway =>
      refine ((Leads.stay hp).union hnew).congr fun j => ?_
      change _ ∨ _ ↔ _ ∨ _ ∧ j < (Draft.extend d _ _).2.size
      rw [Draft.size_extend]
      exact or_congr_right (by omega)
    | _ => exact Leads.none.congr (by simp [ports])

theorem merge (owner : CallableId) (hp : d.Placed ps.sources) :
    Traced ps d ⟨(d.merge owner ps).1, [], [], []⟩ (d.merge owner ps).2 [] (.only .falls) := by
  unfold Draft.merge
  split
  · exact ⟨.refl hp.toSound (by simp [Exits.sources]), fun e i hi => by simp at hi⟩
  · refine idle .falls hp fun e he j => ?_
    cases e <;> simp [ports] at he ⊢
  · refine ⟨.extend _ hp.toSound (by simp), fun e => ?_⟩
    have hnew : Leads _ d _ (· = d.size) 1 := Leads.extend (p := ⟨.join, owner⟩) hp
    cases e with
    | falls => exact hnew.congr (by simp [ports])
    | underway =>
      have hboth := (Leads.stay hp).union hnew
      rw [add_idem] at hboth
      refine hboth.congr fun j => ?_
      change _ ∨ _ ↔ _ ∨ _ ∧ j < (Draft.extend d _ _).2.size
      rw [Draft.size_extend]
      exact or_congr_right (by omega)
    | _ => exact Leads.none.congr (by simp [ports])

theorem leads_behind {target : Nat → Prop} {l : Language NodeId} (h : Leads ps.sources d d₁ target l)
    (h₂ : Traced qs d₁ y d₂ s₂ b) (hp : d.Placed ps.sources) (hq : d₁.Placed qs.sources)
    (hle : d.size ≤ d₁.size) (hqs : ∀ j, j ∈ qs.sources ↔ target j) (e : Ending) :
    Leads ps.sources d d₂ (ports qs d₁ y d₂ s₂ e) (l * b e) :=
  h.append (h₂.leads e) h₂.toRegion hp hq hle hqs fun _ hj => inside h₂.toBuilt hj

theorem leads_before (h₁ : Traced ps d x d₁ s₁ b) (h₂ : Built qs d₁ y d₂ s₂)
    (hp : d.Placed ps.sources) (hq : d₁.Placed qs.sources) (e : Ending) :
    Leads ps.sources d d₂ (ports ps d x d₁ s₁ e) (b e) :=
  (h₁.leads e).widen h₂.toRegion hp hq.toSound h₁.le fun _ hj => lt_size h₁.toBuilt hp hj

theorem inside_append (h₁ : Built ps d x d₁ s₁) (h₂ : Built qs d₁ y d₂ s₂)
    (hqs : ∀ i ∈ qs.sources, Inside ps.sources d d₁ i) :
    Inside ps.sources d d₁ j ∨ Inside qs.sources d₁ d₂ j ↔ Inside ps.sources d d₂ j := by
  have hle₁ := h₁.le
  have hle₂ := h₂.le
  constructor
  · rintro (hj | hj)
    · exact Region.inside_mono hle₂ hj
    · exact Region.inside_trans hle₁ hle₂ hqs hj
  · rintro (hj | hj)
    · exact .inl (.inl hj)
    · by_cases hlt : j < d₁.size
      · exact .inl (.inr (by omega))
      · exact .inr (.inr (by omega))

theorem ports_or (h₁ : Built ps d x d₁ s₁) (h₂ : Built qs d₁ y d₂ s₂)
    (hqs : ∀ i ∈ qs.sources, Inside ps.sources d d₁ i) (e : Ending) :
    ports ps d x d₁ s₁ e j ∨ ports qs d₁ y d₂ s₂ e j ↔ ports ps d (x.or y) d₂ (s₁ ++ s₂) e j := by
  cases e with
  | reverts => exact List.mem_append.symm
  | underway => exact inside_append h₁ h₂ hqs
  | _ => exact mem_sources_append

theorem seq (h₁ : Traced ps d x d₁ s₁ b₁) (h₂ : Traced x.fall d₁ y d₂ s₂ b₂)
    (hp : d.Placed ps.sources) : Traced ps d (x.andThen y) d₂ (s₁ ++ s₂) (b₁.seq b₂) where
  toBuilt := h₁.toBuilt.seq h₂.toBuilt hp
  leads e := by
    have hq := h₁.placed_fall hp
    have hfall : ∀ i ∈ x.fall.sources, Inside ps.sources d d₁ i :=
      fun i hi => h₁.port i (Exits.mem_sources_iff.2 (.inl hi))
    have hbehind := leads_behind (h₁.leads .falls) h₂ hp hq h₁.le (fun _ => Iff.rfl) e
    have hboth := (leads_before h₁ h₂.toBuilt hp hq e).union hbehind
    cases e with
    | falls =>
      rw [Behaviour.seq_falls]
      exact hbehind
    | _ => exact hboth.congr fun i => ports_or h₁.toBuilt h₂.toBuilt hfall _

theorem either {free : Prop} [Decidable free] (h₁ : Traced ps d x d₁ s₁ b₁)
    (h₂ : Traced qs d₁ y d₂ s₂ b₂) (hp : d.Placed ps.sources)
    (hqs : ∀ i, i ∈ qs.sources ↔ free ∧ i ∈ ps.sources) :
    Traced ps d (x.or y) d₂ (s₁ ++ s₂) (b₁ + if free then b₂ else 0) where
  toBuilt := h₁.toBuilt.either h₂.toBuilt hp fun i hi => .inl ((hqs i).1 hi).2
  leads e := by
    have hq : d₁.Placed qs.sources := h₁.placed hp fun i hi => .inl ((hqs i).1 hi).2
    have hinside : ∀ i ∈ qs.sources, Inside ps.sources d d₁ i := fun i hi => .inl ((hqs i).1 hi).2
    have hstart : Leads ps.sources d d₁ (fun j => free ∧ j ∈ ps.sources) (if free then 1 else 0) := by
      split
      · next hfree => exact (Leads.stay hp).congr fun j => (and_iff_right hfree).symm
      · next hfree => exact Leads.none.congr fun j => by simp [hfree]
    have hbehind := leads_behind hstart h₂ hp hq h₁.le hqs e
    have hboth := (leads_before h₁ h₂.toBuilt hp hq e).union hbehind
    have heq : (b₁ + if free then b₂ else 0) e = b₁ e + (if free then 1 else 0) * b₂ e := by
      split <;> simp
    rw [heq]
    exact hboth.congr fun i => ports_or h₁.toBuilt h₂.toBuilt hinside e

theorem join (h : Traced ps d x d₁ s b) (hb : b.Watched) (hp : d.Placed ps.sources) (owner : CallableId) :
    Traced ps d { x with fall := (d₁.merge owner x.fall).1 } (d₁.merge owner x.fall).2 (s ++ []) b := by
  have hseq := h.seq (merge owner (h.placed_fall hp)) hp
  rw [hb.seq_only_falls] at hseq
  simpa [Exits.andThen] using hseq

theorem branch {condition : Control} {c : Exits} (h₁ : Traced ps d c d₁ s₁ b₁)
    (h₂ : Traced (outcomes condition c.fall).1 d₁ x d₂ s₂ b₂)
    (h₃ : Traced (outcomes condition c.fall).2 d₂ y d₃ s₃ b₃) (hp : d.Placed ps.sources) :
    Traced ps d (c.early.andThen (x.or y)) d₃ (s₁ ++ (s₂ ++ s₃))
      (b₁.seq (b₂ + if condition ≠ skip then b₃ else 0)) := by
  have hq := h₁.placed_fall hp
  have hyes := h₂.of_sources (sources_outcomes_fst condition c.fall)
  exact h₁.seq (hyes.either h₃ hq fun i => mem_sources_outcomes_snd condition c.fall) hp

theorem of_rounds {header back : Pending} {owner : CallableId} {l : Language NodeId}
    (hp : d.Placed ps.sources) (hheader : header.sources = [d.size])
    (hloop : Built ps d z (d₁.connect back d.size) s)
    (hz : Built header (d.extend ⟨.join, owner⟩ ps).2 z d₁ s)
    (hback : Leads header.sources (d.extend ⟨.join, owner⟩ ps).2 d₁ (· ∈ back.sources) l)
    (h : ∀ e, Leads header.sources (d.extend ⟨.join, owner⟩ ps).2 d₁
      (ports header (d.extend ⟨.join, owner⟩ ps).2 z d₁ s e) (b e))
    (hb : 1 ≤ b .underway) :
    Traced ps d z (d₁.connect back d.size) s (b.after l∗) where
  toBuilt := hloop
  leads e := by
    have hr := hheader ▸ hz.toRegion
    have hround : Leads ps.sources d (d₁.connect back d.size) _ (b.after l∗ e) :=
      Leads.loop hp hr (hheader ▸ hback) (hheader ▸ h e) fun j hj => hheader ▸ inside hz hj
    cases e with
    | underway =>
      have hone : 1 ≤ b.after l∗ .underway := by
        rw [Behaviour.after_kstar]
        exact hb.trans (le_add_of_nonneg_right zero_le)
      have hboth := (Leads.stay hp).union hround
      rw [add_eq_right_iff_le.2 hone] at hboth
      refine hboth.congr fun j => ?_
      have hle := hr.le
      rw [Draft.size_extend] at hle
      unfold ports Inside
      simp only [hheader, List.mem_singleton, Draft.size_extend, Draft.size_connect]
      exact or_congr_right (by omega)
    | _ => exact hround

section Loop

variable {condition : Control} {c : Exits}

theorem leads_latch (h₁ : Traced ps d c d₁ s₁ b₁) (h₂ : Traced (outcomes condition c.fall).1 d₁ x d₂ s₂ b₂)
    (hp : d.Placed ps.sources) :
    Leads ps.sources d d₂ (· ∈ (x.fall ++ x.continues).sources) (b₁ .falls * b₂.latch) := by
  have hq := h₁.placed_true hp condition
  have hbehind := leads_behind (h₁.leads .falls) h₂ hp hq h₁.le
    fun j => by rw [sources_outcomes_fst]; exact Iff.rfl
  unfold Behaviour.latch
  rw [mul_add]
  exact ((hbehind .falls).union (hbehind .continues)).congr fun j => mem_sources_append

theorem leads_false {l : Language NodeId} (h : Leads ps.sources d d₁ (· ∈ c.fall.sources) l) :
    Leads ps.sources d d₁ (· ∈ (outcomes condition c.fall).2.sources)
      (if condition ≠ skip then l else 0) := by
  split
  · next hfree => exact h.congr fun j => by rw [mem_sources_outcomes_snd, and_iff_right hfree]
  · next hfree => exact Leads.none.congr fun j => by rw [mem_sources_outcomes_snd]; tauto

theorem leads_round (h₁ : Traced ps d c d₁ s₁ b₁) (h₂ : Traced (outcomes condition c.fall).1 d₁ x d₂ s₂ b₂)
    (h₃ : Traced (x.fall ++ x.continues) d₂ y d₃ s₃ b₃) (hp : d.Placed ps.sources) (e : Ending) :
    Leads ps.sources d d₃
      (ports ps d { y with fall := (outcomes condition c.fall).2 ++ x.breaks,
                           returns := x.returns ++ y.returns } d₃ (s₁ ++ (s₂ ++ s₃)) e)
      (b₁.tested (condition ≠ skip) e + b₁ .falls * (b₂.caught e + b₂.latch * b₃.early e)) := by
  have hp₁ := h₁.placed_true hp condition
  have hp₂ := h₂.placed_latch hp₁
  have hle : d.size ≤ d₂.size := Nat.le_trans h₁.le h₂.le
  have hrest := h₂.toBuilt.doRound h₃.toBuilt hp₁
  have hbehind := leads_behind (h₁.leads .falls) h₂ hp hp₁ h₁.le
    fun j => by rw [sources_outcomes_fst]; exact Iff.rfl
  have hfirst := leads_before h₁ hrest hp hp₁
  have hsecond := fun e => (hbehind e).widen h₃.toRegion hp hp₂.toSound hle
    fun j hj => lt_size h₂.toBuilt hp₁ hj
  have hthird := leads_behind (leads_latch h₁ h₂ hp) h₃ hp hp₂ hle fun _ => Iff.rfl
  rw [mul_add, ← mul_assoc]
  cases e with
  | falls =>
    rw [show b₃.early .falls = 0 from rfl, mul_zero, add_zero]
    exact ((leads_false (hfirst .falls)).union (hsecond .breaks)).congr fun j => mem_sources_append
  | breaks =>
    rw [show b₂.caught .breaks = 0 from rfl, mul_zero, zero_add]
    exact (Leads.none.union (hthird .breaks)).congr fun j => or_iff_right id
  | continues =>
    rw [show b₂.caught .continues = 0 from rfl, mul_zero, zero_add]
    exact (Leads.none.union (hthird .continues)).congr fun j => or_iff_right id
  | returns =>
    refine (Leads.none.union ((hsecond .returns).union (hthird .returns))).congr fun j => ?_
    rw [or_iff_right id]
    exact mem_sources_append
  | reverts =>
    refine ((hfirst .reverts).union ((hsecond .reverts).union (hthird .reverts))).congr fun j => ?_
    change _ ∨ _ ∨ _ ↔ j ∈ s₁ ++ (s₂ ++ s₃)
    rw [List.mem_append, List.mem_append]
    exact Iff.rfl
  | underway =>
    refine ((hfirst .underway).union ((hsecond .underway).union (hthird .underway))).congr fun j => ?_
    have htrue : ∀ i ∈ (outcomes condition c.fall).1.sources, Inside ps.sources d d₁ i := by
      intro i hi
      rw [sources_outcomes_fst] at hi
      exact h₁.port i (Exits.mem_sources_iff.2 (.inl hi))
    have hlatch := fun i => inside_latch (j := i) h₂.toBuilt
    exact (or_congr_right (inside_append h₂.toBuilt h₃.toBuilt hlatch)).trans
      (inside_append h₁.toBuilt hrest htrue)

theorem loop {owner : CallableId}
    (h₁ : Traced (d.extend ⟨.join, owner⟩ ps).1 (d.extend ⟨.join, owner⟩ ps).2 c d₁ s₁ b₁)
    (h₂ : Traced (outcomes condition c.fall).1 d₁ x d₂ s₂ b₂)
    (h₃ : Traced (x.fall ++ x.continues) d₂ y d₃ s₃ b₃) (hp : d.Placed ps.sources)
    (hb : b₁.Watched) :
    Traced ps d { y with fall := (outcomes condition c.fall).2 ++ x.breaks, returns := x.returns ++ y.returns }
      (d₃.connect (Pending.relabel .back y.fall) d.size) (s₁ ++ (s₂ ++ s₃))
      (.loop (condition ≠ skip) b₂ b₁ b₃) := by
  have hp₀ := Built.placed_header hp owner
  have hp₁ := h₁.placed_true hp₀ condition
  have hp₂ := h₂.placed_latch hp₁
  have hle : (d.extend ⟨.join, owner⟩ ps).2.size ≤ d₂.size := Nat.le_trans h₁.le h₂.le
  apply of_rounds hp rfl (h₁.toBuilt.loop h₂.toBuilt h₃.toBuilt hp)
    (h₁.toBuilt.round h₂.toBuilt h₃.toBuilt hp₀).of_loop
  · rw [Pending.sources_relabel]
    exact leads_behind (leads_latch h₁ h₂ hp₀) h₃ hp₀ hp₂ hle (fun _ => Iff.rfl) .falls
  · exact leads_round h₁ h₂ h₃ hp₀
  · exact hb.start.trans (le_add_of_nonneg_right zero_le)

theorem leads_doRound (h₁ : Traced ps d x d₁ s₁ b₁) (h₂ : Traced (x.fall ++ x.continues) d₁ c d₂ s₂ b₂)
    (hp : d.Placed ps.sources) (e : Ending) :
    Leads ps.sources d d₂
      (ports ps d ⟨(outcomes condition c.fall).2 ++ x.breaks, [], [], x.returns⟩ d₂ (s₁ ++ s₂) e)
      (b₁.caught e + b₁.latch * b₂.tested (condition ≠ skip) e) := by
  have hp₁ := h₁.placed_latch hp
  have hlatch : Leads ps.sources d d₁ (· ∈ (x.fall ++ x.continues).sources) b₁.latch :=
    ((h₁.leads .falls).union (h₁.leads .continues)).congr fun j => mem_sources_append
  have hfirst := leads_before h₁ h₂.toBuilt hp hp₁
  have hsecond := leads_behind hlatch h₂ hp hp₁ h₁.le fun _ => Iff.rfl
  cases e with
  | falls =>
    rw [show b₂.tested (condition ≠ skip) .falls = if condition ≠ skip then b₂ .falls else 0 from rfl,
      mul_ite, mul_zero, add_comm]
    exact ((leads_false (hsecond .falls)).union (hfirst .breaks)).congr fun j => mem_sources_append
  | breaks =>
    rw [show b₂.tested (condition ≠ skip) .breaks = 0 from rfl, mul_zero, add_zero]
    exact Leads.none.congr fun j => by simp [ports]
  | continues =>
    rw [show b₂.tested (condition ≠ skip) .continues = 0 from rfl, mul_zero, add_zero]
    exact Leads.none.congr fun j => by simp [ports]
  | returns =>
    rw [show b₂.tested (condition ≠ skip) .returns = 0 from rfl, mul_zero, add_zero]
    exact hfirst .returns
  | reverts => exact ((hfirst .reverts).union (hsecond .reverts)).congr fun j => List.mem_append.symm
  | underway =>
    have hinside := fun i => inside_latch (j := i) h₁.toBuilt
    exact ((hfirst .underway).union (hsecond .underway)).congr fun j =>
      inside_append h₁.toBuilt h₂.toBuilt hinside

theorem doLoop {owner : CallableId}
    (h₁ : Traced (d.extend ⟨.join, owner⟩ ps).1 (d.extend ⟨.join, owner⟩ ps).2 x d₁ s₁ b₁)
    (h₂ : Traced (x.fall ++ x.continues) d₁ c d₂ s₂ b₂) (hp : d.Placed ps.sources)
    (hb : b₁.Watched) :
    Traced ps d ⟨(outcomes condition c.fall).2 ++ x.breaks, [], [], x.returns⟩
      (d₂.connect (Pending.relabel .back (outcomes condition c.fall).1) d.size) (s₁ ++ s₂)
      (.doLoop (condition ≠ skip) b₁ b₂) := by
  have hp₀ := Built.placed_header hp owner
  have hp₁ := h₁.placed_latch hp₀
  have hlatch := ((h₁.leads .falls).union (h₁.leads .continues)).congr fun j => mem_sources_append
  apply of_rounds hp rfl (h₁.toBuilt.doLoop h₂.toBuilt hp) (h₁.toBuilt.doRound h₂.toBuilt hp₀).of_doLoop
  · rw [Pending.sources_relabel, sources_outcomes_fst]
    exact leads_behind hlatch h₂ hp₀ hp₁ h₁.le (fun _ => Iff.rfl) .falls
  · exact leads_doRound h₁ h₂ hp₀
  · exact hb.start.trans (le_add_of_nonneg_right zero_le)

end Loop

end Traced

theorem traced_if_nonempty (owner : CallableId) {next : Control} {latch : Pending} {d : Draft}
    {b : Behaviour}
    (h : ∃ s, Traced latch d (next.build owner noBody latch d).1 (next.build owner noBody latch d).2 s b)
    (hp : d.Placed latch.sources) :
    ∃ s, Traced latch d
      (if latch.isEmpty then (⟨[], [], [], []⟩, d) else next.build owner noBody latch d).1
      (if latch.isEmpty then (⟨[], [], [], []⟩, d) else next.build owner noBody latch d).2 s b := by
  split
  · next hempty =>
    rw [List.isEmpty_iff] at hempty
    subst hempty
    exact ⟨[], .refl hp.toSound (by simp [Exits.sources]), fun e i hi => by simp at hi⟩
  · exact h

theorem traced_build (owner : CallableId) (c : Control) {ps : Pending} {d : Draft}
    (hp : d.Placed ps.sources) :
    ∃ s, Traced ps d (c.build owner noBody ps d).1 (c.build owner noBody ps d).2 s c.traces := by
  induction c generalizing ps d with
  | skip | stuck | hole =>
    refine ⟨[], .idle _ hp fun e he j => ?_⟩
    cases e <;> simp [Ending.ports, build, noBody] at he ⊢
  | visit n => exact ⟨[], .visit n owner hp⟩
  | seq first second ih₁ ih₂ =>
    obtain ⟨s₁, h₁⟩ := ih₁ hp
    obtain ⟨s₂, h₂⟩ := ih₂ (h₁.placed_fall hp)
    exact ⟨_, h₁.seq h₂ hp⟩
  | either first second ih₁ ih₂ =>
    obtain ⟨s₁, h₁⟩ := ih₁ hp
    obtain ⟨s₂, h₂⟩ := ih₂ (h₁.placed_start hp)
    have h : Traced _ _ _ _ _ (first.traces + if True then second.traces else 0) :=
      h₁.either h₂ hp fun i => (and_iff_right trivial).symm
    exact ⟨_, h⟩
  | label kind part ih =>
    have hsources := Pending.sources_relabel kind ps
    obtain ⟨s, h⟩ := ih (hsources ▸ hp)
    exact ⟨s, h.of_sources hsources⟩
  | join part ih =>
    obtain ⟨s, h⟩ := ih hp
    exact ⟨_, h.join part.watched_traces hp owner⟩
  | branch condition yes no ih₁ ih₂ ih₃ =>
    obtain ⟨s₁, h₁⟩ := ih₁ hp
    have hp₁ := h₁.placed_true hp condition
    obtain ⟨s₂, h₂⟩ := ih₂ hp₁
    obtain ⟨s₃, h₃⟩ := ih₃ (h₂.placed_false hp₁)
    exact ⟨_, h₁.branch h₂ h₃ hp⟩
  | loop condition body next ih₁ ih₂ ih₃ =>
    have hp₀ := Built.placed_header hp owner
    obtain ⟨s₁, h₁⟩ := ih₁ hp₀
    have hp₁ := h₁.placed_true hp₀ condition
    obtain ⟨s₂, h₂⟩ := ih₂ hp₁
    have hp₂ := h₂.placed_latch hp₁
    obtain ⟨s₃, h₃⟩ := traced_if_nonempty owner (ih₃ hp₂) hp₂
    exact ⟨_, h₁.loop h₂ h₃ hp condition.watched_traces⟩
  | doLoop body condition ih₁ ih₂ =>
    have hp₀ := Built.placed_header hp owner
    obtain ⟨s₁, h₁⟩ := ih₁ hp₀
    have hp₁ := h₁.placed_latch hp₀
    obtain ⟨s₂, h₂⟩ := traced_if_nonempty owner (ih₂ hp₁) hp₁
    exact ⟨_, h₁.doLoop h₂ hp body.watched_traces⟩
  | leave way =>
    cases way <;>
    · refine ⟨[], .idle _ hp fun e he j => ?_⟩
      cases e <;> simp [Ending.ports, build, Departure.ending] at he ⊢
  | stop =>
    refine ⟨ps.sources, .only .reverts hp (.stopAll hp.toSound) (Draft.size_connect ..) fun e he j => ?_⟩
    cases e <;> simp [Ending.ports, build] at he ⊢

end Control

namespace ControlGraph

variable (callable : CallableId) (body : Control)

def trace (g : ControlGraph) (path : List Nat) : List NodeId :=
  path.filterMap g.node?

theorem trace_append (g : ControlGraph) (path back : List Nat) :
    g.trace (path ++ back) = g.trace path ++ g.trace back :=
  List.filterMap_append ..

theorem mem_trace_iff {g : ControlGraph} {path : List Nat} {n : NodeId} :
    n ∈ g.trace path ↔ ∃ k ∈ path, g.node? k = some n :=
  List.mem_filterMap

theorem exists_of_trace_eq {g : ControlGraph} {path : List Nat} {t rest : List NodeId} {n : NodeId}
    (h : g.trace path = t ++ n :: rest) : ∃ front k back, path = front ++ k :: back ∧ g.node? k = some n ∧
      g.trace front = t ∧ g.trace back = rest := by
  obtain ⟨front, behind, rfl, hfront, hbehind⟩ := List.filterMap_eq_append_iff.1 h
  obtain ⟨idle, k, back, rfl, hidle, hk, hback⟩ := List.filterMap_eq_cons_iff.1 hbehind
  refine ⟨front ++ idle, k, back, by simp, hk, ?_, hback⟩
  rw [trace_append, trace, hfront, trace, List.filterMap_eq_nil_iff.2 hidle, List.append_nil]

theorem trace_append_singleton (g : ControlGraph) (path : List Nat) (i : Nat) :
    g.trace (path ++ [i]) = g.trace path ++ g.toDraft.visited i := by
  unfold trace
  rw [List.filterMap_append]
  change _ ++ _ = _ ++ (g.node? i).toList
  cases hi : g.node? i <;> simp [hi]

theorem exists_traced :
    ∃ x d s, Control.Traced [(Draft.entry, .normal)] (.start callable) x d s body.traces ∧
      (ofLayers callable [] body).toDraft = d.connect (x.fall ++ x.returns) Draft.exit := by
  obtain ⟨s, h⟩ := Control.traced_build callable body (Draft.placed_start callable)
  exact ⟨_, _, s, h, rfl⟩

section Run

variable {callable} {g : ControlGraph} {x : Exits} {d : Draft} {s : List Nat} {b : Behaviour}
  {path : List Nat} {i : Nat} {w : List NodeId}

theorem trace_entry (hsound : g.Sound) : g.trace [Draft.entry] = [] := by
  have hentry := trace_append_singleton g [] Draft.entry
  rw [hsound.visited_eq_nil (.inl rfl)] at hentry
  exact hentry

theorem run_of_way (hg : g.toDraft = d.connect (x.fall ++ x.returns) Draft.exit) (hsound : g.Sound)
    (hway : d.Way (Draft.start callable).size d.size Draft.entry i w) :
    ∃ path, g.Run path i ∧ g.trace path = w := by
  induction hway with
  | start => exact ⟨[Draft.entry], .entry, trace_entry hsound⟩
  | @step j k w _ hedge _ _ ih =>
    obtain ⟨path, hrun, rfl⟩ := ih
    refine ⟨path ++ [k], hrun.step ?_, ?_⟩
    · rw [mem_next_iff, hg, Draft.hasEdge_connect]
      exact .inl hedge
    · rw [trace_append_singleton, hg, Draft.visited_connect]

variable (h : Control.Traced [(Draft.entry, .normal)] (.start callable) x d s b)
  (hg : g.toDraft = d.connect (x.fall ++ x.returns) Draft.exit) (hsound : g.Sound)

include h hg hsound

theorem way_of_run (hrun : g.Run path i) :
    (i = Draft.exit → ∃ j, (j ∈ (x.fall ++ x.returns).sources ∨ j ∈ s) ∧
        d.Way (Draft.start callable).size d.size Draft.entry j (g.trace path)) ∧
      (i ≠ Draft.exit → d.Way (Draft.start callable).size d.size Draft.entry i (g.trace path)) := by
  induction hrun with
  | entry =>
    rw [trace_entry hsound]
    exact ⟨fun h => absurd h (by decide), fun _ => .start⟩
  | @step path i j _ hnext ih =>
    rw [mem_next_iff] at hnext
    obtain ⟨hi, hiexit, hj, hjentry⟩ := hsound.edge i j hnext
    have hway := ih.2 hiexit
    rw [hg, Draft.hasEdge_connect] at hnext
    rw [trace_append_singleton]
    constructor
    · rintro rfl
      rw [hsound.visited_eq_nil (.inr rfl), List.append_nil]
      refine ⟨i, ?_, hway⟩
      rcases hnext with hnext | ⟨hi, -⟩
      · rcases (h.toExit i).1 hnext with ⟨e, he, -⟩ | hi
        · simp [Draft.start] at he
        · exact .inr hi
      · exact .inl hi
    · intro hjexit
      rw [hg, Draft.size_connect] at hj
      rw [hg, Draft.visited_connect]
      refine hway.step (hnext.resolve_right fun h => hjexit h.2) ?_ hj
      have : (Draft.start callable).size = 2 := rfl
      have : Draft.entry = 0 := rfl
      have : Draft.exit = 1 := rfl
      omega

omit hsound in
theorem next_exit {j : Nat} (hj : j ∈ (x.fall ++ x.returns).sources ∨ j ∈ s) : Draft.exit ∈ g.next j := by
  rw [mem_next_iff, hg, Draft.hasEdge_connect]
  rcases hj with hj | hj
  · exact .inr ⟨hj, rfl⟩
  · exact .inl ((h.toExit j).2 (.inr hj))

theorem exists_run_exit_iff : (∃ path, g.Run path Draft.exit ∧ g.trace path = w) ↔
    w ∈ b .falls ∨ w ∈ b .returns ∨ w ∈ b .reverts := by
  have hleads := fun e => h.leads e Draft.entry (List.mem_singleton_self _) w
  rw [hleads, hleads, hleads]
  constructor
  · rintro ⟨path, hrun, rfl⟩
    obtain ⟨j, hj, hway⟩ := (way_of_run h hg hsound hrun).1 rfl
    rw [← Control.Traced.mem_sources_append] at hj
    rcases hj with (hj | hj) | hj
    · exact .inl ⟨j, hj, hway⟩
    · exact .inr (.inl ⟨j, hj, hway⟩)
    · exact .inr (.inr ⟨j, hj, hway⟩)
  · intro hw
    obtain ⟨j, hj, hway⟩ : ∃ j, (j ∈ (x.fall ++ x.returns).sources ∨ j ∈ s) ∧
        d.Way (Draft.start callable).size d.size Draft.entry j w := by
      rcases hw with ⟨j, hj, hway⟩ | ⟨j, hj, hway⟩ | ⟨j, hj, hway⟩
      · exact ⟨j, .inl (Control.Traced.mem_sources_append.1 (.inl hj)), hway⟩
      · exact ⟨j, .inl (Control.Traced.mem_sources_append.1 (.inr hj)), hway⟩
      · exact ⟨j, .inr hj, hway⟩
    obtain ⟨path, hrun, rfl⟩ := run_of_way hg hsound hway
    refine ⟨path ++ [Draft.exit], hrun.step (next_exit h hg hj), ?_⟩
    rw [trace_append_singleton, hsound.visited_eq_nil (.inr rfl), List.append_nil]

theorem exists_run_iff_underway : (∃ path i, g.Run path i ∧ g.trace path = w) ↔ w ∈ b .underway := by
  have hinside : ∀ j, d.Way (Draft.start callable).size d.size Draft.entry j w →
      Inside [Draft.entry] (.start callable) d j := by
    intro j hway
    rcases hway.cases_end with ⟨rfl, -⟩ | hj
    · exact .inl (List.mem_singleton_self _)
    · exact .inr hj
  rw [h.leads .underway Draft.entry (List.mem_singleton_self _)]
  constructor
  · rintro ⟨path, i, hrun, rfl⟩
    by_cases hi : i = Draft.exit
    · obtain ⟨j, -, hway⟩ := (way_of_run h hg hsound hrun).1 hi
      exact ⟨j, hinside j hway, hway⟩
    · have hway := (way_of_run h hg hsound hrun).2 hi
      exact ⟨i, hinside i hway, hway⟩
  · rintro ⟨j, -, hway⟩
    obtain ⟨path, hrun, htrace⟩ := run_of_way hg hsound hway
    exact ⟨path, j, hrun, htrace⟩

end Run

variable {w : List NodeId}

theorem runs_to_exit_iff : (∃ path, (ofLayers callable [] body).Run path Draft.exit ∧
      (ofLayers callable [] body).trace path = w) ↔
    w ∈ body.traces .falls ∨ w ∈ body.traces .returns ∨ w ∈ body.traces .reverts := by
  obtain ⟨x, d, s, h, hg⟩ := exists_traced callable body
  exact exists_run_exit_iff h hg (sound_ofLayers callable [] body)

theorem runs_iff : (∃ path i, (ofLayers callable [] body).Run path i ∧
      (ofLayers callable [] body).trace path = w) ↔ w ∈ body.traces .underway := by
  obtain ⟨x, d, s, h, hg⟩ := exists_traced callable body
  exact exists_run_iff_underway h hg (sound_ofLayers callable [] body)

end ControlGraph

end ContractFlow
