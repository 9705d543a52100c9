import ContractFlow.Control.Structure
import Mathlib.Computability.Language
import Mathlib.Order.CompletePartialOrder

/-! This module contains the behaviours of control structures: what they can visit, by the way in which they end. -/

open Computability

namespace ContractFlow

inductive Ending where
  | falls
  | breaks
  | continues
  | returns
  | reverts
  | underway
deriving DecidableEq

def Departure.ending : Departure → Ending
  | breaks => .breaks
  | continues => .continues
  | returns => .returns

abbrev Behaviour := Ending → Language NodeId

namespace Behaviour

variable (free : Prop) [Decidable free] (b c n : Behaviour)

def only (way : Ending) : Behaviour := fun e =>
  if e = way ∨ e = .underway then 1 else 0

theorem mem_only_iff {way e : Ending} {w : List NodeId} : w ∈ only way e ↔ w = [] ∧ (e = way ∨ e = .underway) := by
  unfold only
  split
  · next h => simp [h]
  · next h => simp [h]

def visit (n : NodeId) : Behaviour
  | .falls => {[n]}
  | .underway => 1 + {[n]}
  | .breaks | .continues | .returns | .reverts => 0

def early : Behaviour := fun e =>
  if e = .falls then 0 else b e

def after (l : Language NodeId) : Behaviour := fun e =>
  l * b e

def seq : Behaviour :=
  b.early + c.after (b .falls)

def latch : Language NodeId :=
  b .falls + b .continues

def caught : Behaviour
  | .falls => b .breaks
  | .breaks | .continues => 0
  | .returns => b .returns
  | .reverts => b .reverts
  | .underway => b .underway

def tested : Behaviour
  | .falls => if free then c .falls else 0
  | .breaks | .continues | .returns => 0
  | .reverts => c .reverts
  | .underway => c .underway

/-- What a loop with the condition `c` and the body `b` does other than going round; `n` comes between. -/
def round : Behaviour :=
  c.tested free + (b.caught + n.early.after b.latch).after (c .falls)

def loop : Behaviour :=
  (round free b c n).after (c .falls * b.latch * n .falls)∗

def doRound : Behaviour :=
  b.caught + (c.tested free).after b.latch

def doLoop : Behaviour :=
  (doRound free b c).after (b.latch * c .falls)∗

/-! How behaviours are put together. -/

section Algebra

variable {free} {b c n} (d : Behaviour) {l : Language NodeId}

theorem after_mul (l m : Language NodeId) : d.after (l * m) = (d.after m).after l := by
  exact mul_assoc ..

theorem add_after (c : Behaviour) (l : Language NodeId) : (c + d).after l = c.after l + d.after l := by
  exact mul_add ..

theorem early_falls : d.early .falls = 0 :=
  if_pos rfl

theorem early_of_ne {e : Ending} (h : e ≠ .falls) : d.early e = d e :=
  if_neg h

theorem add_early (c : Behaviour) : (c + d).early = c.early + d.early := by
  funext e
  change _ = c.early e + d.early e
  by_cases he : e = .falls
  · rw [he, early_falls, early_falls, early_falls, add_zero]
  · rw [early_of_ne _ he, early_of_ne _ he, early_of_ne _ he]
    rfl

theorem after_early (l : Language NodeId) : (d.after l).early = d.early.after l := by
  funext e
  change _ = l * d.early e
  by_cases he : e = .falls
  · rw [he, early_falls, early_falls, mul_zero]
  · rw [early_of_ne _ he, early_of_ne _ he]
    rfl

theorem early_early : d.early.early = d.early := by
  funext e
  by_cases he : e = .falls
  · rw [he, early_falls, early_falls]
  · rw [early_of_ne _ he]

theorem seq_falls : b.seq c .falls = b .falls * c .falls :=
  zero_add _

theorem mem_seq_iff {e : Ending} {w : List NodeId} : w ∈ b.seq c e ↔
    e ≠ .falls ∧ w ∈ b e ∨ ∃ u ∈ b .falls, ∃ v ∈ c e, u ++ v = w := by
  change w ∈ b.early e + b .falls * c e ↔ _
  rw [Language.mem_add, Language.mem_mul]
  by_cases he : e = .falls
  · rw [he, early_falls]
    simp [Language.notMem_zero]
  · rw [early_of_ne _ he]
    simp [he]

theorem after_seq (c : Behaviour) (l : Language NodeId) : (c.after l).seq d = (c.seq d).after l := by
  unfold seq
  rw [after_early, add_after, ← after_mul]
  rfl

theorem add_seq (b c : Behaviour) : (b + c).seq d = b.seq d + c.seq d := by
  unfold seq
  rw [add_early, add_add_add_comm]
  congr 1
  exact add_mul ..

theorem seq_add (b c : Behaviour) : b.seq (c + d) = b.seq c + b.seq d := by
  unfold seq
  rw [add_after, add_add_add_comm]
  congr 1
  exact (add_idem _).symm

theorem seq_assoc (b c : Behaviour) : (b.seq c).seq d = b.seq (c.seq d) := by
  have hseq : (b.seq c).seq d = (b.seq c).early + d.after (b .falls * c .falls) := by
    rw [← seq_falls]
    rfl
  rw [hseq, after_mul]
  unfold seq
  rw [add_early, early_early, after_early, add_after, add_assoc]

theorem only_seq {way : Ending} (h : way ≠ .falls) : (only way).seq c = only way := by
  have hfalls : only way .falls = 0 := if_neg (by simp [h.symm])
  funext e
  change (only way).early e + only way .falls * c e = _
  rw [hfalls, zero_mul, add_zero]
  by_cases he : e = .falls
  · rw [he, early_falls, hfalls]
  · exact early_of_ne _ he

theorem only_falls_seq (h : 1 ≤ c .underway) : (only .falls).seq c = c := by
  funext e
  change (only .falls).early e + 1 * c e = c e
  rw [one_mul]
  cases e with
  | underway => exact add_eq_right_iff_le.2 h
  | _ => exact zero_add _

theorem early_seq (c : Behaviour) : c.early.seq d = c.early := by
  funext e
  change c.early.early e + c.early .falls * d e = _
  rw [early_early, early_falls, zero_mul, add_zero]

theorem early_le_seq (b c : Behaviour) : b.early ≤ b.seq c :=
  fun _ => le_add_of_nonneg_right zero_le

theorem after_le_seq (b c : Behaviour) : c.after (b .falls) ≤ b.seq c :=
  fun _ => le_add_of_nonneg_left zero_le

theorem early_mono (h : b ≤ c) : b.early ≤ c.early := by
  intro e
  unfold early
  split
  · exact le_rfl
  · exact h e

theorem after_mono (h : b ≤ c) (l : Language NodeId) : b.after l ≤ c.after l :=
  fun e => mul_le_mul_right (h e) l

theorem seq_mono (h : c ≤ d) (b : Behaviour) : b.seq c ≤ b.seq d :=
  fun e => add_le_add le_rfl (mul_le_mul_right (h e) _)

theorem seq_mono_left (h : b ≤ c) : b.seq d ≤ c.seq d :=
  fun e => add_le_add (early_mono h e) (mul_le_mul_left (h .falls) _)

theorem after_kstar (l : Language NodeId) : d.after l∗ = d + (d.after l∗).after l := by
  funext e
  change l∗ * d e = d e + l * (l∗ * d e)
  conv_lhs => rw [← one_add_mul_kstar, add_mul, one_mul, mul_assoc]

theorem after_kstar_le (hb : b ≤ c) (hc : c.after l ≤ c) : b.after l∗ ≤ c :=
  fun e => kstar_mul_le (hb e) (hc e)

end Algebra

/-! What loops do. -/

section Loop

variable {P Q R : Behaviour}

theorem loop_eq : loop free b c n
    = c.tested free + (b.caught + (n.seq (loop free b c n)).after b.latch).after (c .falls) := by
  have hround : (loop free b c n).after (c .falls * b.latch * n .falls)
      = (((loop free b c n).after (n .falls)).after b.latch).after (c .falls) := by
    rw [after_mul, after_mul]
  unfold seq
  rw [add_after _ n.early, ← add_assoc b.caught, add_after _ (b.caught + _), ← add_assoc, ← hround]
  exact after_kstar ..

theorem doLoop_eq : doLoop free b c
    = b.caught + (c.tested free + (doLoop free b c).after (c .falls)).after b.latch := by
  rw [add_after, ← add_assoc, ← after_mul]
  exact after_kstar ..

variable {free} {b c n} (hcaught : b.caught.seq R ≤ Q) (htrue : c.seq Q ≤ P)
  (hfalse : free → c.seq R ≤ P)

include htrue hfalse in
theorem tested_seq_le : (c.tested free).seq R ≤ P := by
  have hearly : (c.tested free).early ≤ c.early := by
    intro e
    cases e with
    | falls | reverts | underway => exact le_rfl
    | _ => exact zero_le
  intro e
  apply add_le
  · exact (hearly e).trans ((early_le_seq c Q e).trans (htrue e))
  · change (if free then c .falls else 0) * R e ≤ P e
    split
    · next h => exact (after_le_seq c R e).trans (hfalse h e)
    · rw [zero_mul]
      exact zero_le

include hcaught htrue hfalse

theorem loop_seq_le (hagain : (n.seq P).after b.latch ≤ Q) : (loop free b c n).seq R ≤ P := by
  have henter : Q.after (c .falls) ≤ P := (after_le_seq c Q).trans htrue
  unfold loop
  rw [after_seq]
  apply after_kstar_le
  · unfold round
    rw [add_seq, after_seq, add_seq, after_seq, early_seq]
    apply add_le (tested_seq_le htrue hfalse)
    have hbody : b.caught.seq R + n.early.after b.latch ≤ Q :=
      add_le hcaught ((after_mono (early_le_seq n P) _).trans hagain)
    exact (after_mono hbody _).trans henter
  · rw [after_mul, after_mul]
    calc ((P.after (n .falls)).after b.latch).after (c .falls)
        ≤ ((n.seq P).after b.latch).after (c .falls) := after_mono (after_mono (after_le_seq n P) _) _
      _ ≤ Q.after (c .falls) := after_mono hagain _
      _ ≤ P := henter

theorem doLoop_seq_le (hagain : P.after b.latch ≤ Q) : (doLoop free b c).seq R ≤ Q := by
  unfold doLoop
  rw [after_seq]
  apply after_kstar_le
  · unfold doRound
    rw [add_seq, after_seq]
    exact add_le hcaught ((after_mono (tested_seq_le htrue hfalse) _).trans hagain)
  · rw [after_mul]
    exact (after_mono ((after_le_seq c Q).trans htrue) _).trans hagain

end Loop

structure Watched : Prop where
  start : 1 ≤ b .underway
  before : ∀ e, b e ≤ b .underway

variable {b c n} {free}

theorem watched_only (way : Ending) : (only way).Watched where
  start := by simp [only]
  before e := by
    unfold only
    rw [if_pos (.inr rfl : Ending.underway = way ∨ _)]
    split
    · exact le_rfl
    · exact zero_le

theorem watched_visit (n : NodeId) : (visit n).Watched where
  start := le_add_of_nonneg_right zero_le
  before e := by
    cases e with
    | falls => exact le_add_of_nonneg_left zero_le
    | underway => exact le_rfl
    | _ => exact zero_le

theorem early_le (e : Ending) : b.early e ≤ b e := by
  unfold early
  split
  · exact zero_le
  · exact le_rfl

theorem caught_le (e : Ending) (h : b.Watched) : b.caught e ≤ b.caught .underway := by
  cases e with
  | falls | returns | reverts => exact h.before _
  | underway => exact le_rfl
  | _ => exact zero_le

theorem tested_le (e : Ending) (h : c.Watched) : c.tested free e ≤ c.tested free .underway := by
  cases e with
  | falls =>
    change (if free then c .falls else 0) ≤ c .underway
    split
    · exact h.before _
    · exact zero_le
  | reverts => exact h.before _
  | underway => exact le_rfl
  | _ => exact zero_le

namespace Watched

theorem early_le (h : b.Watched) (e : Ending) : b.early e ≤ b.early .underway :=
  (Behaviour.early_le e).trans (h.before e)

theorem seq (hb : b.Watched) (hc : c.Watched) : (b.seq c).Watched where
  start := hb.start.trans (le_add_of_nonneg_right zero_le)
  before e := add_le_add (hb.early_le e) (mul_le_mul_right (hc.before e) _)

theorem add (hb : b.Watched) (hc : ∀ e, c e ≤ c .underway) : (b + c).Watched where
  start := hb.start.trans (le_add_of_nonneg_right zero_le)
  before e := add_le_add (hb.before e) (hc e)

theorem loop (hb : b.Watched) (hc : c.Watched) (hn : n.Watched) : (loop free b c n).Watched where
  start := by
    rw [loop_eq]
    exact hc.start.trans (le_add_of_nonneg_right zero_le)
  before e := by
    apply mul_le_mul_right
    apply add_le_add (tested_le e hc)
    apply mul_le_mul_right
    exact add_le_add (caught_le e hb) (mul_le_mul_right (hn.early_le e) _)

theorem doLoop (hb : b.Watched) (hc : c.Watched) : (doLoop free b c).Watched where
  start := by
    rw [doLoop_eq]
    exact hb.start.trans (le_add_of_nonneg_right zero_le)
  before e := by
    apply mul_le_mul_right
    exact add_le_add (caught_le e hb) (mul_le_mul_right (tested_le e hc) _)

theorem seq_only_falls (h : b.Watched) : b.seq (only .falls) = b := by
  funext e
  change b.early e + b .falls * only .falls e = b e
  cases e with
  | falls => exact (zero_add _).trans (mul_one _)
  | underway => exact (congrArg _ (mul_one _)).trans (add_eq_left_iff_le.2 (h.before .falls))
  | _ => exact (congrArg _ (mul_zero _)).trans (add_zero _)

end Watched

def Plain (b : Behaviour) : Prop :=
  ∀ e, e ≠ .falls → e ≠ .underway → b e = 0

namespace Plain

theorem only : (only .falls).Plain := by
  intro e h h'
  exact if_neg (by tauto)

theorem visit (n : NodeId) : (visit n).Plain := by
  intro e h h'
  cases e with
  | falls => exact absurd rfl h
  | underway => exact absurd rfl h'
  | _ => rfl

theorem seq (hb : b.Plain) (hc : c.Plain) : (b.seq c).Plain := by
  intro e h h'
  change b.early e + b .falls * c e = 0
  rw [early_of_ne _ h, hb e h h', hc e h h', mul_zero, add_zero]

theorem add (hb : b.Plain) (hc : c.Plain) : (b + c).Plain := by
  intro e h h'
  change b e + c e = 0
  rw [hb e h h', hc e h h', add_zero]

theorem tested_add (hc : c.Plain) (d : Behaviour) :
    c.tested free + d.after (c .falls) = c.seq d + if free then c else 0 := by
  funext e
  change c.tested free e + c .falls * d e = c.early e + c .falls * d e + (if free then c else 0) e
  rw [add_right_comm]
  congr 1
  have hzero : ∀ e, e ≠ .falls → e ≠ .underway → (if free then c else 0) e = 0 := by
    intro e h h'
    split
    · exact hc e h h'
    · rfl
  cases e with
  | falls =>
    rw [show c.early .falls = 0 from rfl, zero_add]
    change (if free then c .falls else 0) = _
    split <;> rfl
  | underway =>
    change c .underway = c .underway + _
    split
    · rw [add_idem]
    · exact (add_zero _).symm
  | reverts =>
    rw [hzero .reverts (by simp) (by simp), add_zero]
    rfl
  | breaks =>
    rw [hzero .breaks (by simp) (by simp), add_zero]
    exact (hc .breaks (by simp) (by simp)).symm
  | continues =>
    rw [hzero .continues (by simp) (by simp), add_zero]
    exact (hc .continues (by simp) (by simp)).symm
  | returns =>
    rw [hzero .returns (by simp) (by simp), add_zero]
    exact (hc .returns (by simp) (by simp)).symm

end Plain

end Behaviour

namespace Control

def traces : Control → Behaviour
  | skip | hole => .only .falls
  | stuck => .only .underway
  | visit n => .visit n
  | seq first second => first.traces.seq second.traces
  | either first second => first.traces + second.traces
  | label _ part | join part => part.traces
  | branch condition yes no =>
    condition.traces.seq (yes.traces + if condition ≠ skip then no.traces else 0)
  | loop condition body next => .loop (condition ≠ skip) body.traces condition.traces next.traces
  | doLoop body condition => .doLoop (condition ≠ skip) body.traces condition.traces
  | leave way => .only way.ending
  | stop => .only .reverts

theorem watched_traces (c : Control) : c.traces.Watched := by
  induction c with
  | visit n => exact Behaviour.watched_visit n
  | seq first second ih₁ ih₂ => exact ih₁.seq ih₂
  | either first second ih₁ ih₂ => exact ih₁.add ih₂.before
  | label kind part ih => exact ih
  | join part ih => exact ih
  | branch condition yes no ih₁ ih₂ ih₃ =>
    refine ih₁.seq (ih₂.add fun e => ?_)
    split
    · exact ih₃.before e
    · exact le_rfl
  | loop condition body next ih₁ ih₂ ih₃ => exact ih₂.loop ih₁ ih₃
  | doLoop body condition ih₁ ih₂ => exact ih₁.doLoop ih₂
  | _ => exact Behaviour.watched_only _

end Control

end ContractFlow
