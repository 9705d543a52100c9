/-!
This module contains the measure by which graph searches end: the weight of what has not been seen.
-/

namespace ContractFlow.Graph

def total (w : α → Nat) : List α → Nat
  | [] => 0
  | x :: l => w x + total w l

@[simp]
theorem total_nil (w : α → Nat) : total w [] = 0 := rfl

@[simp]
theorem total_cons (w : α → Nat) (x : α) (l : List α) : total w (x :: l) = w x + total w l := rfl

theorem total_append (w : α → Nat) (l r : List α) : total w (l ++ r) = total w l + total w r := by
  induction l with
  | nil => simp
  | cons x l ih => simp only [List.cons_append, total_cons, ih]; omega

theorem total_eq_of_const {w : α → Nat} {k : Nat} {l : List α} (h : ∀ x ∈ l, w x = k) :
    total w l = k * l.length := by
  induction l with
  | nil => simp
  | cons x l ih =>
    rw [total_cons, h x (by simp), ih fun y hy => h y (by simp [hy]), List.length_cons,
      Nat.mul_succ, Nat.add_comm]

def weight (w : α → Nat) (p : α → Bool) : List α → Nat
  | [] => 0
  | x :: l => (if p x then w x else 0) + weight w p l

variable {w : α → Nat} {p q : α → Bool} {l : List α}

theorem weight_le (h : ∀ x, p x → q x) : weight w p l ≤ weight w q l := by
  induction l with
  | nil => simp [weight]
  | cons x l ih =>
    have := h x
    simp only [weight]
    split <;> split <;> simp_all
    · omega

theorem weight_add_le {x : α} (h : ∀ y, p y → q y) (hx : x ∈ l) (hq : q x) (hp : ¬ p x) :
    weight w p l + w x ≤ weight w q l := by
  induction l with
  | nil => simp at hx
  | cons y l ih =>
    simp only [weight]
    rcases List.mem_cons.1 hx with rfl | hx
    · have := weight_le (w := w) (l := l) h
      simp [hq, hp]; omega
    · have := ih hx
      have hy := h y
      split <;> split <;> simp_all <;> omega

end ContractFlow.Graph
