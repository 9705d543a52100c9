/-!
This module contains tables that keep the values of a function on the numbers below a bound, each of
them computed at most once.
-/

namespace ContractFlow

structure Memo {α : Type} (f : Nat → α) where
  entries : Array (Thunk α)
  sound : ∀ (i : Nat) (h : i < entries.size), entries[i].get = f i

namespace Memo

variable {α : Type} {f : Nat → α}

def upTo (f : Nat → α) (size : Nat) : Memo f where
  entries := Array.ofFn fun i : Fin size => Thunk.mk fun _ => f i
  sound := by simp [Thunk.get]

def ofEq (g : Nat → α) (h : ∀ i, g i = f i) (size : Nat) : Memo f where
  entries := Array.ofFn fun i : Fin size => Thunk.mk fun _ => g i
  sound := by simp [Thunk.get, h]

def get (m : Memo f) (i : Nat) : α :=
  if h : i < m.entries.size then m.entries[i].get else f i

@[simp]
theorem get_eq (m : Memo f) (i : Nat) : m.get i = f i := by
  unfold get
  split
  · exact m.sound i _
  · rfl

end Memo

end ContractFlow
