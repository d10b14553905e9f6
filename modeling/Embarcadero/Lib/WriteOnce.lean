import Mathlib

namespace WriteOnce

open Function (update)

variable {α : Type*} {cells : Nat → Option α} {i j : Nat} {a b : α}

def write (cells : Nat → Option α) (i : Nat) (a : α) : Nat → Option α := update cells i ((cells i).or (some a))

def FilledTo (cells : Nat → Option α) (i : Nat) (a : α) : Prop := ∀ j < i, cells j = some a

def Agrees (cells : Nat → Option α) : Prop := ∀ i a, cells i = some a → FilledTo cells i a

theorem write_of_some (h : cells j = some b) : write cells i a j = some b := by
  rw [write, Function.update_apply]
  split
  next heq => rw [← heq, h, Option.some_or]
  · exact h

theorem FilledTo.write (h : FilledTo cells j b) : FilledTo (write cells i a) j b :=
  fun k hk => write_of_some (h k hk)

theorem FilledTo.succ (h : FilledTo cells i a) (hi : cells i = some a) : FilledTo cells (i + 1) a := by
  intro j hj
  cases Nat.lt_succ_iff_lt_or_eq.mp hj with
  | inl hlt => exact h j hlt
  | inr heq => exact heq ▸ hi

theorem Agrees.write (h : Agrees cells) (hfilled : FilledTo cells i a) : Agrees (write cells i a) := by
  intro j b hj
  rw [WriteOnce.write, Function.update_apply] at hj
  split at hj
  next heq =>
    rw [heq]
    cases hi : cells i with
    | none =>
      rw [hi] at hj
      cases hj
      exact hfilled.write
    | some c =>
      rw [hi] at hj
      cases hj
      exact (h i _ hi).write
  · exact (h j b hj).write

theorem Agrees.unique (h : Agrees cells) (hi : cells i = some a) (hj : cells j = some b) : a = b := by
  cases Nat.lt_trichotomy i j with
  | inl hlt => exact Option.some.inj (hi.symm.trans (h j b hj i hlt))
  | inr hge =>
    cases hge with
    | inl heq => exact Option.some.inj ((heq ▸ hi).symm.trans hj)
    | inr hgt => exact Option.some.inj ((h i a hi j hgt).symm.trans hj)

end WriteOnce
