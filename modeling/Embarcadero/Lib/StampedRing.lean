import Embarcadero.Lib.Residue

namespace StampedRing

open Function (update)

variable {n m P C l : Nat} {seq : Nat → Nat}

theorem apart (hl : l < P) (hP : P < l + n) : l % n ≠ P % n := by
  intro h
  exact absurd (Residue.add_le_of_mod_eq hl h) (Nat.not_le.mpr hP)

structure Stamps (n m : Nat) (seq : Nat → Nat) (P : Nat) : Prop where
  written : ∀ l, l < P → P ≤ l + n → seq (l % n) = (l + 1) % m
  blank : ∀ l, P ≤ l → l < n → seq l = 0

namespace Stamps

theorem zero : Stamps n m (fun _ => 0) 0 where
  written _ hl := absurd hl (Nat.not_lt_zero _)
  blank _ _ _ := rfl

theorem publish (h : Stamps n m seq P) : Stamps n m (update seq (P % n) ((P + 1) % m)) (P + 1) where
  written l hl hlap := by
    cases Nat.lt_succ_iff_lt_or_eq.mp hl with
    | inl hlt => exact (Function.update_of_ne (apart hlt hlap) _ _).trans (h.written l hlt (Nat.le_of_succ_le hlap))
    | inr heq => exact heq ▸ Function.update_self ..
  blank l hl hlap := by
    refine (Function.update_of_ne ?_ _ _).trans (h.blank l (Nat.le_of_succ_le hl) hlap)
    rw [Nat.mod_eq_of_lt (Nat.lt_trans hl hlap)]
    exact Nat.ne_of_gt hl

theorem current_iff (h : Stamps n m seq P) (hn : 0 < n) (hm : n < m) (hle : C ≤ P) (hlap : P ≤ C + n) :
    seq (C % n) = (C + 1) % m ↔ C < P := by
  refine ⟨fun hseq => Nat.lt_of_le_of_ne hle fun heq => ?_, fun hlt => h.written C hlt hlap⟩
  subst heq
  cases Nat.lt_or_ge C n with
  | inl hfirst =>
    -- in the first lap the slot is still blank
    rw [Nat.mod_eq_of_lt hfirst, h.blank C (Nat.le_refl C) hfirst, Nat.mod_eq_of_lt (by omega)] at hseq
    cases hseq
  | inr hlater =>
    -- otherwise it holds the stamp of one lap before
    have hold := h.written (C - n) (by omega) (by omega)
    rw [← Nat.add_mod_right, Nat.sub_add_cancel hlater, hseq] at hold
    have := Residue.add_le_of_mod_eq (by omega) hold.symm
    omega

end Stamps

end StampedRing
