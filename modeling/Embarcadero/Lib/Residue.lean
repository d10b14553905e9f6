import Mathlib

namespace Residue

variable {n w a b v l : Nat}

theorem add_le_of_mod_eq (hlt : a < b) (h : a % n = b % n) : a + n ≤ b := by
  have hz : (b - a) % n = 0 := Nat.sub_mod_eq_zero_of_mod_eq h.symm
  have hle : n ≤ b - a := Nat.le_of_dvd (Nat.sub_pos_of_lt hlt) (Nat.dvd_of_mod_eq_zero hz)
  omega

theorem eq_of_mod_eq (ha : w ≤ a) (ha' : a < w + n) (hb : w ≤ b) (hb' : b < w + n) (h : a % n = b % n) : a = b := by
  rcases Nat.lt_trichotomy a b with hab | hab | hab
  · have := add_le_of_mod_eq hab h
    omega
  · exact hab
  · have := add_le_of_mod_eq hab h.symm
    omega

def Points (n v l : Nat) : Prop := v ≤ n ∧ v % n = l % n

theorem Points.slot (h : Points n v l) : (if v = n then 0 else v) = l % n := by
  rw [← h.2]
  split
  next hv => rw [hv, Nat.mod_self]
  · exact (Nat.mod_eq_of_lt (Nat.lt_of_le_of_ne h.1 ‹_›)).symm

theorem Points.succ (hs : a < n) (ha : a = l % n) : Points n (min (a + 1) n) (l + 1) := by
  have hmin : min (a + 1) n = a + 1 := Nat.min_eq_left hs
  rw [hmin]
  refine ⟨hs, ?_⟩
  rw [ha, Nat.mod_add_mod]

theorem forward_eq (hw : w ≤ l) (hl : l < w + n) :
    (if w % n ≤ l % n then l % n - w % n else n - w % n + l % n) = l - w := by
  have hn : 0 < n := by omega
  have hdw := Nat.div_add_mod w n
  have hdl := Nat.div_add_mod l n
  have hmw := Nat.mod_lt w hn
  have hml := Nat.mod_lt l hn
  -- the two laps differ by at most one
  have hlap : l / n = w / n ∨ l / n = w / n + 1 := by
    have h₁ : w / n ≤ l / n := Nat.div_le_div_right hw
    have h₂ : l / n ≤ w / n + 1 := by
      rw [← Nat.add_div_right w hn]
      exact Nat.div_le_div_right (Nat.le_of_lt hl)
    omega
  rcases hlap with h | h
  · rw [h] at hdl
    split
    · omega
    · omega
  · rw [h, Nat.mul_add, Nat.mul_one] at hdl
    split
    · omega
    · omega

end Residue
