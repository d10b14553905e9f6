import Embarcadero.Lib.Residue

namespace Window

open Residue (Points)

variable {n floor top v r l : Nat} {use u : Nat → Nat}

def slot (n v : Nat) : Nat := if v = n then 0 else v

structure Tracks (n floor top : Nat) (use : Nat → Nat) (v r : Nat) : Prop where
  points : Points n v r
  start : floor ≤ r
  reach : r ≤ top
  lap : top < floor + n
  inUse : ∀ l, 0 < use l → r ≤ l ∧ l < top

namespace Tracks

theorem pos (h : Tracks n floor top use v r) : 0 < n := by
  have := h.start
  have := h.reach
  have := h.lap
  omega

theorem mono (h : Tracks n floor top use v r) (hle : ∀ l, u l ≤ use l) : Tracks n floor top u v r :=
  { h with inUse := fun l hl => h.inUse l (Nat.lt_of_lt_of_le hl (hle l)) }

theorem eq_of_slot (h : Tracks n floor top use v r) (hl : 0 < use l) (hs : slot n v = l % n) : r = l := by
  have hv : slot n v = r % n := h.points.slot
  have hin := h.inUse l hl
  have := h.start
  have := h.lap
  apply Residue.eq_of_mod_eq (w := floor) (n := n)
  · exact h.start
  · omega
  · omega
  · omega
  · exact hv ▸ hs

theorem retire (h : Tracks n floor top use v r) (hl : 0 < use l) (hs : slot n v = l % n) (hle : ∀ m, u m ≤ use m)
    (hgone : u l = 0) : Tracks n floor top u (min (l % n + 1) n) (r + 1) := by
  have hr := h.eq_of_slot hl hs
  have hin := h.inUse l hl
  refine ⟨?_, ?_, ?_, h.lap, fun m hm => ?_⟩
  · exact Points.succ (Nat.mod_lt _ h.pos) (by rw [hr])
  · exact Nat.le_succ_of_le h.start
  · omega
  · have hm' := h.inUse m (Nat.lt_of_lt_of_le hm (hle m))
    have hne : m ≠ l := by
      intro heq
      rw [heq, hgone] at hm
      exact Nat.lt_irrefl 0 hm
    omega

end Tracks

end Window
