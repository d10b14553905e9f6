import Mathlib

namespace Log

open List

variable {α : Type*}

def upTo (m : Nat → α) (n : Nat) : List α := (List.range n).map m

def fill (m : Nat → α) : Nat → List α → Nat → α
  | _, [] => m
  | i, a :: as => fill (Function.update m i a) (i + 1) as

@[simp] theorem upTo_zero (m : Nat → α) : upTo m 0 = [] := rfl

@[simp] theorem length_upTo (m : Nat → α) (n : Nat) : (upTo m n).length = n := by simp [upTo]

theorem upTo_succ (m : Nat → α) (n : Nat) : upTo m (n + 1) = upTo m n ++ [m n] := by
  simp [upTo, range_succ]

variable {rs rs' : List (Nat × Nat)} {as : List α} {hi lo n : Nat} {m : Nat → α}

theorem upTo_congr {m' : Nat → α} (h : ∀ i < n, m i = m' i) : upTo m n = upTo m' n :=
  map_congr_left fun i hi => h i (mem_range.mp hi)

theorem mem_upTo {a : α} : a ∈ upTo m n ↔ ∃ i < n, m i = a := by
  simp [upTo]

theorem upTo_prefix (m : Nat → α) {n' : Nat} (h : n ≤ n') : upTo m n <+: upTo m n' := by
  obtain ⟨d, rfl⟩ := Nat.exists_eq_add_of_le h
  rw [upTo, upTo, range_add, map_append]
  exact prefix_append _ _

theorem fill_of_lt {i j : Nat} (h : j < i) : fill m i as j = m j := by
  induction as generalizing m i with
  | nil => rfl
  | cons a as ih =>
    rw [fill, ih (Nat.lt_succ_of_lt h), Function.update_of_ne (Nat.ne_of_lt h)]

theorem upTo_fill (m : Nat → α) (i : Nat) (as : List α) : upTo (fill m i as) (i + as.length) = upTo m i ++ as := by
  induction as generalizing m i with
  | nil => simp [fill]
  | cons a as ih =>
    have hlen : i + (a :: as).length = i + 1 + as.length := by simp; omega
    have hold : upTo (Function.update m i a) i = upTo m i :=
      upTo_congr fun j hj => Function.update_of_ne (Nat.ne_of_lt hj) _ _
    rw [hlen, fill, ih, upTo_succ, hold, Function.update_self]
    simp

theorem range_append_range' (a n : Nat) : List.range a ++ List.range' a n = List.range (a + n) := by
  have h : List.range' 0 a ++ List.range' (0 + a) n = List.range' 0 (a + n) := List.range'_append_1
  rwa [Nat.zero_add, ← range_eq_range', ← range_eq_range'] at h

def Tiles : Nat → List (Nat × Nat) → Nat → Prop
  | lo, [], hi => lo = hi
  | lo, (start, length) :: rs, hi => start = lo ∧ Tiles (lo + length) rs hi

@[simp] theorem tiles_nil : Tiles lo [] hi ↔ lo = hi := Iff.rfl

@[simp] theorem tiles_cons {start length : Nat} :
    Tiles lo ((start, length) :: rs) hi ↔ start = lo ∧ Tiles (lo + length) rs hi := Iff.rfl

theorem Tiles.append {mid : Nat} (h : Tiles lo rs mid) (h' : Tiles mid rs' hi) : Tiles lo (rs ++ rs') hi := by
  induction rs generalizing lo with
  | nil =>
    cases h
    exact h'
  | cons r rs ih => exact ⟨h.1, ih h.2⟩

theorem tiles_append : Tiles lo (rs ++ rs') hi ↔ ∃ mid, Tiles lo rs mid ∧ Tiles mid rs' hi := by
  induction rs generalizing lo with
  | nil => simp
  | cons r rs ih => simp [Tiles, ih, and_assoc]

theorem pairwise_of_filter {β γ : Type*} [DecidableEq β] {f : α → β} {g : α → γ}
    (h : ∀ b, ((as.filter fun a => f a = b).map g).Nodup) : as.Pairwise fun a a' => (f a, g a) ≠ (f a', g a') := by
  induction as with
  | nil => exact .nil
  | cons a as ih =>
    refine .cons (fun a' ha' heq => ?_) (ih fun b => ?_)
    · obtain ⟨hf, hg⟩ := Prod.mk.inj heq
      have hnd := h (f a)
      rw [filter_cons_of_pos (by simp), map_cons, nodup_cons] at hnd
      exact hnd.1 (hg ▸ mem_map_of_mem (mem_filter.mpr ⟨ha', by simp [hf]⟩))
    · have hnd := h b
      rw [filter_cons] at hnd
      split at hnd
      · exact (nodup_cons.mp hnd).2
      · exact hnd

end Log
