import Mathlib

namespace Tombstones

open Function (update)

inductive Cell (κ : Type*)
  | vacant
  | buried
  | key (k : κ)

variable {κ : Type*} {path : κ → Nat → Nat} {limit : Nat} {table : Nat → Cell κ} {live live' : κ → Prop} {k l : κ}
  {i p : Nat}

def Passed (path : κ → Nat → Nat) (table : Nat → Cell κ) (k : κ) (p : Nat) : Prop :=
  ∀ q < p, table (path k q) ≠ .vacant

structure Holds (path : κ → Nat → Nat) (limit : Nat) (table : Nat → Cell κ) (live : κ → Prop) : Prop where
  reach : ∀ k, live k → ∃ p < limit, table (path k p) = .key k ∧ Passed path table k p
  live : ∀ i k, table i = .key k → live k
  once : ∀ i j k, table i = .key k → table j = .key k → i = j

theorem Passed.update (h : Passed path table k p) {c : Cell κ} (hc : c ≠ .vacant) :
    Passed path (update table i c) k p := by
  intro q hq
  by_cases hi : path k q = i
  · rw [hi, Function.update_self]
    exact hc
  · rw [Function.update_of_ne hi]
    exact h q hq

namespace Holds

theorem empty : Holds path limit (fun _ => .vacant) fun _ => False :=
  ⟨fun _ h => h.elim, fun _ _ h => (nomatch h), fun _ _ _ h => (nomatch h)⟩

theorem congr (h : Holds path limit table live) (heq : ∀ k, live' k ↔ live k) : Holds path limit table live' where
  reach k hk := h.reach k ((heq k).mp hk)
  live i k hk := (heq k).mpr (h.live i k hk)
  once := h.once

theorem bury (h : Holds path limit table live) (hk : table i = .key k) :
    Holds path limit (update table i .buried) fun l => live l ∧ l ≠ k := by
  have hold : ∀ j l, update table i .buried j = .key l → table j = .key l ∧ j ≠ i := by
    intro j l hj
    by_cases hi : j = i
    · rw [hi, Function.update_self] at hj
      cases hj
    · rw [Function.update_of_ne hi] at hj
      exact ⟨hj, hi⟩
  refine ⟨fun l hl => ?_, fun j l hj => ?_, fun j j' l hj hj' => h.once j j' l (hold j l hj).1 (hold j' l hj').1⟩
  · obtain ⟨p, hp, hat, hpassed⟩ := h.reach l hl.1
    have hne : path l p ≠ i := by
      intro heq
      rw [heq, hk] at hat
      exact hl.2 (Cell.key.inj hat).symm
    refine ⟨p, hp, ?_, hpassed.update nofun⟩
    rw [Function.update_of_ne hne]
    exact hat
  · obtain ⟨hj, hne⟩ := hold j l hj
    refine ⟨h.live j l hj, fun heq => hne ?_⟩
    exact h.once j i k (heq ▸ hj) hk

theorem put (h : Holds path limit table live) (hk : ¬live k) (hp : p < limit) (hpassed : Passed path table k p)
    (hfree : ∀ l, table (path k p) ≠ .key l) :
    Holds path limit (update table (path k p) (.key k)) fun l => live l ∨ l = k := by
  have hold : ∀ j l, update table (path k p) (.key k) j = .key l → j = path k p ∧ l = k ∨ table j = .key l := by
    intro j l hj
    by_cases hi : j = path k p
    · rw [hi, Function.update_self] at hj
      exact .inl ⟨hi, (Cell.key.inj hj).symm⟩
    · rw [Function.update_of_ne hi] at hj
      exact .inr hj
  refine ⟨fun l hl => ?_, fun j l hj => ?_, fun j j' l hj hj' => ?_⟩
  · cases hl with
    | inl hl =>
      obtain ⟨q, hq, hat, hpassed'⟩ := h.reach l hl
      have hne : path l q ≠ path k p := fun heq => hfree l (heq ▸ hat)
      refine ⟨q, hq, ?_, hpassed'.update nofun⟩
      rw [Function.update_of_ne hne]
      exact hat
    | inr heq =>
      subst heq
      exact ⟨p, hp, Function.update_self .., hpassed.update nofun⟩
  · exact (hold j l hj).symm.imp (h.live j l) And.right
  · cases hold j l hj with
    | inl hnew =>
      cases hold j' l hj' with
      | inl hnew' => exact hnew.1.trans hnew'.1.symm
      | inr hold' => exact absurd (h.live j' l hold') (hnew.2 ▸ hk)
    | inr hold₁ =>
      cases hold j' l hj' with
      | inl hnew' => exact absurd (h.live j l hold₁) (hnew'.2 ▸ hk)
      | inr hold' => exact h.once j j' l hold₁ hold'

end Holds

end Tombstones
