import Mathlib

namespace Probe

open Function (update)

variable {κ : Type*} {n : Nat} {start : κ → Fin n} {owner : Nat → Option κ} {k l : κ} {p q i j : Nat}

def place (start : κ → Fin n) (k : κ) (p : Nat) : Nat := ((start k).val + p) % n

theorem place_lt (start : κ → Fin n) (k : κ) (p : Nat) : place start k p < n :=
  Nat.mod_lt _ (Nat.lt_of_le_of_lt (Nat.zero_le _) (start k).isLt)

theorem exists_place (start : κ → Fin n) (k : κ) (hi : i < n) : ∃ p < n, place start k p = i := by
  have hs := (start k).isLt
  have hn : 0 < n := Nat.lt_of_le_of_lt (Nat.zero_le _) hi
  refine ⟨(i + n - (start k).val) % n, Nat.mod_lt _ hn, ?_⟩
  rw [place, Nat.add_mod_mod, show (start k).val + (i + n - (start k).val) = i + n by omega,
    Nat.add_mod_right, Nat.mod_eq_of_lt hi]

def Passed (start : κ → Fin n) (owner : Nat → Option κ) (k : κ) (p : Nat) : Prop :=
  ∀ q < p, ∃ l, owner (place start k q) = some l ∧ l ≠ k

def Placed (start : κ → Fin n) (owner : Nat → Option κ) : Prop :=
  ∀ i < n, ∀ k, owner i = some k → ∃ p < n, place start k p = i ∧ Passed start owner k p

def Keeps (owner owner' : Nat → Option κ) : Prop := ∀ i k, owner i = some k → owner' i = some k

theorem passed_zero : Passed start owner k 0 := fun _ hq => absurd hq (Nat.not_lt_zero _)

theorem Passed.succ (h : Passed start owner k p) (ho : owner (place start k p) = some l)
    (hne : l ≠ k) : Passed start owner k (p + 1) := by
  intro q hq
  rcases Nat.lt_succ_iff_lt_or_eq.mp hq with hq | hq
  · exact h q hq
  · exact ⟨l, hq ▸ ho, hne⟩

theorem Passed.keeps {owner' : Nat → Option κ} (h : Passed start owner k p)
    (hk : Keeps owner owner') : Passed start owner' k p := by
  intro q hq
  cases h q hq with
  | intro l hl => exact ⟨l, hk _ l hl.1, hl.2⟩

theorem Passed.all (h : Passed start owner k n) (hi : i < n) : ∃ l, owner i = some l ∧ l ≠ k := by
  cases exists_place start k hi with
  | intro p hp => exact hp.2 ▸ h p hp.1

theorem Placed.le_of_passed (h : Placed start owner) (hi : i < n) (ho : owner i = some k)
    (hp : Passed start owner k p) : ∃ q < n, place start k q = i ∧ p ≤ q ∧ Passed start owner k q := by
  cases h i hi k ho with
  | intro q hq =>
    refine ⟨q, hq.1, hq.2.1, ?_, hq.2.2⟩
    apply Nat.le_of_not_lt
    intro hlt
    cases hp q hlt with
    | intro l hl =>
      rw [hq.2.1, ho] at hl
      exact hl.2 (Option.some.inj hl.1).symm

theorem Placed.unique (h : Placed start owner) (hi : i < n) (hj : j < n) (hik : owner i = some k)
    (hjk : owner j = some k) : i = j := by
  cases h i hi k hik with
  | intro p hp =>
    cases h.le_of_passed hj hjk hp.2.2 with
    | intro q hq =>
      -- both probes find the same first place
      rcases Nat.lt_or_ge p q with hlt | hge
      · cases hq.2.2.2 p hlt with
        | intro l hl =>
          rw [hp.2.1, hik] at hl
          exact absurd (Option.some.inj hl.1).symm hl.2
      · rw [← hp.2.1, ← hq.2.1, Nat.le_antisymm hge hq.2.2.1]

theorem Placed.absent (h : Placed start owner) (hp : Passed start owner k p)
    (hempty : owner (place start k p) = none) (hi : i < n) : owner i ≠ some k := by
  intro ho
  cases h.le_of_passed hi ho hp with
  | intro q hq =>
    rcases Nat.lt_or_eq_of_le hq.2.2.1 with hlt | heq
    · cases hq.2.2.2 p hlt with
      | intro l hl =>
        rw [hempty] at hl
        cases hl.1
    · rw [heq, hq.2.1, ho] at hempty
      cases hempty

theorem keeps_claim (hempty : owner i = none) : Keeps owner (update owner i (some k)) := by
  intro j l hj
  have hne : j ≠ i := by
    intro heq
    rw [heq, hempty] at hj
    cases hj
  rw [Function.update_of_ne hne]
  exact hj

theorem Placed.claim (h : Placed start owner) (hlt : p < n) (hp : Passed start owner k p)
    (hempty : owner (place start k p) = none) : Placed start (update owner (place start k p) (some k)) := by
  intro i hi l hl
  by_cases heq : i = place start k p
  · rw [heq, Function.update_self] at hl
    cases hl
    exact ⟨p, hlt, heq.symm, hp.keeps (keeps_claim hempty)⟩
  · rw [Function.update_of_ne heq] at hl
    cases h i hi l hl with
    | intro q hq => exact ⟨q, hq.1, hq.2.1, hq.2.2.keeps (keeps_claim hempty)⟩

end Probe
