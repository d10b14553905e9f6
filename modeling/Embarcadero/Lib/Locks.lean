import Mathlib

namespace Locks

variable {κ τ : Type*}

def Owned (owner : κ → Option τ) (holds : τ → Option κ) : Prop :=
  ∀ k t, owner k = some t ↔ holds t = some k

variable {owner : κ → Option τ} {holds : τ → Option κ} {k : κ} {t t' : τ}

theorem Owned.unique (h : Owned owner holds) (ht : holds t = some k) (ht' : holds t' = some k) : t = t' :=
  Option.some.inj (((h k t).mpr ht).symm.trans ((h k t').mpr ht'))

variable [DecidableEq κ] [DecidableEq τ]

theorem Owned.acquire (h : Owned owner holds) (hfree : owner k = none) (hnone : holds t = none) :
    Owned (Function.update owner k (some t)) (Function.update holds t (some k)) := by
  intro k' t'
  rw [Function.update_apply, Function.update_apply]
  split
  next hk =>
    subst hk
    split
    next ht => exact ⟨fun _ => rfl, fun _ => ht ▸ rfl⟩
    next ht =>
      refine ⟨fun heq => absurd (Option.some.inj heq).symm ht, fun hold => ?_⟩
      rw [(h k' t').mpr hold] at hfree
      cases hfree
  next hk =>
    split
    next ht =>
      subst ht
      refine ⟨fun hold => ?_, fun heq => absurd (Option.some.inj heq).symm hk⟩
      rw [(h k' t').mp hold] at hnone
      cases hnone
    · exact h k' t'

theorem Owned.release (h : Owned owner holds) (ht : holds t = some k) :
    Owned (Function.update owner k none) (Function.update holds t none) := by
  intro k' t'
  rw [Function.update_apply, Function.update_apply]
  split
  next hk =>
    subst hk
    split
    · exact ⟨nofun, nofun⟩
    next hne => exact ⟨nofun, fun hold => absurd (h.unique hold ht) hne⟩
  next hk =>
    split
    next heq =>
      subst heq
      refine ⟨fun hold => ?_, nofun⟩
      rw [(h k' t').mp hold] at ht
      exact absurd (Option.some.inj ht) hk
    · exact h k' t'

end Locks
