import Embarcadero.Lib.Log

namespace Cursor

open List

inductive Decision
  | skip
  | take
  | stop
  deriving DecidableEq

def scan (decision : Nat → Decision) (limit : Nat) : Nat → Nat → Nat → Nat × List Nat
  | 0, _, cursor => (cursor, [])
  | fuel + 1, quota, cursor =>
    if limit ≤ cursor ∨ quota = 0 then (cursor, [])
    else
      match decision cursor with
      | .stop => (cursor, [])
      | .skip => scan decision limit fuel quota (cursor + 1)
      | .take =>
        let r := scan decision limit fuel (quota - 1) (cursor + 1)
        (r.1, cursor :: r.2)

variable {decision : Nat → Decision} {limit fuel quota cursor : Nat}

structure Walked (decision : Nat → Decision) (want : Nat → Bool) (limit quota cursor : Nat)
    (r : Nat × List Nat) : Prop where
  forward : cursor ≤ r.1
  bounded : r.1 ≤ max limit cursor
  taken : (List.range r.1).filter want = (List.range cursor).filter want ++ r.2
  decided : ∀ j ∈ r.2, cursor ≤ j ∧ j < limit ∧ decision j = .take
  ends : limit ≤ r.1 ∨ decision r.1 = .stop ∨ r.2.length = quota

theorem walked_scan {want : Nat → Bool} (hskip : ∀ j < limit, decision j = .skip → want j = false)
    (htake : ∀ j < limit, decision j = .take → want j = true) :
    ∀ fuel quota cursor : Nat, limit ≤ cursor + fuel →
      Walked decision want limit quota cursor (scan decision limit fuel quota cursor) := by
  intro fuel
  induction fuel with
  | zero =>
    intro quota cursor hfuel
    exact ⟨Nat.le_refl _, Nat.le_max_right _ _, (append_nil _).symm, nofun, .inl hfuel⟩
  | succ fuel ih =>
    intro quota cursor hfuel
    rw [scan]
    split
    next hend =>
      refine ⟨Nat.le_refl _, Nat.le_max_right _ _, (append_nil _).symm, nofun, ?_⟩
      exact hend.imp_right fun h => .inr h.symm
    next hend =>
      rw [not_or, Nat.not_le] at hend
      have hsucc : (List.range (cursor + 1)).filter want =
          (List.range cursor).filter want ++ if want cursor then [cursor] else [] := by
        rw [range_succ, filter_append, filter_singleton]
        cases want cursor <;> rfl
      split
      next hd => exact ⟨Nat.le_refl _, Nat.le_max_right _ _, (append_nil _).symm, nofun, .inr (.inl hd)⟩
      next hd =>
        have h := ih quota (cursor + 1) (by omega)
        rw [hskip cursor hend.1 hd, if_neg Bool.false_ne_true, append_nil] at hsucc
        refine ⟨Nat.le_of_succ_le h.forward, ?_, h.taken.trans (by rw [hsucc]), ?_, h.ends⟩
        · have := h.bounded
          omega
        · exact fun j hj => (h.decided j hj).imp_left Nat.le_of_succ_le
      next hd =>
        have h := ih (quota - 1) (cursor + 1) (by omega)
        rw [htake cursor hend.1 hd, if_pos rfl] at hsucc
        refine ⟨Nat.le_of_succ_le h.forward, ?_, ?_, ?_, ?_⟩
        · have := h.bounded
          dsimp only
          omega
        · dsimp only
          rw [h.taken, hsucc, append_assoc]
          rfl
        · intro j hj
          cases hj with
          | head => exact ⟨Nat.le_refl _, hend.1, hd⟩
          | tail _ hj => exact (h.decided j hj).imp_left Nat.le_of_succ_le
        · refine h.ends.imp_right fun hstop => hstop.imp_right fun hlen => ?_
          rw [length_cons, hlen]
          omega

variable {want : Nat → Bool} {r : Nat × List Nat}

theorem Walked.length_le (h : Walked decision want limit quota cursor r) : r.2.length ≤ r.1 - cursor := by
  have hsplit : List.range r.1 = List.range cursor ++ List.range' cursor (r.1 - cursor) := by
    rw [Log.range_append_range', Nat.add_sub_cancel' h.forward]
  have htaken := h.taken
  rw [hsplit, filter_append, append_cancel_left_eq] at htaken
  rw [← htaken]
  refine Nat.le_trans (length_filter_le _ _) (Nat.le_of_eq ?_)
  rw [length_range']

theorem Walked.ends_of_spare (h : Walked decision want limit quota cursor r)
    (hquota : limit - cursor < quota) : limit ≤ r.1 ∨ decision r.1 = .stop := by
  refine h.ends.imp_right fun hends => hends.resolve_right fun hlen => ?_
  have hle := h.length_le
  have hbound := h.bounded
  omega

end Cursor
