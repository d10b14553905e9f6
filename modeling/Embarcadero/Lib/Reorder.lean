import Mathlib

namespace Reorder

open Function (update update_apply update_of_ne)
open List

variable {α : Type*}

@[ext]
structure Buffer (α : Type*) where
  next : Nat
  slot : Nat → Option α
  out : List α
  late : ∀ p, p < next → slot p = none
  bounded : ∃ M, ∀ p, M ≤ p → slot p = none

namespace Buffer

def put (p : Nat) (m : α) (b : Buffer α) : Buffer α :=
  if h : p < b.next ∨ b.slot p ≠ none then b
  else
    { b with
      slot := update b.slot p (some m)
      late := fun q hq => by
        have hne : q ≠ p := fun heq => h (.inl (heq ▸ hq))
        rw [update_of_ne hne]
        exact b.late q hq
      bounded := by
        obtain ⟨M, hM⟩ := b.bounded
        refine ⟨max M (p + 1), fun q hq => ?_⟩
        rw [update_of_ne (by omega)]
        exact hM q (by omega) }

def skip (g : Nat) (b : Buffer α) : Buffer α :=
  if g ≤ b.next then b
  else
    { b with
      next := g
      slot := fun p => if p < g then none else b.slot p
      late := fun p hp => if_pos hp
      bounded := by
        obtain ⟨M, hM⟩ := b.bounded
        exact ⟨M, fun q hq => by rw [hM q hq, ite_self]⟩ }

theorem late_pop (b : Buffer α) (q : Nat) (hq : q < b.next + 1) : update b.slot b.next none q = none := by
  rw [update_apply]
  split
  · rfl
  · exact b.late q (by omega)

theorem bounded_pop (b : Buffer α) : ∃ M, ∀ q, M ≤ q → update b.slot b.next none q = none := by
  obtain ⟨M, hM⟩ := b.bounded
  refine ⟨M, fun q hq => ?_⟩
  rw [update_apply, hM q hq, ite_self]

def pop (b : Buffer α) : Buffer α :=
  match b.slot b.next with
  | none => b
  | some m =>
    { next := b.next + 1
      slot := update b.slot b.next none
      out := b.out ++ [m]
      late := b.late_pop
      bounded := b.bounded_pop }

def Stalled (b : Buffer α) : Prop := b.slot b.next = none

instance : DecidablePred (Stalled (α := α)) := fun b =>
  decidable_of_iff (b.slot b.next).isNone Option.isNone_iff_eq_none

variable {b : Buffer α} {p q g : Nat} {m : α}

theorem put_of_late (h : p < b.next) : b.put p m = b := dif_pos (.inl h)

theorem put_of_filled (h : b.slot p ≠ none) : b.put p m = b := dif_pos (.inr h)

@[simp] theorem put_next : (b.put p m).next = b.next := by
  rw [put]
  split <;> rfl

@[simp] theorem put_out : (b.put p m).out = b.out := by
  rw [put]
  split <;> rfl

theorem put_slot_of_free (h : b.next ≤ p) (hfree : b.slot p = none) : (b.put p m).slot = update b.slot p (some m) := by
  rw [put, dif_neg (by rw [hfree]; simpa using h)]

theorem put_slot_of_ne (h : q ≠ p) : (b.put p m).slot q = b.slot q := by
  rw [put]
  split
  · rfl
  · exact update_of_ne h _ _

theorem put_slot_of_some (h : b.slot q = some x) : (b.put p m).slot q = some x := by
  rw [put]
  split
  · exact h
  next hfree =>
    rw [not_or, not_not] at hfree
    rw [← h]
    refine update_of_ne ?_ _ _
    intro heq
    rw [heq, hfree.2] at h
    cases h

theorem put_slot_self (h : b.next ≤ p) : (b.put p m).slot p ≠ none := by
  rw [put]
  split
  next hkeep => exact hkeep.resolve_left (Nat.not_lt.mpr h)
  · dsimp only
    rw [Function.update_self]
    exact Option.some_ne_none m

theorem put_slot_eq (h : (b.put p m).slot q = some x) : b.slot q = some x ∨ q = p ∧ x = m := by
  rw [put] at h
  split at h
  · exact .inl h
  · dsimp only at h
    rw [update_apply] at h
    split at h
    next heq => exact .inr ⟨heq, (Option.some.inj h).symm⟩
    · exact .inl h

theorem skip_of_le (h : g ≤ b.next) : b.skip g = b := if_pos h

theorem next_le_skip : b.next ≤ (b.skip g).next := by
  rw [skip]
  split
  · exact Nat.le_refl _
  next h => exact Nat.le_of_not_le h

@[simp] theorem skip_out : (b.skip g).out = b.out := by
  rw [skip]
  split <;> rfl

theorem skip_next_of_lt (h : b.next < g) : (b.skip g).next = g := by
  rw [skip, if_neg (Nat.not_le.mpr h)]

theorem skip_slot_of_lt (h : b.next < g) : (b.skip g).slot = fun p => if p < g then none else b.slot p := by
  rw [skip, if_neg (Nat.not_le.mpr h)]

theorem skip_slot_of_le (h : g ≤ p) : (b.skip g).slot p = b.slot p := by
  rw [skip]
  split
  · rfl
  · exact if_neg (Nat.not_lt.mpr h)

theorem skip_slot_eq (h : (b.skip g).slot p = some x) : b.slot p = some x := by
  rw [skip] at h
  split at h
  · exact h
  · dsimp only at h
    split at h
    · cases h
    · exact h

theorem pop_of_stalled (h : b.Stalled) : b.pop = b := by
  rw [pop]
  split
  · rfl
  next heq =>
    rw [Stalled, heq] at h
    cases h

theorem pop_next_of_some (h : b.slot b.next = some m) : b.pop.next = b.next + 1 := by
  rw [pop]
  split
  next heq =>
    rw [heq] at h
    cases h
  · rfl

theorem pop_out_of_some (h : b.slot b.next = some m) : b.pop.out = b.out ++ [m] := by
  rw [pop]
  split
  next heq =>
    rw [heq] at h
    cases h
  next heq =>
    rw [heq] at h
    rw [Option.some.inj h]

theorem pop_slot_of_some (h : b.slot b.next = some m) : b.pop.slot = update b.slot b.next none := by
  rw [pop]
  split
  next heq =>
    rw [heq] at h
    cases h
  · rfl

theorem pop_slot_of_ne (h : q ≠ b.next) : b.pop.slot q = b.slot q := by
  rw [pop]
  split
  · rfl
  · exact update_of_ne h _ _

theorem pop_slot_eq (h : b.pop.slot q = some x) : b.slot q = some x := by
  rw [pop] at h
  split at h
  · exact h
  · dsimp only at h
    rw [update_apply] at h
    split at h
    · cases h
    · exact h

theorem exists_stalled (n : Nat) : ∀ b : Buffer α, (∀ p, b.next + n ≤ p → b.slot p = none) →
    ∃ k, (pop^[k] b).Stalled := by
  induction n with
  | zero => exact fun b h => ⟨0, h b.next (Nat.le_refl _)⟩
  | succ n ih =>
    intro b h
    cases hs : b.slot b.next with
    | none => exact ⟨0, hs⟩
    | some m =>
      obtain ⟨k, hk⟩ := ih b.pop (by
        intro p hp
        rw [pop_next_of_some hs] at hp
        rw [pop_slot_of_ne (by omega)]
        exact h p (by omega))
      exact ⟨k + 1, hk⟩

theorem exists_drained (b : Buffer α) : ∃ k, (pop^[k] b).Stalled := by
  obtain ⟨M, hM⟩ := b.bounded
  exact exists_stalled M b fun p hp => hM p (by omega)

def drain (b : Buffer α) : Buffer α := pop^[Nat.find b.exists_drained] b

theorem stalled_drain (b : Buffer α) : b.drain.Stalled := Nat.find_spec b.exists_drained

theorem iterate_pop_eq_drain {k : Nat} (h : (pop^[k] b).Stalled) : pop^[k] b = b.drain := by
  obtain ⟨i, hi⟩ := Nat.exists_eq_add_of_le (Nat.find_min' b.exists_drained h)
  rw [hi, Nat.add_comm, Function.iterate_add_apply]
  exact Function.iterate_fixed (pop_of_stalled b.stalled_drain) i

theorem drain_of_stalled (h : b.Stalled) : b.drain = b :=
  (iterate_pop_eq_drain (k := 0) h).symm

@[simp] theorem drain_drain (b : Buffer α) : b.drain.drain = b.drain :=
  drain_of_stalled b.stalled_drain

@[simp] theorem drain_pop (b : Buffer α) : b.pop.drain = b.drain :=
  iterate_pop_eq_drain (b := b) (k := Nat.find b.pop.exists_drained + 1) b.pop.stalled_drain

theorem drain_induction {motive : Buffer α → Prop} (hpop : ∀ c, motive c → motive c.pop)
    (h : motive b) : motive b.drain := by
  rw [drain]
  generalize Nat.find b.exists_drained = k
  induction k with
  | zero => exact h
  | succ k ih =>
    rw [Function.iterate_succ_apply']
    exact hpop _ ih

theorem next_le_pop : b.next ≤ b.pop.next := by
  cases h : b.slot b.next with
  | none => exact Nat.le_of_eq (congrArg next (pop_of_stalled h)).symm
  | some m => exact pop_next_of_some h ▸ Nat.le_succ _

theorem next_le_drain : b.next ≤ b.drain.next :=
  drain_induction (motive := fun c => b.next ≤ c.next) (fun _ h => Nat.le_trans h next_le_pop) (Nat.le_refl _)

theorem pop_put (h : b.next < p) : (b.put p m).pop = b.pop.put p m := by
  have hne : p ≠ b.next := Nat.ne_of_gt h
  cases hs : b.slot b.next with
  | none =>
    have hput : (b.put p m).Stalled := by rwa [Stalled, put_next, put_slot_of_ne hne.symm]
    rw [pop_of_stalled hs, pop_of_stalled hput]
  | some x =>
    have hput : (b.put p m).slot (b.put p m).next = some x := by
      rw [put_next]
      exact put_slot_of_some hs
    have hnext := pop_next_of_some hs
    by_cases hfree : b.slot p = none
    · refine Buffer.ext ?_ ?_ ?_
      · rw [put_next, hnext, pop_next_of_some hput, put_next]
      · rw [pop_slot_of_some hput, put_next, put_slot_of_free (Nat.le_of_lt h) hfree,
          put_slot_of_free (hnext ▸ h) (by rwa [pop_slot_of_ne hne]), pop_slot_of_some hs, Function.update_comm hne]
      · rw [put_out, pop_out_of_some hs, pop_out_of_some hput, put_out]
    · rw [put_of_filled (b := b.pop) (by rwa [pop_slot_of_ne hne]), put_of_filled hfree]

theorem drain_put_pop (b : Buffer α) (p : Nat) (m : α) : (b.pop.put p m).drain = (b.put p m).drain := by
  cases hs : b.slot b.next with
  | none => rw [pop_of_stalled hs]
  | some x =>
    rcases Nat.lt_trichotomy p b.next with hlt | heq | hgt
    · rw [put_of_late hlt, put_of_late (Nat.lt_of_lt_of_le hlt next_le_pop), drain_pop]
    · -- the position is taken by the value that leaves
      rw [put_of_filled (b := b) (by rw [heq, hs]; exact Option.some_ne_none x),
        put_of_late (by rw [pop_next_of_some hs]; omega), drain_pop]
    · rw [← pop_put hgt, drain_pop]

theorem drain_put_drain (b : Buffer α) (p : Nat) (m : α) : (b.drain.put p m).drain = (b.put p m).drain :=
  drain_induction (motive := fun c => (c.put p m).drain = (b.put p m).drain)
    (fun c h => (drain_put_pop c p m).trans h) rfl

theorem skip_put (h : g ≤ p) : (b.put p m).skip g = (b.skip g).put p m := by
  by_cases hg : g ≤ b.next
  · rw [skip_of_le hg, skip_of_le (by rwa [put_next])]
  · have hlt : b.next < g := Nat.not_le.mp hg
    have hput : (b.put p m).next < g := by rwa [put_next]
    by_cases hfree : b.slot p = none
    · refine Buffer.ext ?_ ?_ ?_
      · rw [put_next, skip_next_of_lt hlt, skip_next_of_lt hput]
      · rw [skip_slot_of_lt hput, put_slot_of_free (Nat.le_of_lt (Nat.lt_of_lt_of_le hlt h)) hfree,
          put_slot_of_free (by rwa [skip_next_of_lt hlt]) (by rwa [skip_slot_of_le h]), skip_slot_of_lt hlt]
        funext q
        rw [update_apply, update_apply]
        split
        · rw [if_neg (by omega)]
        · rfl
      · rw [put_out, skip_out, skip_out, put_out]
    · rw [put_of_filled hfree, put_of_filled (by rwa [skip_slot_of_le h])]

structure Faithful (content : Nat → α) (b : Buffer α) : Prop where
  out : b.out = (List.range b.next).map content
  slot : ∀ {p m}, b.slot p = some m → m = content p

variable {content : Nat → α}

theorem Faithful.put (h : Faithful content b) : Faithful content (b.put p (content p)) where
  out := by rw [put_out, put_next, h.out]
  slot hslot := by
    cases put_slot_eq hslot with
    | inl hold => exact h.slot hold
    | inr hnew => rw [hnew.1, hnew.2]

theorem Faithful.pop (h : Faithful content b) : Faithful content b.pop where
  out := by
    cases hs : b.slot b.next with
    | none => rw [pop_of_stalled hs, h.out]
    | some m =>
      rw [pop_out_of_some hs, pop_next_of_some hs, range_succ, map_append, h.out, h.slot hs]
      rfl
  slot hslot := h.slot (pop_slot_eq hslot)

def Has (b : Buffer α) (p : Nat) : Prop := p < b.next ∨ b.slot p ≠ none

@[simp] theorem has_put : (b.put p m).Has q ↔ b.Has q ∨ q = p := by
  rw [Has, Has, put_next]
  by_cases heq : q = p
  · rw [heq]
    refine iff_of_true ?_ (.inr rfl)
    exact (Nat.lt_or_ge p b.next).imp_right put_slot_self
  · rw [put_slot_of_ne heq, or_iff_left heq]

@[simp] theorem has_pop : b.pop.Has q ↔ b.Has q := by
  cases hs : b.slot b.next with
  | none => rw [pop_of_stalled hs]
  | some m =>
    rw [Has, Has, pop_next_of_some hs]
    by_cases hq : q = b.next
    · rw [hq, hs]
      exact iff_of_true (.inl (Nat.lt_succ_self _)) (.inr (Option.some_ne_none m))
    · rw [pop_slot_of_ne hq, Nat.lt_succ_iff_lt_or_eq, or_iff_left hq]

@[simp] theorem has_iterate_pop (k : Nat) : (pop^[k] b).Has q ↔ b.Has q := by
  induction k with
  | zero => rfl
  | succ k ih => rw [Function.iterate_succ_apply', has_pop, ih]

variable {ms : List (Nat × α)} {N : Nat}

@[simp] theorem has_foldl_put : (ms.foldl (fun b m => b.put m.1 m.2) b).Has p ↔ b.Has p ∨ ∃ m ∈ ms, p = m.1 := by
  induction ms generalizing b with
  | nil => simp
  | cons m ms ih =>
    rw [foldl_cons, ih, has_put, or_assoc, exists_mem_cons_iff]

theorem has_next (h : b.Has b.next) : b.slot b.next ≠ none := h.resolve_left (Nat.lt_irrefl _)

theorem next_le_of_has (h : ∀ p, b.Has p → p < N) : b.next ≤ N := by
  by_contra hgt
  exact Nat.lt_irrefl N (h N (.inl (Nat.not_le.mp hgt)))

theorem iterate_pop_next (h : ∀ p, b.Has p ↔ p < N) (k : Nat) : (pop^[k] b).next = min (b.next + k) N := by
  induction k with
  | zero => exact (Nat.min_eq_left (next_le_of_has fun p hp => (h p).mp hp)).symm
  | succ k ih =>
    have hhas : ∀ p, (pop^[k] b).Has p ↔ p < N := fun p => (has_iterate_pop k).trans (h p)
    rw [Function.iterate_succ_apply']
    generalize pop^[k] b = c at ih hhas ⊢
    cases hs : c.slot c.next with
    | none =>
      have hge : N ≤ c.next := by
        by_contra hlt
        exact has_next ((hhas c.next).mpr (Nat.not_le.mp hlt)) hs
      rw [pop_of_stalled hs]
      omega
    | some m =>
      have hlt : c.next < N := (hhas c.next).mp (.inr (by rw [hs]; exact Option.some_ne_none m))
      rw [pop_next_of_some hs]
      omega

theorem Faithful.iterate_pop (h : Faithful content b) (k : Nat) : Faithful content (Buffer.pop^[k] b) := by
  induction k with
  | zero => exact h
  | succ k ih =>
    rw [Function.iterate_succ_apply']
    exact ih.pop

theorem Faithful.foldl_put (h : Faithful content b) (hms : ∀ m ∈ ms, m.2 = content m.1) :
    Faithful content (ms.foldl (fun b m => b.put m.1 m.2) b) := by
  induction ms generalizing b with
  | nil => exact h
  | cons m ms ih =>
    rw [foldl_cons, hms m mem_cons_self]
    exact ih h.put fun m hm => hms m (mem_cons_of_mem _ hm)

end Buffer

inductive Item (α : Type*)
  | gap (start : Nat)
  | message (order : Nat) (m : α)

def gaps (items : List (Item α)) : List Nat :=
  items.filterMap fun | .gap g => some g | .message _ _ => none

def messages (items : List (Item α)) : List (Nat × α) :=
  items.filterMap fun | .gap _ => none | .message p m => some (p, m)

namespace Buffer

variable {b c : Buffer α} {items : List (Item α)} {gs : List Nat} {p g : Nat} {m : α}

def batch (b : Buffer α) (items : List (Item α)) : Buffer α :=
  (messages items).foldl (fun b m => b.put m.1 m.2) ((gaps items).foldl (fun b g => b.skip g) b)

def settleGap (b : Buffer α) (g : Nat) : Buffer α := (b.skip g).drain

def settleMessage (b : Buffer α) (m : Nat × α) : Buffer α := (b.put m.1 m.2).drain

def settle (b : Buffer α) : Item α → Buffer α
  | .gap g => b.settleGap g
  | .message p m => b.settleMessage (p, m)

def Clear (b : Buffer α) (gs : List Nat) : Prop :=
  ∀ g ∈ gs, b.next < g → ∀ p, b.next ≤ p → p < g → b.slot p = none

def Apart (b : Buffer α) (gs : List Nat) (p : Nat) : Prop := ∀ g ∈ gs, b.next < g → p < b.next ∨ g ≤ p

structure Careful (b : Buffer α) (items : List (Item α)) : Prop where
  clear : b.Clear (gaps items)
  apart : ∀ m ∈ messages items, b.Apart (gaps items) m.1

structure Later (b c : Buffer α) : Prop where
  next : b.next ≤ c.next
  slot : ∀ {p x}, c.slot p = some x → b.slot p = some x

theorem Later.drain (h : Later b c) : Later b c.drain :=
  drain_induction (motive := Later b)
    (fun _ h => ⟨Nat.le_trans h.next next_le_pop, fun hx => h.slot (pop_slot_eq hx)⟩) h

theorem later_skip : Later b (b.skip g) := ⟨next_le_skip, skip_slot_eq⟩

theorem later_settleGap : Later b (b.settleGap g) := later_skip.drain

theorem Clear.of_later (h : b.Clear gs) (hl : Later b c) : c.Clear gs := by
  intro g hg hlt p hp hpg
  rw [← Option.not_isSome_iff_eq_none, Option.isSome_iff_exists]
  rintro ⟨x, hx⟩
  have := h g hg (Nat.lt_of_le_of_lt hl.next hlt) p (Nat.le_trans hl.next hp) hpg
  rw [hl.slot hx] at this
  cases this

theorem Apart.of_le (h : b.Apart gs p) (hl : b.next ≤ c.next) : c.Apart gs p := by
  intro g hg hlt
  exact (h g hg (Nat.lt_of_le_of_lt hl hlt)).imp_left fun hp => Nat.lt_of_lt_of_le hp hl

theorem Clear.tail (h : b.Clear (g :: gs)) : b.Clear gs := fun g hg => h g (mem_cons_of_mem _ hg)

theorem Apart.tail (h : b.Apart (g :: gs) p) : b.Apart gs p :=
  fun g hg => h g (mem_cons_of_mem _ hg)

theorem drain_foldl_put (ms : List (Nat × α)) : ∀ b : Buffer α,
    (ms.foldl (fun b m => b.put m.1 m.2) b).drain = ms.foldl settleMessage b.drain := by
  induction ms with
  | nil => exact fun _ => rfl
  | cons m ms ih =>
    intro b
    rw [foldl_cons, foldl_cons, ih, settleMessage, drain_put_drain]

theorem drain_foldl_skip : ∀ {gs : List Nat} {b : Buffer α}, b.Clear gs →
    (gs.foldl (fun b g => b.skip g) b).drain = gs.foldl settleGap b.drain := by
  intro gs
  induction gs with
  | nil => exact fun _ => rfl
  | cons g gs ih =>
    intro b h
    have hhead : b.drain.settleGap g = (b.skip g).drain := by
      cases Nat.lt_or_ge b.next g with
      | inl hlt =>
        rw [settleGap, drain_of_stalled (h g mem_cons_self hlt _ (Nat.le_refl _) hlt)]
      | inr hge =>
        rw [settleGap, skip_of_le (Nat.le_trans hge next_le_drain), skip_of_le hge, drain_drain]
    rw [foldl_cons, foldl_cons, ih (h.tail.of_later later_skip), hhead]

theorem settleGap_settleMessage (hs : b.Stalled) (hp : b.next < g → p < b.next ∨ g ≤ p) :
    (b.settleMessage (p, m)).settleGap g = (b.settleGap g).settleMessage (p, m) := by
  cases Nat.lt_or_ge b.next g with
  | inr hge =>
    have hnext : g ≤ (b.settleMessage (p, m)).next :=
      Nat.le_trans (Nat.le_trans hge (Nat.le_of_eq put_next.symm)) next_le_drain
    rw [settleGap, skip_of_le hnext, settleGap, skip_of_le hge, drain_of_stalled hs, settleMessage, drain_drain]
  | inl hlt =>
    cases hp hlt with
    | inl hlate =>
      have hlate' : p < (b.settleGap g).next := Nat.lt_of_lt_of_le hlate later_settleGap.next
      rw [settleMessage, put_of_late hlate, drain_of_stalled hs, settleMessage, put_of_late hlate',
        settleGap, drain_drain]
    | inr hge =>
      have hput : (b.put p m).Stalled := by
        rwa [Stalled, put_next, put_slot_of_ne (by omega)]
      rw [settleMessage, drain_of_stalled hput, settleGap, skip_put hge, settleMessage, settleGap, drain_put_drain]

theorem foldl_settleGap_settleMessage : ∀ {gs : List Nat} {b : Buffer α}, b.Stalled →
    b.Apart gs p →
    gs.foldl settleGap (b.settleMessage (p, m)) = (gs.foldl settleGap b).settleMessage (p, m) := by
  intro gs
  induction gs with
  | nil => exact fun _ _ => rfl
  | cons g gs ih =>
    intro b hs hp
    rw [foldl_cons, foldl_cons, settleGap_settleMessage hs (hp g mem_cons_self)]
    exact ih (stalled_drain _) (hp.tail.of_le later_settleGap.next)

theorem Careful.after_gap (h : b.Careful (.gap g :: items)) : (b.settleGap g).Careful items where
  clear := (Clear.tail (g := g) h.clear).of_later later_settleGap
  apart m hm := (Apart.tail (g := g) (h.apart m hm)).of_le later_settleGap.next

theorem Careful.after_message (h : b.Careful (.message p m :: items)) : (b.settleMessage (p, m)).Careful items := by
  have hnext : b.next ≤ (b.settleMessage (p, m)).next :=
    Nat.le_trans (Nat.le_of_eq put_next.symm) next_le_drain
  refine ⟨?_, fun m hm => (h.apart m (mem_cons_of_mem _ hm)).of_le hnext⟩
  -- the value just put is not covered by a gap
  have hput : (b.put p m).Clear (gaps items) := by
    intro g hg hlt q hq hqg
    rw [put_next] at hlt hq
    rw [← Option.not_isSome_iff_eq_none, Option.isSome_iff_exists]
    rintro ⟨x, hx⟩
    cases put_slot_eq hx with
    | inl hold =>
      rw [h.clear g hg hlt q hq hqg] at hold
      cases hold
    | inr hnew =>
      have := h.apart (p, m) mem_cons_self g hg hlt
      omega
  exact hput.of_later (Later.drain ⟨Nat.le_refl _, id⟩)

theorem foldl_settle : ∀ {items : List (Item α)} {b : Buffer α}, b.Stalled → b.Careful items →
    items.foldl settle b = (messages items).foldl settleMessage ((gaps items).foldl settleGap b) := by
  intro items
  induction items with
  | nil => exact fun _ _ => rfl
  | cons item items ih =>
    intro b hs hc
    cases item with
    | gap g => exact ih (stalled_drain _) hc.after_gap
    | message p m =>
      have hapart : b.Apart (gaps items) p := hc.apart (p, m) mem_cons_self
      calc items.foldl settle (b.settleMessage (p, m)) = (messages items).foldl settleMessage
              ((gaps items).foldl settleGap (b.settleMessage (p, m))) :=
            ih (stalled_drain _) hc.after_message
        _ = (messages items).foldl settleMessage (((gaps items).foldl settleGap b).settleMessage (p, m)) := by
            rw [foldl_settleGap_settleMessage hs hapart]

theorem drain_batch (hs : b.Stalled) (hc : b.Careful items) : (b.batch items).drain = items.foldl settle b := by
  rw [batch, drain_foldl_put, drain_foldl_skip hc.clear, drain_of_stalled hs, foldl_settle hs hc]

theorem next_le_of_slot (h : b.slot p = some m) : b.next ≤ p := by
  by_contra hlt
  rw [b.late p (Nat.not_le.mp hlt)] at h
  cases h

structure Keeps (b c : Buffer α) : Prop where
  out : ∀ {m}, m ∈ b.out → m ∈ c.out
  slot : ∀ {p m}, b.slot p = some m → c.slot p = some m ∨ m ∈ c.out

theorem Keeps.refl (b : Buffer α) : Keeps b b := ⟨id, .inl⟩

theorem Keeps.trans {d : Buffer α} (h : Keeps b c) (h' : Keeps c d) : Keeps b d where
  out hm := h'.out (h.out hm)
  slot hm := (h.slot hm).elim h'.slot fun ho => .inr (h'.out ho)

theorem keeps_pop (b : Buffer α) : Keeps b b.pop := by
  cases hs : b.slot b.next with
  | none =>
    rw [pop_of_stalled hs]
    exact .refl b
  | some x =>
    refine ⟨fun hm => ?_, fun {p m} hm => ?_⟩
    · rw [pop_out_of_some hs]
      exact mem_append_left _ hm
    · by_cases hp : p = b.next
      · rw [hp, hs] at hm
        cases hm
        rw [pop_out_of_some hs]
        exact .inr (mem_append_right _ mem_cons_self)
      · rw [pop_slot_of_ne hp]
        exact .inl hm

theorem keeps_iterate_pop (b : Buffer α) (k : Nat) : Keeps b (pop^[k] b) := by
  induction k with
  | zero => exact .refl b
  | succ k ih =>
    rw [Function.iterate_succ_apply']
    exact ih.trans (keeps_pop _)

theorem foldl_skip_keeps : ∀ {gs : List Nat} {b : Buffer α}, b.next ≤ p →
    (∀ g ∈ gs, b.next < g → g ≤ p) →
    (gs.foldl (fun b g => b.skip g) b).next ≤ p ∧
      (gs.foldl (fun b g => b.skip g) b).slot p = b.slot p := by
  intro gs
  induction gs with
  | nil => exact fun h _ => ⟨h, rfl⟩
  | cons g gs ih =>
    intro b hp hg
    have hstep : (b.skip g).next ≤ p ∧ (b.skip g).slot p = b.slot p := by
      cases Nat.lt_or_ge b.next g with
      | inl hlt =>
        have hle := hg g mem_cons_self hlt
        exact ⟨by rwa [skip_next_of_lt hlt], skip_slot_of_le hle⟩
      | inr hge => exact ⟨by rwa [skip_of_le hge], by rw [skip_of_le hge]⟩
    have hrest := ih hstep.1 fun g' hg' hlt =>
      hg g' (mem_cons_of_mem _ hg') (Nat.lt_of_le_of_lt next_le_skip hlt)
    exact ⟨hrest.1, hrest.2.trans hstep.2⟩

theorem foldl_put_keeps {ms : List (Nat × α)} {b : Buffer α} :
    (ms.foldl (fun b m => b.put m.1 m.2) b).next = b.next ∧
      ∀ {p x}, b.slot p = some x → (ms.foldl (fun b m => b.put m.1 m.2) b).slot p = some x := by
  induction ms generalizing b with
  | nil => exact ⟨rfl, id⟩
  | cons m ms ih => exact ⟨(ih (b := b.put m.1 m.2)).1.trans put_next, fun h => ih.2 (put_slot_of_some h)⟩

theorem Careful.slot_batch (h : b.Careful items) (hx : b.slot p = some x) : (b.batch items).slot p = some x := by
  have hp := next_le_of_slot hx
  have hgaps : ∀ g ∈ gaps items, b.next < g → g ≤ p := by
    intro g hg hlt
    by_contra hgt
    have := h.clear g hg hlt p hp (Nat.not_le.mp hgt)
    rw [hx] at this
    cases this
  exact foldl_put_keeps.2 ((foldl_skip_keeps hp hgaps).2.trans hx)

theorem foldl_skip_out (gs : List Nat) (b : Buffer α) : (gs.foldl (fun b g => b.skip g) b).out = b.out := by
  induction gs generalizing b with
  | nil => rfl
  | cons g gs ih => rw [foldl_cons, ih, skip_out]

theorem foldl_put_out (ms : List (Nat × α)) (b : Buffer α) : (ms.foldl (fun b m => b.put m.1 m.2) b).out = b.out := by
  induction ms generalizing b with
  | nil => rfl
  | cons m ms ih => rw [foldl_cons, ih, put_out]

@[simp] theorem batch_out (b : Buffer α) (items : List (Item α)) : (b.batch items).out = b.out := by
  rw [batch, foldl_put_out, foldl_skip_out]

theorem Careful.keeps (h : b.Careful items) : Keeps b (b.batch items) where
  out hm := by rwa [batch_out]
  slot hm := .inl (h.slot_batch hm)

theorem Careful.takes (h : b.Careful items) (hm : (p, m) ∈ messages items) (hp : b.next ≤ p) :
    (b.batch items).slot p ≠ none := by
  have hgaps : ∀ g ∈ gaps items, b.next < g → g ≤ p := fun g hg hlt =>
    (h.apart (p, m) hm g hg hlt).resolve_left (Nat.not_lt.mpr hp)
  have hnext : (b.batch items).next ≤ p :=
    Nat.le_trans (Nat.le_of_eq foldl_put_keeps.1) (foldl_skip_keeps hp hgaps).1
  exact (has_foldl_put.mpr (.inr ⟨_, hm, rfl⟩)).resolve_left (Nat.not_lt.mpr hnext)

end Buffer

end Reorder
