import Embarcadero.Lib.Spans

namespace Embarcadero

structure WrittenFrontier where
  validatedWrittenRanges : List (Span Unit) := []
  validatedWrittenByteOffset : Nat
  published : Nat
  deriving DecidableEq

namespace WrittenFrontier

def advance : Nat → List (Span Unit) → Nat × List (Span Unit) × Bool
  | offset, [] => (offset, [], false)
  | offset, s :: rest =>
    if offset < s.lo then (offset, s :: rest, false)
    else if s.hi ≤ offset then advance offset rest
    else
      let r := advance s.hi rest
      (r.1, r.2.1, true)

def publishValidatedWrittenRange (w : WrittenFrontier) (range : Nat × Nat) : WrittenFrontier :=
  let (startOffset, totalSize) := range
  if totalSize = 0 then w
  else
    let ranges := Span.record (· < startOffset) ⟨startOffset, startOffset + totalSize, ()⟩ w.validatedWrittenRanges
    let r := advance w.validatedWrittenByteOffset ranges
    { validatedWrittenByteOffset := r.1
      validatedWrittenRanges := r.2.1
      published := if r.2.2 then r.1 else w.published }

def Seen (calls : List (Nat × Nat)) (x : Nat) : Prop := ∃ c ∈ calls, c.1 ≤ x ∧ x < c.1 + c.2

variable {w : WrittenFrontier} {calls : List (Nat × Nat)} {start initial offset x : Nat} {ranges : List (Span Unit)}

theorem advance_spec : ∀ {ranges : List (Span Unit)} (offset : Nat), Span.Separated ranges →
    let r := advance offset ranges
    offset ≤ r.1 ∧ Span.Separated r.2.1 ∧ (∀ s ∈ r.2.1, r.1 < s.lo) ∧
      (∀ x, offset ≤ x → x < r.1 → Span.Covers ranges x) ∧
      (∀ x, r.1 ≤ x → (Span.Covers r.2.1 x ↔ Span.Covers ranges x)) ∧ (r.2.2 = false → r.1 = offset) := by
  intro ranges
  induction ranges with
  | nil =>
    intro offset _
    exact ⟨le_rfl, .nil, nofun, fun x hle hlt => absurd hle (Nat.not_le.mpr hlt), fun _ _ => .rfl, fun _ => rfl⟩
  | cons s rest ih =>
    intro offset hsep
    obtain ⟨hproper, hs, hrest⟩ := Span.Separated.cons_iff.mp hsep
    rw [advance]
    split
    next hlt =>
      refine ⟨le_rfl, hsep, List.forall_mem_cons.mpr ⟨hlt, fun b hb => ?_⟩,
        fun x hle hlt => absurd hle (Nat.not_le.mpr hlt), fun _ _ => .rfl, fun _ => rfl⟩
      exact hlt.trans (hproper.trans (hs b hb))
    rename_i hle
    split
    next hpast =>
      obtain ⟨hge, hsep', habove, htaken, hleft, hsame⟩ := ih offset hrest
      have hskip : ∀ x, offset ≤ x → ¬s.Has x := fun x hx hhas => absurd hhas.2 (Nat.not_lt.mpr (hpast.trans hx))
      refine ⟨hge, hsep', habove, fun x hx hlt => ?_, fun x hx => ?_, hsame⟩
      · exact Span.covers_cons.mpr (.inr (htaken x hx hlt))
      · rw [hleft x hx, Span.covers_cons]
        exact (or_iff_right (hskip x (hge.trans hx))).symm
    next hnew =>
      obtain ⟨hge, hsep', habove, htaken, hleft, -⟩ := ih s.hi hrest
      refine ⟨(Nat.le_of_not_le hnew).trans hge, hsep', habove, fun x hx hlt => ?_, fun x hx => ?_, nofun⟩
      · rw [Span.covers_cons]
        by_cases hxs : x < s.hi
        · exact .inl ⟨(Nat.le_of_not_lt hle).trans hx, hxs⟩
        · exact .inr (htaken x (Nat.le_of_not_lt hxs) hlt)
      · rw [hleft x hx, Span.covers_cons]
        exact (or_iff_right fun hhas => absurd hhas.2 (Nat.not_lt.mpr (hge.trans hx))).symm

structure Ok (start initial : Nat) (calls : List (Nat × Nat)) (w : WrittenFrontier) : Prop where
  start_le : start ≤ w.validatedWrittenByteOffset
  covered : ∀ x, start ≤ x → x < w.validatedWrittenByteOffset → Seen calls x
  pending : ∀ x, w.validatedWrittenByteOffset ≤ x → (Span.Covers w.validatedWrittenRanges x ↔ Seen calls x)
  separated : Span.Separated w.validatedWrittenRanges
  above : ∀ s ∈ w.validatedWrittenRanges, w.validatedWrittenByteOffset < s.lo
  published : w.published = w.validatedWrittenByteOffset ∨
    w.validatedWrittenByteOffset = start ∧ w.published = initial

theorem seen_concat {c : Nat × Nat} : Seen (calls ++ [c]) x ↔ (c.1 ≤ x ∧ x < c.1 + c.2) ∨ Seen calls x := by
  simp only [Seen, List.mem_append, List.mem_singleton, or_and_right, exists_or, exists_eq_left]
  exact or_comm

theorem Ok.call (h : w.Ok start initial calls) (c : Nat × Nat) :
    (w.publishValidatedWrittenRange c).Ok start initial (calls ++ [c]) ∧
      w.validatedWrittenByteOffset ≤ (w.publishValidatedWrittenRange c).validatedWrittenByteOffset ∧
      ((w.publishValidatedWrittenRange c).published = w.published ∨ (w.publishValidatedWrittenRange c).published =
          (w.publishValidatedWrittenRange c).validatedWrittenByteOffset) := by
  obtain ⟨startOffset, totalSize⟩ := c
  rw [publishValidatedWrittenRange]
  split
  next hzero =>
    have hnone : ∀ x, Seen (calls ++ [(startOffset, totalSize)]) x ↔ Seen calls x := by
      intro x
      rw [seen_concat]
      exact or_iff_right fun hx => by dsimp only at hx; omega
    refine ⟨{ h with covered := fun x hx hlt => ?_, pending := fun x hx => ?_ }, le_rfl, .inl rfl⟩
    · exact (hnone x).mpr (h.covered x hx hlt)
    · rw [hnone]
      exact h.pending x hx
  next hsize =>
    have hproper : startOffset < startOffset + totalSize := Nat.lt_add_of_pos_right (Nat.pos_of_ne_zero hsize)
    let r : Span Unit := ⟨startOffset, startOffset + totalSize, ()⟩
    have hbelow : ∀ k, k < r.lo → decide (k < startOffset) = true := fun k hk => decide_eq_true hk
    have hnot : ∀ k, decide (k < startOffset) = true → k ≤ r.lo := fun k hk => le_of_lt (of_decide_eq_true hk)
    have hsep := Span.separated_record (r := r) hproper h.separated hbelow hnot
    have hcovers : ∀ x, w.validatedWrittenByteOffset ≤ x →
        (Span.Covers (Span.record (· < startOffset) r w.validatedWrittenRanges) x ↔
          Seen (calls ++ [(startOffset, totalSize)]) x) := by
      intro x hx
      rw [Span.covers_record hproper h.separated hbelow hnot, seen_concat, h.pending x hx]
      exact .rfl
    obtain ⟨hge, hsep', habove, htaken, hleft, hsame⟩ := advance_spec w.validatedWrittenByteOffset hsep
    refine ⟨⟨h.start_le.trans hge, fun x hx hlt => ?_, fun x hx => ?_, hsep', habove, ?_⟩, hge, ?_⟩
    · by_cases hold : x < w.validatedWrittenByteOffset
      · exact seen_concat.mpr (.inr (h.covered x hx hold))
      · exact (hcovers x (Nat.le_of_not_lt hold)).mp (htaken x (Nat.le_of_not_lt hold) hlt)
    · exact (hleft x hx).trans (hcovers x (hge.trans hx))
    · dsimp only
      split
      · exact .inl rfl
      next hadvanced =>
        rw [hsame (Bool.eq_false_iff.mpr hadvanced)]
        exact h.published
    · dsimp only
      split
      · exact .inr rfl
      · exact .inl rfl

theorem ok_start (start initial : Nat) :
    Ok start initial [] { validatedWrittenByteOffset := start, published := initial } where
  start_le := le_rfl
  covered _ hx hlt := absurd hx (Nat.not_le.mpr hlt)
  pending _ _ := ⟨fun ⟨_, h, _⟩ => (nomatch h), fun ⟨_, h, _⟩ => (nomatch h)⟩
  separated := .nil
  above := nofun
  published := .inr ⟨rfl, rfl⟩

theorem Ok.next_missing (h : w.Ok start initial calls) : ¬Seen calls w.validatedWrittenByteOffset := by
  intro hseen
  obtain ⟨s, hs, hlo, -⟩ := (h.pending _ le_rfl).mpr hseen
  exact absurd (h.above s hs) (Nat.not_lt.mpr hlo)

theorem Ok.published_le (h : w.Ok start initial calls) (hinitial : initial ≤ start) :
    w.published ≤ w.validatedWrittenByteOffset := by
  have := h.start_le
  have := h.published
  omega

theorem Ok.foldl (h : w.Ok start initial []) (cs : List (Nat × Nat)) :
    (cs.foldl publishValidatedWrittenRange w).Ok start initial cs := by
  induction cs using List.reverseRecOn with
  | nil => exact h
  | append_singleton cs c ih =>
    rw [List.foldl_append, List.foldl_cons, List.foldl_nil]
    exact (ih.call c).1

/-- After any calls the frontier is the end of the longest prefix that the ranges seen so far cover, the ranges above it
are disjoint, and no later call moves it or its published copy back.  The copy keeps its first value until the
frontier moves. -/
theorem written_frontier_exact (start initial : Nat) (hinitial : initial ≤ start) (calls : List (Nat × Nat)) :
    let w := calls.foldl publishValidatedWrittenRange { validatedWrittenByteOffset := start, published := initial }
    (∀ p, start ≤ p → (p ≤ w.validatedWrittenByteOffset ↔ ∀ x, start ≤ x → x < p → Seen calls x)) ∧
      start ≤ w.validatedWrittenByteOffset ∧ (w.published = w.validatedWrittenByteOffset ∨
        w.validatedWrittenByteOffset = start ∧ w.published = initial) ∧
      (w.validatedWrittenRanges.Pairwise fun a b => ∀ x, ¬(a.Has x ∧ b.Has x)) ∧
      (∀ s ∈ w.validatedWrittenRanges, s.lo < s.hi ∧ w.validatedWrittenByteOffset < s.lo) ∧
      ∀ c, w.validatedWrittenByteOffset ≤ (w.publishValidatedWrittenRange c).validatedWrittenByteOffset ∧
        w.published ≤ (w.publishValidatedWrittenRange c).published := by
  intro w
  have h : w.Ok start initial calls := (ok_start start initial).foldl calls
  refine ⟨fun p hp => ⟨fun hle x hx hlt => h.covered x hx (hlt.trans_le hle), fun hall => ?_⟩, h.start_le, h.published,
    h.separated.disjoint, fun s hs => ⟨h.separated.proper s hs, h.above s hs⟩, fun c => ?_⟩
  · exact Nat.le_of_not_lt fun hlt => h.next_missing (hall _ h.start_le hlt)
  · obtain ⟨-, hge, hpublished⟩ := h.call c
    refine ⟨hge, ?_⟩
    have hold : w.published ≤ w.validatedWrittenByteOffset := h.published_le hinitial
    omega

theorem written_frontier_exact_overlap :
    let w := [(140, 10), (100, 30), (125, 20), (140, 5), (160, 5)].foldl publishValidatedWrittenRange
      { validatedWrittenByteOffset := 100, published := 100 }
    w = ⟨[⟨160, 165, ()⟩], 150, 150⟩ ∧ ∀ x, 100 ≤ x → x < 150 →
      Seen [(140, 10), (100, 30), (125, 20), (140, 5), (160, 5)] x := by
  refine ⟨by decide, fun x hx hlt => ?_⟩
  have h := written_frontier_exact 100 100 (Nat.le_refl _) [(140, 10), (100, 30), (125, 20), (140, 5), (160, 5)]
  exact (h.1 150 (by decide)).mp (by decide) x hx hlt

end WrittenFrontier

end Embarcadero
