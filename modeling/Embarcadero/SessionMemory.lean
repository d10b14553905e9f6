import Embarcadero.SequencerUtils
import Embarcadero.Lib.Residue
import Embarcadero.Lib.Runs

namespace Embarcadero

open List

namespace OptimizedClientState

inductive Call
  | markSequenced (seq : Nat)
  | advanceNextExpected
  | setNextExpected (next : Nat)

def call (s : OptimizedClientState) : Call → OptimizedClientState
  | .markSequenced seq => s.markSequenced seq
  | .advanceNextExpected => s.advanceNextExpected
  | .setNextExpected next => s.setNextExpected next

def after (calls : List Call) : OptimizedClientState := calls.foldl call {}

def Covers (s : OptimizedClientState) (seq : Nat) : Prop :=
  s.windowBase ≤ seq ∧ seq < s.windowBase + clientWindowSize

def Marked (calls : List Call) (seq : Nat) : Prop :=
  ∃ before rest, calls = before ++ .markSequenced seq :: rest ∧ (after before).Covers seq

structure Remembers (s : OptimizedClientState) (M : Nat → Prop) : Prop where
  seen : ∀ q, s.Covers q → (s.windowSeen (q % clientWindowSize) = true ↔ M q)
  ahead : ∀ q, M q → q < s.windowBase + clientWindowSize

variable {s : OptimizedClientState} {M : Nat → Prop} {calls : List Call} {q : Nat}

theorem Remembers.congr {s' : OptimizedClientState} {M' : Nat → Prop} (h : s.Remembers M)
    (hbase : s'.windowBase = s.windowBase) (hseen : s'.windowSeen = s.windowSeen) (hM : ∀ q, M' q ↔ M q) :
    s'.Remembers M' := by
  constructor
  · intro q hq
    rw [Covers, hbase] at hq
    rw [hseen, hM, h.seen q hq]
  · intro q hq
    rw [hbase]
    exact h.ahead q ((hM q).mp hq)

theorem Remembers.setSeen (h : s.Remembers M) (seq : Nat) :
    (s.setSeen seq).Remembers fun q => M q ∨ q = seq ∧ s.Covers seq := by
  unfold OptimizedClientState.setSeen
  split
  next hseq =>
    constructor
    · intro q hq
      by_cases heq : q = seq
      · simp [heq, Covers, hseq]
      · have hne : q % clientWindowSize ≠ seq % clientWindowSize := fun hmod =>
          heq (Residue.eq_of_mod_eq hq.1 hq.2 hseq.1 hseq.2 hmod)
        simp [Function.update_of_ne hne, h.seen q hq, heq]
    · rintro q (hq | ⟨rfl, hq⟩)
      · exact h.ahead q hq
      · exact hq.2
  next hseq => exact h.congr rfl rfl fun q => or_iff_left fun hq => hseq hq.2

-- the bit that is cleared belongs to the number that enters the window, and that number has no mark yet
theorem Remembers.slideWindow (h : s.Remembers M) (seq fuel : Nat) : (slideWindow seq fuel s).Remembers M := by
  induction fuel generalizing s with
  | zero => exact h
  | succ fuel ih =>
    rw [OptimizedClientState.slideWindow]
    split
    · apply ih
      constructor
      · rintro q ⟨hlo, hhi⟩
        dsimp only at hlo hhi ⊢
        by_cases hq : q = s.windowBase + clientWindowSize
        · have hno : ¬M q := fun hm => absurd (h.ahead q hm) (by omega)
          simp [hq ▸ hno, hq]
        · have hcovers : s.Covers q := ⟨by omega, by omega⟩
          have hne : q % clientWindowSize ≠ s.windowBase % clientWindowSize := fun hmod =>
            absurd (Residue.eq_of_mod_eq hcovers.1 hcovers.2 (Nat.le_refl _) (by simp [clientWindowSize]) hmod)
              (by omega)
          rw [Function.update_of_ne hne, h.seen q hcovers]
      · intro q hq
        have := h.ahead q hq
        dsimp only
        omega
    · exact h

theorem Remembers.markSequenced (h : s.Remembers M) (seq : Nat) :
    (s.markSequenced seq).Remembers fun q => M q ∨ q = seq ∧ s.Covers seq :=
  ((h.congr rfl rfl fun _ => .rfl :
    { s with highestSequenced := max s.highestSequenced seq }.Remembers M).setSeen seq).slideWindow _ _

theorem le_windowBase_slideWindow {b : Nat} (h : b ≤ s.windowBase) (seq fuel : Nat) :
    b ≤ (slideWindow seq fuel s).windowBase := by
  induction fuel generalizing s with
  | zero => exact h
  | succ fuel ih =>
    rw [OptimizedClientState.slideWindow]
    split
    · exact ih (h.trans (Nat.le_succ _))
    · exact h

theorem windowBase_le_call (s : OptimizedClientState) (c : Call) : s.windowBase ≤ (s.call c).windowBase := by
  cases c with
  | markSequenced seq =>
    obtain ⟨seen, hs⟩ := setSeen_frame { s with highestSequenced := max s.highestSequenced seq } seq
    rw [call, OptimizedClientState.markSequenced, hs]
    apply le_windowBase_slideWindow
    exact Nat.le_refl _
  | advanceNextExpected => exact Nat.le_refl _
  | setNextExpected next => exact Nat.le_refl _

theorem windowBase_le_foldl (s : OptimizedClientState) (calls : List Call) :
    s.windowBase ≤ (calls.foldl call s).windowBase := by
  induction calls generalizing s with
  | nil => exact Nat.le_refl _
  | cons c calls ih => exact (windowBase_le_call s c).trans (ih _)

theorem after_concat (calls : List Call) (c : Call) : after (calls ++ [c]) = (after calls).call c := by
  rw [after, foldl_concat]
  rfl

theorem marked_concat {c : Call} :
    Marked (calls ++ [c]) q ↔ Marked calls q ∨ c = .markSequenced q ∧ (after calls).Covers q := by
  constructor
  · rintro ⟨before, rest, heq, hcovers⟩
    rcases eq_nil_or_concat rest with rfl | ⟨rest, x, rfl⟩
    · obtain ⟨rfl, hc⟩ := append_inj' heq rfl
      exact .inr ⟨(cons.inj hc).1, hcovers⟩
    · rw [concat_eq_append, ← cons_append, ← append_assoc] at heq
      exact .inl ⟨before, rest, (append_inj' heq rfl).1, hcovers⟩
  · rintro (⟨before, rest, rfl, hcovers⟩ | ⟨rfl, hcovers⟩)
    · exact ⟨before, rest ++ [c], by simp, hcovers⟩
    · exact ⟨calls, [], rfl, hcovers⟩

theorem remembers_after (calls : List Call) : (after calls).Remembers (Marked calls) := by
  induction calls using reverseRecOn with
  | nil => exact ⟨fun q _ => by simp [after, Marked], fun q hq => by simp [Marked] at hq⟩
  | append_singleton calls c ih =>
    rw [after_concat]
    cases c with
    | markSequenced seq =>
      refine (ih.markSequenced seq).congr rfl rfl fun q => marked_concat.trans (or_congr_right ?_)
      exact ⟨fun h => by cases h.1; exact ⟨rfl, h.2⟩, fun h => by cases h.1; exact ⟨rfl, h.2⟩⟩
    | advanceNextExpected => exact ih.congr rfl rfl fun q => marked_concat.trans (by simp)
    | setNextExpected next => exact ih.congr rfl rfl fun q => marked_concat.trans (by simp)

theorem isDuplicate_iff_covers : s.isDuplicate q = true ↔ s.Covers q ∧ s.windowSeen (q % clientWindowSize) = true := by
  unfold isDuplicate Covers
  split
  · simp; omega
  · split
    · simp; omega
    · simp; omega

/-- A number is a duplicate if and only if it was marked while the window covered it and the window has not passed it
since; the window only moves forward. -/
theorem duplicate_window_exact (calls : List Call) :
    (∀ q, (after calls).isDuplicate q = true ↔ Marked calls q ∧ (after calls).windowBase ≤ q) ∧
      ∀ more, (after calls).windowBase ≤ (after (calls ++ more)).windowBase := by
  have h := remembers_after calls
  constructor
  · intro q
    rw [isDuplicate_iff_covers]
    constructor
    · rintro ⟨hcovers, hseen⟩
      exact ⟨(h.seen q hcovers).mp hseen, hcovers.1⟩
    · rintro ⟨hmarked, hbase⟩
      have hcovers : (after calls).Covers q := ⟨hbase, h.ahead q hmarked⟩
      exact ⟨hcovers, (h.seen q hcovers).mpr hmarked⟩
  · intro more
    rw [after, after, foldl_append]
    exact windowBase_le_foldl _ more

end OptimizedClientState

namespace ClientEmitTracker

structure Tidy (t : ClientEmitTracker) : Prop where
  nodup : t.pending.Nodup
  gap : ∀ m ∈ t.contiguousMax, ∀ s ∈ t.pending, m + 1 < s
  unset : t.contiguousMax = none → 0 ∉ t.pending

structure Exact (t : ClientEmitTracker) (marks : List Nat) : Prop where
  emitted : ∀ s, t.isEmitted s = true ↔ s ∈ marks
  /-- `contiguousMax` is the largest `n` for which all of `0..n` are marked. -/
  contiguous : ∀ n, (∀ k ≤ n, k ∈ marks) ↔ ∃ m ∈ t.contiguousMax, n ≤ m
  pending : ∀ m ∈ t.contiguousMax, ∀ s ∈ t.pending, m < s

def step (t : ClientEmitTracker) (seq : Nat) : Option ClientEmitTracker := some (t.markEmitted seq)

def FirstInOrder (t : ClientEmitTracker) (seq : Nat) : Prop :=
  seq < 2 ^ 64 - 1 ∧ (t.contiguousMax = none → seq = 0 → 1 ∉ t.pending)

instance (t : ClientEmitTracker) (seq : Nat) : Decidable (t.FirstInOrder seq) :=
  inferInstanceAs (Decidable (_ ∧ _))

variable {t : ClientEmitTracker} {seq : Nat}

theorem tidy_absorb {fuel m : Nat} {pending : List Nat} (hfuel : pending.length ≤ fuel) (hnodup : pending.Nodup)
    (habove : ∀ s ∈ pending, m < s) : (absorb fuel m pending).Tidy := by
  induction fuel generalizing m pending with
  | zero =>
    cases length_eq_zero_iff.mp (Nat.le_zero.mp hfuel)
    exact ⟨.nil, by rintro _ _ _ ⟨⟩, by rintro ⟨⟩⟩
  | succ fuel ih =>
    rw [absorb]
    split
    next hmem =>
      have hlen := length_erase_of_mem (contains_iff_mem.mp hmem)
      refine ih (by omega) (hnodup.erase _) fun s hs => ?_
      obtain ⟨hne, hs⟩ := hnodup.mem_erase_iff.mp hs
      have := habove s hs
      omega
    next hmem =>
      refine ⟨hnodup, ?_, by rintro ⟨⟩⟩
      rintro _ ⟨⟩ s hs
      have hne : s ≠ m + 1 := fun heq => hmem (contains_iff_mem.mpr (heq ▸ hs))
      have := habove s hs
      omega

theorem Tidy.insertPending (h : t.Tidy) (hgap : ∀ m ∈ t.contiguousMax, m + 1 < seq) (hpos : 0 < seq) :
    (t.insertPending seq).Tidy := by
  unfold ClientEmitTracker.insertPending
  split
  · exact h
  next hmem =>
    refine ⟨nodup_cons.mpr ⟨by simpa using hmem, h.nodup⟩, ?_, ?_⟩
    · intro m hm s hs
      rcases mem_cons.mp hs with rfl | hs
      · exact hgap m hm
      · exact h.gap m hm s hs
    · intro hnone hzero
      rcases mem_cons.mp hzero with rfl | hzero
      · exact absurd hpos (Nat.lt_irrefl 0)
      · exact h.unset hnone hzero

theorem Tidy.markEmitted (h : t.Tidy) (hfirst : t.FirstInOrder seq) : (t.markEmitted seq).Tidy := by
  unfold ClientEmitTracker.markEmitted
  split
  next hnone =>
    split
    next hzero =>
      refine ⟨h.nodup, ?_, nofun⟩
      rintro _ ⟨⟩ s hs
      have h0 : s ≠ 0 := fun heq => h.unset hnone (heq ▸ hs)
      have h1 : s ≠ 1 := fun heq => hfirst.2 hnone hzero (heq ▸ hs)
      omega
    · exact h.insertPending (by simp [hnone]) (by omega)
  next m hm =>
    split
    · exact h
    · split
      next heq =>
        refine tidy_absorb (Nat.le_refl _) h.nodup fun s hs => ?_
        rw [heq]
        exact h.gap m hm s hs
      · refine h.insertPending ?_ (by omega)
        rw [hm]
        rintro _ ⟨⟩
        omega

theorem Tidy.contiguous (h : t.Tidy) (n : Nat) : (∀ k ≤ n, t.isEmitted k = true) ↔ ∃ m ∈ t.contiguousMax, n ≤ m := by
  constructor
  · intro hall
    cases hc : t.contiguousMax with
    | none =>
      have hzero := hall 0 (Nat.zero_le n)
      simp only [isEmitted, hc, Bool.false_or, contains_iff_mem] at hzero
      exact absurd hzero (h.unset hc)
    | some m =>
      refine ⟨m, rfl, Nat.le_of_not_lt fun hlt => ?_⟩
      have hnext := hall (m + 1) hlt
      simp only [isEmitted, hc, Bool.or_eq_true, decide_eq_true_eq, contains_iff_mem] at hnext
      rcases hnext with hle | hmem
      · omega
      · exact absurd (h.gap m hc _ hmem) (Nat.lt_irrefl _)
  · rintro ⟨m, hm, hle⟩ k hk
    have hkm := hk.trans hle
    rw [Option.mem_def] at hm
    simp [isEmitted, hm, hkm]

/-- If `0` never completes the start of a range that is already waiting, the tracker is the set of the marked
numbers. -/
theorem emit_tracker_exact {marks : List Nat} (hrun : Runs.Along step FirstInOrder {} marks t) : t.Exact marks := by
  obtain ⟨hemitted, htidy⟩ := hrun.history (I := fun done t => (∀ s, t.isEmitted s = true ↔ s ∈ done) ∧ t.Tidy) (by
      rintro done t seq _ hfirst ⟨⟩ ⟨hemitted, htidy⟩
      refine ⟨fun s => ?_, htidy.markEmitted hfirst⟩
      rw [mem_append, ← hemitted s, mem_singleton, or_comm]
      exact isEmitted_markEmitted)
    (⟨fun _ => by simp, .nil, nofun, nofun⟩ : (∀ s, isEmitted {} s = true ↔ s ∈ []) ∧ Tidy {})
  refine ⟨hemitted, fun n => ?_, fun m hm s hs => (Nat.lt_succ_self m).trans (htidy.gap m hm s hs)⟩
  rw [← htidy.contiguous n]
  exact forall₂_congr fun k _ => (hemitted k).symm

theorem emit_tracker_exact_outOfOrder : ∃ t, Runs.Along step FirstInOrder {} [2, 0, 3, 1] t ∧
    (t.contiguousMax, t.pending) = (some 3, []) ∧ t.Exact [2, 0, 3, 1] :=
  Runs.exists_of_exec (fun t => (t.contiguousMax, t.pending)) _ (by decide +kernel) fun _ hrun ht =>
    ⟨ht, emit_tracker_exact hrun⟩

theorem first_not_absorbed : ((({} : ClientEmitTracker).markEmitted 1).markEmitted 0).contiguousMax = some 0 ∧
    ¬((({} : ClientEmitTracker).markEmitted 1).markEmitted 0).Exact [1, 0] := by
  refine ⟨by decide, fun h => ?_⟩
  obtain ⟨m, hm, hle⟩ := (h.contiguous 1).mp (by decide)
  cases hm
  exact absurd hle (by decide)

end ClientEmitTracker

end Embarcadero
