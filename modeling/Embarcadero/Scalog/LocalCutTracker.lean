import Embarcadero.Lib.Spans

namespace Embarcadero.Scalog

structure RecordedWrite where
  offset : Nat
  size : Nat
  numberOfMessages : Nat
  deriving DecidableEq

structure LocalCutTracker where
  ranges : List (Span Nat) := []
  localCut : Nat := 0
  sequentiallyWritten : Nat := 0
  deriving DecidableEq

namespace LocalCutTracker

def walk : Nat → Nat → List (Span Nat) → Nat × Nat
  | currentEnd, currentNumMessages, [] => (currentEnd, currentNumMessages)
  | currentEnd, currentNumMessages, s :: rest =>
    if s.lo ≤ currentEnd then walk (max currentEnd s.hi) (currentNumMessages + s.weight) rest
    else (currentEnd, currentNumMessages)

def updateSequentiallyWritten (t : LocalCutTracker) : LocalCutTracker :=
  match t.ranges with
  | [] => { t with localCut := 0, sequentiallyWritten := 0 }
  | s :: rest =>
    if 0 < s.lo then { t with localCut := 0, sequentiallyWritten := 0 }
    else
      let r := walk s.hi s.weight rest
      { t with localCut := r.2, sequentiallyWritten := r.1 }

def recordWrite (t : LocalCutTracker) (w : RecordedWrite) : LocalCutTracker :=
  if w.size = 0 then t
  else
    { t with ranges := Span.record (· ≤ w.offset) ⟨w.offset, w.offset + w.size, w.numberOfMessages⟩ t.ranges }
      |>.updateSequentiallyWritten

def getLocalCut (t : LocalCutTracker) : Int := t.localCut - 1

def spans (writes : List RecordedWrite) : List (Span Nat) :=
  writes.filterMap fun w => if w.size = 0 then none else some ⟨w.offset, w.offset + w.size, w.numberOfMessages⟩

variable {writes : List RecordedWrite} {t : LocalCutTracker} {w : RecordedWrite}

theorem proper_of_mem_spans {c : Span Nat} (hc : c ∈ spans writes) : c.lo < c.hi := by
  obtain ⟨w, -, hw⟩ := List.mem_filterMap.mp hc
  split at hw
  · cases hw
  · cases hw
    exact Nat.lt_add_of_pos_right (Nat.pos_of_ne_zero ‹_›)

structure Ok (writes : List RecordedWrite) (t : LocalCutTracker) : Prop where
  separated : Span.Separated t.ranges
  covers : ∀ x, Span.Covers t.ranges x ↔ Span.Covers (spans writes) x
  ledger : Span.Ledger (spans writes) t.ranges
  updated : t.updateSequentiallyWritten = t

theorem ranges_updateSequentiallyWritten (t : LocalCutTracker) : t.updateSequentiallyWritten.ranges = t.ranges := by
  rw [updateSequentiallyWritten]
  split
  · rfl
  · split <;> rfl

theorem updateSequentiallyWritten_idem (t : LocalCutTracker) :
    t.updateSequentiallyWritten.updateSequentiallyWritten = t.updateSequentiallyWritten := by
  obtain ⟨_ | ⟨s, rest⟩, localCut, sequentiallyWritten⟩ := t
  · rfl
  · by_cases hlo : 0 < s.lo <;> simp [updateSequentiallyWritten, hlo]

theorem walk_eq {s : Span Nat} {rest : List (Span Nat)} (h : Span.Separated (s :: rest)) :
    walk s.hi s.weight rest = (s.hi, s.weight) := by
  cases rest with
  | nil => rfl
  | cons b rest =>
    have hlt := (Span.Separated.cons_iff.mp h).2.1 b List.mem_cons_self
    rw [walk, if_neg (Nat.not_le.mpr hlt)]

theorem Ok.recordWrite (h : t.Ok writes) (w : RecordedWrite) : (t.recordWrite w).Ok (writes ++ [w]) := by
  rw [LocalCutTracker.recordWrite]
  have hspans : spans (writes ++ [w]) = spans writes ++ spans [w] := List.filterMap_append
  split
  next hzero =>
    have hnone : spans [w] = [] := by simp [spans, hzero]
    rw [hnone, List.append_nil] at hspans
    exact ⟨h.separated, by rw [hspans]; exact h.covers, hspans ▸ h.ledger, h.updated⟩
  next hsize =>
    have hone : spans [w] = [⟨w.offset, w.offset + w.size, w.numberOfMessages⟩] := by simp [spans, hsize]
    rw [hone] at hspans
    let r : Span Nat := ⟨w.offset, w.offset + w.size, w.numberOfMessages⟩
    have hproper : r.lo < r.hi := Nat.lt_add_of_pos_right (Nat.pos_of_ne_zero hsize)
    have hbelow : ∀ k, k < r.lo → decide (k ≤ w.offset) = true := fun k hk => decide_eq_true (le_of_lt hk)
    have hnot : ∀ k, decide (k ≤ w.offset) = true → k ≤ r.lo := fun k hk => of_decide_eq_true hk
    refine ⟨?_, fun x => ?_, ?_, ?_⟩
    · rw [ranges_updateSequentiallyWritten]
      exact Span.separated_record hproper h.separated hbelow hnot
    · rw [ranges_updateSequentiallyWritten, hspans, Span.covers_append, ← h.covers]
      refine (Span.covers_record hproper h.separated hbelow hnot).trans ?_
      rw [or_comm]
      simp [Span.Covers, r]
    · rw [ranges_updateSequentiallyWritten, hspans]
      exact h.ledger.record (fun c => proper_of_mem_spans) hproper h.separated hbelow hnot
    · exact updateSequentiallyWritten_idem _

theorem ok_recordWrites (writes : List RecordedWrite) : (writes.foldl LocalCutTracker.recordWrite {}).Ok writes := by
  induction writes using List.reverseRecOn with
  | nil => exact ⟨.nil, fun _ => .rfl, ⟨nofun, nofun⟩, rfl⟩
  | append_singleton writes w ih =>
    rw [List.foldl_append, List.foldl_cons, List.foldl_nil]
    exact ih.recordWrite w

theorem covers_spans {x : Nat} : Span.Covers (spans writes) x ↔ ∃ w ∈ writes, w.offset ≤ x ∧ x < w.offset + w.size := by
  simp only [Span.Covers, spans, List.mem_filterMap]
  constructor
  · rintro ⟨c, ⟨w, hw, hc⟩, hx⟩
    split at hc
    · cases hc
    · cases hc
      exact ⟨w, hw, hx⟩
  · rintro ⟨w, hw, hx⟩
    exact ⟨_, ⟨w, hw, if_neg (by omega)⟩, hx⟩

def messagesUpTo (writes : List RecordedWrite) (e : Nat) : Nat :=
  ((writes.filter fun w => 0 < w.size ∧ w.offset + w.size ≤ e).map (·.numberOfMessages)).sum

theorem sum_spans (s : Span Nat) (hlo : s.lo = 0) :
    (((spans writes).filter (·.Inside s)).map (·.weight)).sum = messagesUpTo writes s.hi := by
  induction writes with
  | nil => rfl
  | cons w writes ih =>
    by_cases hsize : w.size = 0
    · simp_all [spans, messagesUpTo]
    · by_cases hend : w.offset + w.size ≤ s.hi <;>
        simp_all [spans, messagesUpTo, Span.Inside, Nat.pos_of_ne_zero]

theorem Ok.first (h : t.Ok writes) :
    (t.sequentiallyWritten = 0 ∧ t.localCut = 0 ∧ ¬Span.Covers t.ranges 0) ∨
      ∃ s rest, t.ranges = s :: rest ∧ s.lo = 0 ∧ t.sequentiallyWritten = s.hi ∧ t.localCut = s.weight := by
  have hupdated := h.updated
  have hsep := h.separated
  rw [updateSequentiallyWritten] at hupdated
  split at hupdated
  next hnil =>
    rw [← hupdated]
    exact .inl ⟨rfl, rfl, fun ⟨s, hs, _⟩ => by simp [hnil] at hs⟩
  next s rest hranges =>
    rw [hranges] at hsep ⊢
    obtain ⟨hproper, hrest, -⟩ := Span.Separated.cons_iff.mp hsep
    split at hupdated
    next hlo =>
      rw [← hupdated]
      refine .inl ⟨rfl, rfl, fun ⟨b, hb, hzero, _⟩ => ?_⟩
      cases hb with
      | head => omega
      | tail _ hb =>
        have := hrest b hb
        omega
    next hlo =>
      rw [walk_eq hsep] at hupdated
      rw [← hupdated]
      exact .inr ⟨s, rest, rfl, by omega, rfl, rfl⟩

/-- After any writes the ranges are separated, the written offset is the end of the longest prefix that the writes
cover, and the local cut is one less than the number of messages written into that prefix, each repetition counted. -/
theorem local_cut_counts_writes (writes : List RecordedWrite) :
    let t := writes.foldl recordWrite {}
    (t.ranges.Pairwise fun a b => a.hi < b.lo) ∧
      (∀ p, p ≤ t.sequentiallyWritten ↔ ∀ x < p, ∃ w ∈ writes, w.offset ≤ x ∧ x < w.offset + w.size) ∧
      t.getLocalCut = (messagesUpTo writes t.sequentiallyWritten : Int) - 1 := by
  intro t
  have h : t.Ok writes := ok_recordWrites writes
  have hcovers : ∀ x, Span.Covers t.ranges x ↔ ∃ w ∈ writes, w.offset ≤ x ∧ x < w.offset + w.size :=
    fun x => (h.covers x).trans covers_spans
  refine ⟨h.separated.pairwise, fun p => ?_, ?_⟩
  · simp only [← hcovers]
    rcases h.first with ⟨hend, -, hnone⟩ | ⟨s, rest, hranges, hlo, hend, -⟩
    · rw [hend]
      refine ⟨fun hp x hx => by omega, fun hall => Nat.le_of_not_lt fun hp => hnone (hall 0 hp)⟩
    · rw [hend, hranges]
      refine ⟨fun hp x hx => ⟨s, List.mem_cons_self, by omega, by omega⟩, fun hall => Nat.le_of_not_lt fun hp => ?_⟩
      obtain ⟨b, hb, hblo, hbhi⟩ := hall s.hi hp
      obtain ⟨-, hrest, -⟩ := Span.Separated.cons_iff.mp (hranges ▸ h.separated)
      cases hb with
      | head => omega
      | tail _ hb =>
        have := hrest b hb
        omega
  · rw [getLocalCut]
    rcases h.first with ⟨hend, hcut, -⟩ | ⟨s, rest, hranges, hlo, hend, hcut⟩
    · have hnone : messagesUpTo writes 0 = 0 := by
        rw [messagesUpTo, List.filter_eq_nil_iff.mpr]
        · rfl
        · intro w _
          simp only [decide_eq_true_eq]
          omega
      rw [hend, hcut, hnone]
    · rw [hend, hcut, h.ledger.weight s (by simp [hranges]), sum_spans s hlo]

theorem local_cut_counts_repeats :
    getLocalCut {} = -1 ∧
      (([⟨192, 192, 3⟩, ⟨0, 192, 3⟩] : List RecordedWrite).foldl recordWrite {}).getLocalCut = 5 ∧
      (([⟨192, 192, 3⟩, ⟨0, 192, 3⟩, ⟨0, 192, 3⟩] : List RecordedWrite).foldl recordWrite {}).getLocalCut = 8 := by
  decide

end LocalCutTracker

end Embarcadero.Scalog
