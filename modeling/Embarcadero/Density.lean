import Embarcadero.CommitEffects

namespace Embarcadero

open List

def PendingBatch5.HoldConsistent (p : PendingBatch5) : Prop :=
  p.fromHold = true → p.holdMeta.numMsg = p.numMsg

instance (p : PendingBatch5) : Decidable p.HoldConsistent := inferInstanceAs (Decidable (_ → _))

theorem PendingBatch5.HoldConsistent.commitMeta_numMsg {p : PendingBatch5} (h : p.HoldConsistent) :
    p.commitMeta.numMsg = p.numMsg := by
  unfold PendingBatch5.commitMeta
  split
  · exact h ‹_›
  · rfl

def CxlWrite.descriptor? : CxlWrite → Option BatchHeader
  | .exportDescriptor _ h => some h
  | _ => none

namespace Commit

theorem kept_guardOne_subset (g : Guarded) (p : PendingBatch5) : ∀ q ∈ (guardOne g p).kept, q ∈ g.kept ∨ q = p := by
  intro q hq
  unfold guardOne at hq
  dsimp only at hq
  split at hq
  · simpa using hq
  split at hq
  · simpa using hq
  split at hq
  · exact .inl hq
  · simpa using hq

theorem kept_guardAll_subset (t : Topic) (ready : List PendingBatch5) : ∀ q ∈ (guardAll t ready).kept, q ∈ ready := by
  rw [guardAll]
  apply List.foldlRecOn (motive := fun g : Guarded => ∀ q ∈ g.kept, q ∈ ready)
  · simp
  intro g hg p hp q hq
  rcases kept_guardOne_subset g p q hq with h | rfl
  · exact hg q h
  · exact hp

theorem accepted_subset (t : Topic) (f : EpochInFlight) : ∀ q ∈ accepted t f, q ∈ f.ready := by
  intro q hq
  unfold accepted at hq
  split at hq
  · cases hq
  split at hq
  next kept _ _ _ _ ho =>
    obtain ⟨rfl, -⟩ := outcome_committed ho
    exact kept_guardAll_subset t f.ready q hq
  · cases hq

theorem messages_eq {kept : List PendingBatch5} (h : ∀ p ∈ kept, p.HoldConsistent) :
    messages kept = ((batches kept).map (·.numMsg)).sum := by
  unfold messages
  congr 1
  refine map_congr_left fun p hp => ?_
  exact (h p (mem_of_mem_filter hp)).commitMeta_numMsg

def exportedRange (h : BatchHeader) : Nat × Nat × Nat := (h.brokerId, h.totalOrder, h.numMsg)
def indexedRange (e : GOIEntry) : Nat × Nat × Nat := (e.brokerId, e.totalOrder, e.messageCount)

theorem descriptor?_clear (p : PendingBatch5) :
    (p.hdr.map CxlWrite.clearPublishState).toList.filterMap CxlWrite.descriptor? = [] := by
  cases p.hdr <;> rfl

theorem descriptors_exportWrites (P : Platform) (c : CxlMemory) (kept : List PendingBatch5) :
    ∀ (index order : Nat) (cumulative : Nat → Nat) (s : ExportState),
      ((exportWrites P order s kept).1.filterMap CxlWrite.descriptor?).map exportedRange =
        ((goiEntries c index order cumulative kept).filter (exports P ·.brokerId)).map
          indexedRange := by
  induction kept with
  | nil => intros; rfl
  | cons p rest ih =>
    intro index order cumulative s
    by_cases h : p.isMarker
    · rw [goiEntries_cons_marker h, ← ih index order cumulative s]
      simp [exportWrites, h]
    · obtain ⟨count, cumulative', he⟩ := goiEntries_cons_batch (c := c) h index order cumulative rest
      rw [he, exportWrites, if_neg h]
      by_cases hx : exports P p.commitMeta.brokerId
      · have := ih (index + 1) (order + p.commitMeta.numMsg) cumulative' (s.advance P p.commitMeta.brokerId)
        rw [filter_cons_of_pos (by exact hx)]
        simp only [hx, if_true, filterMap_cons, CxlWrite.descriptor?, filterMap_append,
          descriptor?_clear, nil_append, map_cons, this, cons_append]
        rfl
      · have := ih (index + 1) (order + p.commitMeta.numMsg) cumulative' s
        rw [filter_cons_of_neg (by exact hx)]
        simp only [hx, Bool.false_eq_true, if_false, filterMap_append, descriptor?_clear, nil_append, this]

theorem descriptor?_eq_none {w : CxlWrite} (h : w.region ≠ .ring) : w.descriptor? = none := by
  cases w <;> first | rfl | exact absurd rfl h

def descriptors (P : Platform) (t : Topic) (f : EpochInFlight) : List BatchHeader :=
  (writes P t f).filterMap CxlWrite.descriptor?

theorem filterMap_descriptor?_eq_nil {ws : List CxlWrite}
    (h : ∀ w ∈ ws, w.descriptor? = none) : ws.filterMap CxlWrite.descriptor? = [] :=
  filterMap_eq_nil_iff.mpr h

theorem descriptor?_guardOne {g : Guarded} (hg : ∀ w ∈ g.writes, w.descriptor? = none)
    (p : PendingBatch5) : ∀ w ∈ (guardOne g p).writes, w.descriptor? = none := by
  intro w hw
  unfold guardOne at hw
  dsimp only at hw
  split at hw
  · exact hg w hw
  split at hw
  · exact hg w hw
  split at hw
  · simp only [append_assoc, mem_append, mem_singleton] at hw
    rcases hw with hw | rfl | hw
    · exact hg w hw
    · rfl
    · exact filterMap_eq_nil_iff.mp (descriptor?_clear p) w hw
  · simp only [mem_append, mem_singleton] at hw
    rcases hw with hw | rfl
    · exact hg w hw
    · rfl

theorem descriptor?_guardAll (t : Topic) (ready : List PendingBatch5) :
    ∀ w ∈ (guardAll t ready).writes, w.descriptor? = none := by
  rw [guardAll]
  apply List.foldlRecOn (motive := fun g : Guarded => ∀ w ∈ g.writes, w.descriptor? = none)
  · simp
  · exact fun g hg p _ => descriptor?_guardOne hg p

theorem descriptor?_goiWrites (c : CxlMemory) (kept : List PendingBatch5) :
    ∀ (index order : Nat) (cumulative : Nat → Nat),
      ∀ w ∈ goiWrites c index order cumulative kept, w.descriptor? = none := by
  induction kept with
  | nil => simp [goiWrites]
  | cons p rest ih =>
    intro index order cumulative w hw
    by_cases h : p.isMarker
    · rw [goiWrites, if_pos h] at hw
      exact ih _ _ _ w hw
    · obtain ⟨count, cumulative', he⟩ := goiWrites_cons_batch (c := c) h index order cumulative rest
      rw [he] at hw
      simp only [mem_append, mem_cons] at hw
      rcases hw with hw | rfl | hw
      · unfold stamp at hw
        split at hw
        · cases hw
        · cases hp : p.hdr <;> simp_all [CxlWrite.descriptor?]
      · rfl
      · exact ih _ _ _ w hw

theorem descriptors_eq (P : Platform) (t : Topic) (f : EpochInFlight) (hx : t.capacityExhausted = false) :
    (descriptors P t f).map exportedRange = ((entries t f).filter (exports P ·.brokerId)).map indexedRange := by
  have hguard := filterMap_descriptor?_eq_nil (descriptor?_guardAll t f.ready)
  have hadvance : ∀ contiguous, (advanceConsumedThrough P t.shards f contiguous).2.filterMap
      CxlWrite.descriptor? = [] := fun contiguous => filterMap_descriptor?_eq_nil fun w hw =>
    descriptor?_eq_none (by simp [region_advanceConsumedThrough P _ _ _ w hw])
  cases ho : outcome t (guardAll t f.ready) with
  | stopped =>
    simp [descriptors, writes, ho, hguard, entries, accepted, hx, goiEntries, goiWrites]
  | nothingReady =>
    simp [descriptors, writes, ho, hguard, hadvance, entries, accepted, hx, goiEntries, goiWrites]
  | committed kept firstGoi n firstMessage msgs =>
    obtain ⟨-, -, rfl, rfl, -, -⟩ := outcome_committed ho
    have hgoi := filterMap_descriptor?_eq_nil
      (descriptor?_goiWrites t.cxl kept t.globalBatchSeq t.globalSeq t.cxl.ordered)
    have hordered : (orderedWrites (committed kept)).filterMap CxlWrite.descriptor? = [] :=
      filterMap_descriptor?_eq_nil fun w hw =>
        descriptor?_eq_none (by simp [region_orderedWrites _ w hw])
    have hsession : (sessionWrites P (committed kept)).filterMap CxlWrite.descriptor? = [] :=
      filterMap_descriptor?_eq_nil fun w hw =>
        descriptor?_eq_none (by simp [region_sessionWrites P _ w hw])
    have hpass := descriptors_exportWrites P t.cxl kept t.globalBatchSeq t.globalSeq t.cxl.ordered
      ⟨t.exportCursor, t.exportSequence⟩
    simpa [descriptors, writes, ho, hguard, hgoi, hordered, hsession, hadvance, entries, accepted, hx] using hpass

theorem accepted_of_reserve_none {t : Topic} {f : EpochInFlight} {n msgs : Nat}
    (hcount : countReady (guardAll t f.ready).kept (some (0, 0)) = some (n, msgs))
    (hreserve : tryReserveCommitRanges t.globalBatchSeq t.globalSeq goiCapacity n msgs = none) : accepted t f = [] := by
  unfold accepted
  split
  · rfl
  · unfold outcome
    rw [hcount]
    dsimp only
    rw [hreserve]
    split_ifs <;> rfl

end Commit

/-- Runs of `CommitEpoch` over arbitrary ready vectors.  Between two invocations anything may
happen that leaves the GOI and the two frontiers alone. -/
inductive CommitRun (P : Platform) : Topic → Prop
  | start {t : Topic} : t.globalBatchSeq = 0 → t.globalSeq = 0 → CommitRun P t
  | commit {t : Topic} {f : EpochInFlight} : CommitRun P t → (∀ p ∈ f.ready, p.HoldConsistent) →
      CommitRun P (commitEpoch P t f)
  | other {t t' : Topic} : CommitRun P t → t'.cxl.goi = t.cxl.goi →
      t'.globalBatchSeq = t.globalBatchSeq → t'.globalSeq = t.globalSeq → CommitRun P t'

def Topic.Dense (t : Topic) : Prop :=
  Log.Tiles 0 ((Log.upTo t.cxl.goi t.globalBatchSeq).map Commit.range) t.globalSeq

theorem Topic.Dense.commitEpoch {P : Platform} {t : Topic} {f : EpochInFlight} (h : t.Dense)
    (hf : ∀ p ∈ f.ready, p.HoldConsistent) : (commitEpoch P t f).Dense := by
  have hmsgs : Commit.messages (Commit.accepted t f) = ((Commit.batches (Commit.accepted t f)).map (·.numMsg)).sum :=
    Commit.messages_eq fun p hp => hf p (Commit.accepted_subset t f p hp)
  obtain ⟨hb, hm⟩ := commitEpoch_frontiers P t f
  unfold Topic.Dense
  rw [commitEpoch_goi, hb, hm, Log.upTo_fill, map_append, ← hmsgs]
  exact h.append (Commit.tiles_goiEntries ..)

theorem CommitRun.dense {P : Platform} {t : Topic} (h : CommitRun P t) : t.Dense := by
  induction h with
  | start hb hm =>
    rw [Topic.Dense, hb, hm]
    rfl
  | commit _ hf ih => exact ih.commitEpoch hf
  | other _ hg hb hm ih => rwa [Topic.Dense, hg, hb, hm]

/-- Total-order density.  The GOI tiles `[0, global_seq)`, every further invocation writes the same
ranges to the export descriptors, and one whose reservation fails changes neither frontier and
writes no entry. -/
theorem total_order_dense {P : Platform} {t : Topic} (h : CommitRun P t) :
    Log.Tiles 0 ((Log.upTo t.cxl.goi t.globalBatchSeq).map Commit.range) t.globalSeq ∧
      (∀ f, t.capacityExhausted = false → (Commit.descriptors P t f).map Commit.exportedRange =
        ((Commit.entries t f).filter (Commit.exports P ·.brokerId)).map Commit.indexedRange) ∧
      ∀ f n msgs, Commit.countReady (Commit.guardAll t f.ready).kept (some (0, 0)) = some (n, msgs) →
        tryReserveCommitRanges t.globalBatchSeq t.globalSeq goiCapacity n msgs = none →
        (commitEpoch P t f).globalBatchSeq = t.globalBatchSeq ∧
          (commitEpoch P t f).globalSeq = t.globalSeq ∧
          (commitEpoch P t f).cxl.goi = t.cxl.goi := by
  refine ⟨h.dense, fun f hx => Commit.descriptors_eq P t f hx, fun f n msgs hcount hreserve => ?_⟩
  have haccepted := Commit.accepted_of_reserve_none hcount hreserve
  have hentries : Commit.entries t f = [] := by
    rw [Commit.entries, haccepted]
    rfl
  obtain ⟨hb, hm⟩ := commitEpoch_frontiers P t f
  refine ⟨?_, ?_, ?_⟩
  · rw [hb, hentries, length_nil, Nat.add_zero]
  · rw [hm, haccepted, Commit.batches_nil, map_nil, sum_nil, Nat.add_zero]
  · rw [commitEpoch_goi, hentries]
    rfl

def mixedEpoch : EpochInFlight where
  ready := [
    { hdr := some ⟨0, 0⟩, numMsg := 2, clientId := 7, sessionEpoch := 1 },
    { hdr := some ⟨0, 1⟩, slotOffset := 1, clientId := 8, skipped := true },
    { isHeldMarker := true, slotOffset := 2 },
    { brokerId := 1, numMsg := 3, clientId := 9, sessionEpoch := 1, fromHold := true
      holdMeta := { brokerId := 1, numMsg := 3, clientId := 9, sessionEpoch := 1 } }]
  batchList := []
  brokerSeen := fun _ => false
  contiguousConsumed := fun _ => 0

theorem total_order_dense_mixedEpoch :
    let t := commitEpoch .small (.fresh .small) mixedEpoch
    t.globalBatchSeq = 2 ∧ t.globalSeq = 5 ∧
      Log.Tiles 0 ((Log.upTo t.cxl.goi t.globalBatchSeq).map Commit.range) t.globalSeq :=
  ⟨by decide +kernel, by decide +kernel, (total_order_dense (.commit (.start rfl rfl) (by decide))).1⟩

end Embarcadero
