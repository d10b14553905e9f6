import Embarcadero.Custody
import Embarcadero.Lib.Cursor

namespace Embarcadero

open List
open Function (update)

variable {P : Platform} {t t' : Topic} {f : EpochInFlight} {es : List Event}

structure Topic.Indexed (t : Topic) : Prop where
  index : (Log.upTo t.cxl.goi t.globalBatchSeq).map (·.globalSeq) = List.range t.globalBatchSeq
  committed : t.cxl.committedLimit ≤ t.nextExpectedStart
  next : t.nextExpectedStart ≤ t.globalBatchSeq
  ranges : ∀ r ∈ t.completedRanges ++ t.pendingRanges, r.stop ≤ t.globalBatchSeq

structure Topic.Extends (t t' : Topic) : Prop where
  limit : t.cxl.committedLimit ≤ t'.cxl.committedLimit
  goi : ∀ i < t.cxl.committedLimit, t'.cxl.goi i = t.cxl.goi i

def Topic.view (t : Topic) :=
  (t.cxl.goi, t.cxl.committedSeq, t.globalBatchSeq, t.nextExpectedStart, t.completedRanges, t.pendingRanges)

inductive Topic.Seen (P : Platform) (t : Topic) : Topic → Prop
  | commit {f : EpochInFlight} : t.inFlight = some f → Seen P t (t.commit P f)
  | updateCommittedSeq (n : Nat) : Seen P t (t.committedSeqUpdater n)
  | crash (n : Nat) : Seen P t (t.crash P n)
  | same {t' : Topic} : t'.view = t.view → Seen P t t'

theorem Topic.view_classify {e : Event} (he : e.classifies = true) (hstep : step P t e = some t') :
    t'.view = t.view := by
  obtain ⟨clock, t₁, f, hx, rfl⟩ := extracts_of_step he hstep
  refine (congrArg view (frame_process (P := P) clock t₁ (t.level5 e.batchList))).trans ?_
  rw [hx.start]
  rfl

theorem Topic.seen_of_step {e : Event} (hstep : step P t e = some t') : t.Seen P t' := by
  cases e with
  | epoch _ _ | idleTick _ | finalDrain _ => exact .same (view_classify rfl hstep)
  | commit =>
    obtain ⟨f, hf, rfl⟩ := Option.map_eq_some_iff.mp hstep
    exact .commit hf
  | updateCommittedSeq n =>
    cases hstep
    exact .updateCommittedSeq n
  | crash n =>
    cases hstep
    exact .crash n
  | tail =>
    cases hstep
    have hregion : ∀ w ∈ t.tailWrites, w.region ≠ .goi := by
      intro w hw
      rw [region_tailWrites t w hw]
      exact Region.noConfusion
    apply Seen.same
    rw [view, finishTail, CxlMemory.goi_writes hregion, CxlMemory.committedSeq_writes]
    rfl
  | takeFenceNote _ | ackEpochCheck _ _ | ackRelay _ =>
    obtain ⟨_, _, _, _, rfl⟩ := relays_of_step rfl hstep
    exact .same rfl
  | _ =>
    cases hstep
    exact .same rfl

namespace Topic.Indexed

theorem of_view (h : t.Indexed) (hv : t'.view = t.view) : t'.Indexed ∧ t.Extends t' := by
  simp only [Topic.view, Prod.mk.injEq] at hv
  obtain ⟨hgoi, hseq, hgbs, hnext, hcr, hpr⟩ := hv
  have hlimit : t'.cxl.committedLimit = t.cxl.committedLimit := by
    rw [CxlMemory.committedLimit, CxlMemory.committedLimit, hseq]
  refine ⟨⟨?_, ?_, ?_, ?_⟩, hlimit.ge, fun i _ => by rw [hgoi]⟩
  · rw [hgoi, hgbs]
    exact h.index
  · rw [hlimit, hnext]
    exact h.committed
  · rw [hnext, hgbs]
    exact h.next
  · rw [hcr, hpr, hgbs]
    exact h.ranges

theorem globalSeq_eq (h : t.Indexed) {i : Nat} (hi : i < t.globalBatchSeq) : (t.cxl.goi i).globalSeq = i := by
  have hget := congrArg (·[i]?) h.index
  simpa [Log.upTo, hi] using hget

theorem limit_le (h : t.Indexed) : t.cxl.committedLimit ≤ t.globalBatchSeq := h.committed.trans h.next

theorem commit (h : t.Indexed) : (t.commit P f).Indexed ∧ t.Extends (t.commit P f) := by
  have hshape := commitEpoch_shape P t f
  have hpr : (commitEpoch P t f).pendingRanges = t.pendingRanges := by rw [hshape]
  have hnext : (commitEpoch P t f).nextExpectedStart = t.nextExpectedStart := by rw [hshape]
  have hlimit := committedLimit_commitEpoch P t f
  have hgbs : t.globalBatchSeq ≤ (commitEpoch P t f).globalBatchSeq := by
    rw [(commitEpoch_frontiers P t f).1]
    exact Nat.le_add_right _ _
  refine ⟨⟨index_commitEpoch h.index, ?_, ?_, fun r hr => ?_⟩, hlimit.ge, fun i hi => ?_⟩
  · exact (hlimit.le.trans h.committed).trans hnext.ge
  · exact (hnext.le.trans h.next).trans hgbs
  · cases mem_append.mp hr with
    | inl hr =>
      cases commitEpoch_completedRanges P t f r hr with
      | inl hold => exact (h.ranges r (mem_append_left _ hold)).trans hgbs
      | inr hnew => exact hnew.le
    | inr hr => exact (h.ranges r (mem_append_right _ (hpr ▸ hr))).trans hgbs
  · change (commitEpoch P t f).cxl.goi i = _
    rw [commitEpoch_goi, Log.fill_of_lt (Nat.lt_of_lt_of_le hi h.limit_le)]

theorem updateCommittedSeq (h : t.Indexed) (n : Nat) :
    (t.committedSeqUpdater n).Indexed ∧ t.Extends (t.committedSeqUpdater n) := by
  have hbound : ∀ q ∈ (t.completedRanges.take n).foldl (fun q r => insertRange r q)
      t.pendingRanges, q.stop ≤ t.globalBatchSeq := by
    intro q hq
    cases mem_foldl_insertRange _ hq with
    | inl hq => exact h.ranges q (mem_append_left _ (mem_of_mem_take hq))
    | inr hq => exact h.ranges q (mem_append_right _ hq)
  have hnext := advanceRanges_le h.next hbound
  have hadv := advanced_advanceRanges ((t.completedRanges.take n).foldl (fun q r => insertRange r q) t.pendingRanges)
    t.nextExpectedStart
  have hlimit : t.cxl.committedLimit ≤ (t.committedSeqUpdater n).cxl.committedLimit ∧
      (t.committedSeqUpdater n).cxl.committedLimit ≤ (t.committedSeqUpdater n).nextExpectedStart := by
    have hcommitted := h.committed
    rw [Topic.committedSeqUpdater]
    dsimp only
    split
    · dsimp only [CxlMemory.committedLimit] at hcommitted ⊢
      rw [Option.map_some, Option.getD_some]
      omega
    · exact ⟨Nat.le_refl _, hcommitted.trans hadv.forward⟩
  obtain ⟨s, hs⟩ := t.committedSeqUpdater_cxl n
  have hgoi : (t.committedSeqUpdater n).cxl.goi = t.cxl.goi := by rw [hs]
  refine ⟨⟨?_, hlimit.2, hnext, fun q hq => ?_⟩, hlimit.1, fun i _ => by rw [hgoi]⟩
  · rw [hgoi]
    exact h.index
  · cases mem_append.mp hq with
    | inl hq => exact h.ranges q (mem_append_left _ (mem_of_mem_drop hq))
    | inr hq => exact hbound q (hadv.kept hq)

theorem crash (h : t.Indexed) (n : Nat) :
    (t.crash P n).Indexed ∧ t.Extends (t.crash P n) ∧ (t.crash P n).globalBatchSeq = t.cxl.committedLimit := by
  have hgoi : ∀ i < t.cxl.committedLimit, (t.surviving P n).goi i = t.cxl.goi i := fun i hi =>
    t.goi_surviving P n (Nat.lt_of_lt_of_le hi h.limit_le)
  have hlimit : (t.surviving P n).committedLimit = t.cxl.committedLimit := by
    rw [CxlMemory.committedLimit, CxlMemory.committedLimit, Topic.surviving, CxlMemory.committedSeq_writes]
  have hscan := Recovered.scanned (t.surviving P n).goi t.cxl.committedLimit fun i hi => by
    rw [hgoi i hi]
    exact h.globalSeq_eq (Nat.lt_of_lt_of_le hi h.limit_le)
  obtain ⟨hcgoi, -, hclimit⟩ := sequencer5_cxl P (t.surviving P n)
  have hgbs : (t.crash P n).globalBatchSeq = t.cxl.committedLimit := by
    change (recoverSequencer5State (t.surviving P n)).nextGoiIndex = _
    rw [← hscan.index, ← hlimit]
    rfl
  have hgoi' : ∀ i < t.cxl.committedLimit, (t.crash P n).cxl.goi i = t.cxl.goi i := fun i hi =>
    (congrFun hcgoi i).trans (hgoi i hi)
  have hlimit' : (t.crash P n).cxl.committedLimit = t.cxl.committedLimit := hclimit.trans hgbs
  refine ⟨⟨?_, hclimit.le, Nat.le_refl _, by rintro _ ⟨⟩⟩, ⟨hlimit'.ge, hgoi'⟩, hgbs⟩
  rw [hgbs, Log.upTo_congr hgoi', Log.upTo, map_map]
  refine (map_congr_left fun i hi => ?_).trans (map_id _)
  exact h.globalSeq_eq (Nat.lt_of_lt_of_le (mem_range.mp hi) h.limit_le)

theorem step {e : Event} (h : t.Indexed) (hstep : Embarcadero.step P t e = some t') : t'.Indexed ∧ t.Extends t' := by
  cases Topic.seen_of_step hstep with
  | commit _ => exact h.commit
  | updateCommittedSeq n => exact h.updateCommittedSeq n
  | crash n => exact (h.crash n).imp_right And.left
  | same hv => exact h.of_view hv

end Topic.Indexed

structure GOIEntry.Locates (e : GOIEntry) (p : PendingBatch5) : Prop where
  owner : e.brokerId = p.brokerId
  client : e.clientId = p.clientId
  offset : e.blogOffset = p.cachedLogIdx
  size : e.payloadSize = p.cachedTotalSize % 2 ^ 32
  count : e.messageCount = p.numMsg

structure Topic.Filled (es : List Event) (t : Topic) : Prop where
  indexed : t.Indexed
  kept : t.From (ScannedIn es) t.readyVector
  source : ∀ i < t.globalBatchSeq, ∃ p ∈ es.flatMap Event.batchList, p.skipped = false ∧ (t.cxl.goi i).Locates p

namespace Topic.Filled

theorem entries (h : t.Filled es) (hf : t.inFlight = some f) :
    ∀ e ∈ Commit.entries t f, ∃ p ∈ es.flatMap Event.batchList, p.skipped = false ∧ e.Locates p := by
  intro e he
  obtain ⟨p, hp, i, o, n, rfl⟩ := Commit.mem_goiEntries _ he
  obtain ⟨r, hr, hlive, hmeta⟩ := h.kept.batches hf p hp
  refine ⟨r, hr, hlive, ?_⟩
  rw [Commit.goiEntry, hmeta]
  exact ⟨rfl, rfl, rfl, rfl, rfl⟩

theorem commit (h : t.Filled es) (hf : t.inFlight = some f) :
    ∀ i < (t.commit P f).globalBatchSeq, ∃ p ∈ es.flatMap Event.batchList,
      p.skipped = false ∧ ((t.commit P f).cxl.goi i).Locates p := by
  intro i hi
  have hmem : (t.commit P f).cxl.goi i ∈
      Log.upTo (t.commit P f).cxl.goi (t.commit P f).globalBatchSeq := Log.mem_upTo.mpr ⟨i, hi, rfl⟩
  rw [upTo_commit] at hmem
  cases mem_append.mp hmem with
  | inl hold =>
    obtain ⟨j, hj, heq⟩ := Log.mem_upTo.mp hold
    exact heq ▸ h.source j hj
  | inr hnew => exact h.entries hf _ hnew

theorem more {e : Event}
    (h : ∀ i < t'.globalBatchSeq, ∃ p ∈ es.flatMap Event.batchList, p.skipped = false ∧ (t'.cxl.goi i).Locates p) :
    ∀ i < t'.globalBatchSeq, ∃ p ∈ (es ++ [e]).flatMap Event.batchList,
      p.skipped = false ∧ (t'.cxl.goi i).Locates p := by
  intro i hi
  refine (h i hi).imp fun p hp => hp.imp_left fun hmem => ?_
  rw [flatMap_append]
  exact mem_append_left _ hmem

theorem crash (h : t.Filled es) (n : Nat) :
    ∀ i < (t.crash P n).globalBatchSeq, ∃ p ∈ es.flatMap Event.batchList,
      p.skipped = false ∧ ((t.crash P n).cxl.goi i).Locates p := by
  obtain ⟨-, hext, hgbs⟩ := h.indexed.crash (P := P) n
  intro i hi
  rw [hgbs] at hi
  rw [hext.goi i hi]
  exact h.source i (Nat.lt_of_lt_of_le hi h.indexed.limit_le)

theorem step {e : Event} (h : t.Filled es) (hstep : Embarcadero.step P t e = some t') : t'.Filled (es ++ [e]) := by
  refine ⟨(h.indexed.step hstep).1, h.kept.step hstep, ?_⟩
  apply more
  cases Topic.seen_of_step hstep with
  | commit hf => exact h.commit hf
  | updateCommittedSeq n =>
    obtain ⟨s, hs⟩ := t.committedSeqUpdater_cxl n
    rw [hs]
    exact h.source
  | crash n => exact h.crash n
  | same hv =>
    simp only [Topic.view, Prod.mk.injEq] at hv
    rw [hv.1, hv.2.2.1]
    exact h.source

end Topic.Filled

theorem Topic.filled_fresh (P : Platform) : (Topic.fresh P).Filled [] where
  indexed := ⟨rfl, Nat.le_refl _, Nat.le_refl _, nofun⟩
  kept := ⟨nofun, nofun, nofun⟩
  source := nofun

end Embarcadero
