import Embarcadero.Cluster
import Embarcadero.SubscriberOrder

namespace Embarcadero

open List
open Wire

def maxWireBatch (batchSize segmentSize : Nat) : Nat :=
  batchSize + min maxV1PaddedSize (segmentSize - 64 - batchSize)

def validBatchEnvelope (batch : BatchHeader) (maxBytes clientId : Nat) : Bool :=
  batch.clientId = clientId && 0 < batch.totalSize && batch.totalSize ≤ maxBytes &&
    0 < batch.numMsg && batch.numMsg ≤ batch.totalSize / 64

def validateFrame (v2 : Bool) (remaining : List UInt8) : Option Nat :=
  if remaining.length < 64 then none
  else if v2 then
    let size := readField remaining 0 4
    if validV2Payload size && computeStrideV2 size ≤ remaining.length then some (computeStrideV2 size)
    else none
  else
    let paddedSize := readField remaining 0 8
    let nextMsgDiff := readField remaining 24 8
    let size := readField remaining 56 8
    if validV1PaddedSize paddedSize && paddedSize ≤ remaining.length && size ≠ 0 &&
        size ≤ maxMessagePayloadSize && size ≤ paddedSize - headerSize &&
        (nextMsgDiff = 0 || nextMsgDiff = paddedSize) then some paddedSize
    else none

def validateFrames (v2 : Bool) : Nat → List UInt8 → Bool
  | 0, remaining => remaining.isEmpty
  | count + 1, remaining =>
    match validateFrame v2 remaining with
    | none => false
    | some stride => validateFrames v2 count (remaining.drop stride)

def validateBatchBody (bytes : List UInt8) (count : Nat) (v2 : Bool) : Bool :=
  !bytes.isEmpty && count ≠ 0 && count ≤ bytes.length / 64 && validateFrames v2 count bytes

def bodyVersion (v2 : Bool) : Nat := if v2 then headerVersionV2 else headerVersionV1

def exportMetadata (e : GOIEntry) (v2 : Bool) : BatchMetadata :=
  ⟨e.totalOrder, e.messageCount, bodyVersion v2, 0⟩

variable {v2 : Bool} {bytes : List UInt8} {stride count : Nat}

theorem frameStride_of_validateFrame (h : validateFrame v2 bytes = some stride) :
    frameStride (bodyVersion v2) bytes = some stride ∧ stride ≤ bytes.length ∧ headerSize ≤ bytes.length := by
  rw [validateFrame] at h
  split at h
  · cases h
  next hlen =>
    have hhead : headerSize ≤ bytes.length := Nat.not_lt.mp hlen
    split at h
    next hv2 =>
      dsimp only at h
      obtain ⟨hvalid, rfl⟩ := Runs.of_guard h
      rw [Bool.and_eq_true, decide_eq_true_eq] at hvalid
      rw [hv2, bodyVersion, if_pos rfl, frameStride, if_pos rfl]
      exact ⟨if_pos hvalid.1, hvalid.2, hhead⟩
    next hv2 =>
      dsimp only at h
      obtain ⟨hvalid, rfl⟩ := Runs.of_guard h
      simp only [Bool.and_eq_true, decide_eq_true_eq] at hvalid
      rw [bodyVersion, if_neg hv2, frameStride, if_neg (by decide)]
      exact ⟨if_pos hvalid.1.1.1.1.1, hvalid.1.1.1.1.2, hhead⟩

theorem frames_of_validateFrames : ∀ {count : Nat} {bytes : List UInt8},
    validateFrames v2 count bytes = true →
    ∃ frames : List (List UInt8), frames.flatten = bytes ∧ frames.length = count ∧
      ∀ f ∈ frames, frameStride (bodyVersion v2) f = some f.length := by
  intro count
  induction count with
  | zero =>
    intro bytes h
    exact ⟨[], (List.isEmpty_iff.mp h).symm, rfl, fun f hf => absurd hf not_mem_nil⟩
  | succ count ih =>
    intro bytes h
    rw [validateFrames] at h
    split at h
    · cases h
    next stride hframe =>
      obtain ⟨hstride, hle, hhead⟩ := frameStride_of_validateFrame hframe
      obtain ⟨frames, hflat, hcount, hframes⟩ := ih h
      have hlen : (bytes.take stride).length = stride := length_take_of_le hle
      have hfirst : frameStride (bodyVersion v2) (bytes.take stride) = some stride := by
        have hge := (frameStride_bounds hstride).1
        rw [← frameStride_append _ (by rwa [hlen]) (bytes.drop stride), take_append_drop, hstride]
      refine ⟨bytes.take stride :: frames, ?_, ?_, ?_⟩
      · rw [flatten_cons, hflat, take_append_drop]
      · rw [length_cons, hcount]
      · intro f hf
        cases hf with
        | head => rw [hfirst, hlen]
        | tail _ hf => exact hframes f hf

theorem takeFrames_messages (m : BatchMetadata) (fs : List (List UInt8)) (c : ParseCursor) :
    (c.takeFrames m fs).2.length = fs.length ∧
      ∀ item ∈ (c.takeFrames m fs).2, ∃ order msg, item = .message order msg := by
  induction fs generalizing c with
  | nil => exact ⟨rfl, fun item h => absurd h not_mem_nil⟩
  | cons f fs ih =>
    obtain ⟨hlen, hall⟩ := ih (c.takeFrame m f).1
    refine ⟨congrArg Nat.succ hlen, fun item hitem => ?_⟩
    cases hitem with
    | head => exact ⟨_, _, rfl⟩
    | tail _ h => exact hall item h

/-- Within the subscriber's limits an admitted batch passes the scanner and is parsed as exactly its
frames, whatever was parsed before. -/
theorem admitted_batch_deliverable {batch : BatchHeader} {maxBytes clientId : Nat} {e : GOIEntry}
    (henvelope : validBatchEnvelope batch maxBytes clientId = true)
    (hbody : validateBatchBody bytes batch.numMsg v2 = true) (hentry : e.messageCount = batch.numMsg) :
    (batch.published.batchReady = true ∧ (exportMetadata e v2).accepted = true ∧
      ∀ {c : ParseCursor}, c.pendingMetadata = none → ∃ c' items, c'.pendingMetadata = none ∧
          parseContiguous c ((exportMetadata e v2).encode ++ bytes) = (c', items, []) ∧
          items.length = batch.numMsg ∧ ∀ item ∈ items, ∃ order msg, item = .message order msg) ↔
      batch.numMsg ≤ maxBatchMessages ∧ e.totalOrder < maxBatchTotalOrder := by
  simp only [validBatchEnvelope, Bool.and_eq_true, decide_eq_true_eq] at henvelope
  simp only [validateBatchBody, Bool.and_eq_true] at hbody
  have hpos : 0 < batch.numMsg := henvelope.1.2
  constructor
  · rintro ⟨-, haccepted, -⟩
    obtain ⟨-, -, hcount, horder⟩ := accepted_iff.mp haccepted
    exact ⟨hentry.symm.trans_le hcount, horder⟩
  rintro ⟨hcount, horder⟩
  have hready : batch.numMsg ≤ maxReasonableNumMsg := Nat.le_trans hcount (by decide)
  have haccepted : (exportMetadata e v2).accepted = true := by
    refine accepted_iff.mpr ⟨?_, hpos.trans_eq hentry.symm, hentry.trans_le hcount, horder⟩
    cases v2 with
    | false => exact .inl rfl
    | true => exact .inr rfl
  refine ⟨?_, haccepted, fun {c} hc => ?_⟩
  · simp only [BatchHeader.batchReady, BatchHeader.published, BatchHeader.publishCommitted,
      BatchHeader.publication, beq_self_eq_true, Bool.true_and]
    exact decide_eq_true ⟨hpos, hready⟩
  · obtain ⟨frames, hflat, hlen, hframes⟩ := frames_of_validateFrames hbody.2
    have hwf : (ExportedBatch.mk (exportMetadata e v2) frames).WellFormed :=
      ⟨haccepted, Nat.two_pow_pos 16, hlen.trans hentry.symm, hframes⟩
    have hall : ∀ b ∈ [ExportedBatch.mk (exportMetadata e v2) frames], b.WellFormed :=
      fun b hb => mem_singleton.mp hb ▸ hwf
    obtain ⟨c', hc', hdecode⟩ := ExportedBatch.decode_encodeAll hall hc
    simp only [ExportedBatch.encodeAll, flatMap_singleton, ExportedBatch.encode, hflat] at hdecode
    have hmessages := takeFrames_messages (exportMetadata e v2) frames ⟨some (exportMetadata e v2), 0, e.totalOrder⟩
    exact ⟨c', _, hc', hdecode, hmessages.1.trans hlen, hmessages.2⟩

def oneFrameBatch : BatchHeader := { clientId := 3, numMsg := 1, totalSize := 128 }

theorem admitted_batch_deliverable_oneFrameBatch :
    validBatchEnvelope oneFrameBatch (maxWireBatch (2 ^ 21) (2 ^ 31)) 3 = true ∧
      validateBatchBody (smallFrame 7) 1 true = true ∧
      (exportMetadata { totalOrder := 99999999, messageCount := 1 } true).accepted = true :=
  have henvelope : validBatchEnvelope oneFrameBatch (maxWireBatch (2 ^ 21) (2 ^ 31)) 3 = true := by decide
  have hbody : validateBatchBody (smallFrame 7) oneFrameBatch.numMsg true = true := by decide +kernel
  ⟨henvelope, hbody, ((admitted_batch_deliverable (e := { totalOrder := 99999999, messageCount := 1 })
    henvelope hbody rfl).mpr ⟨by decide, by decide⟩).2.1⟩

theorem validateFrame_smallFrame (x : UInt8) (rest : List UInt8) :
    validateFrame true (smallFrame x ++ rest) = some (smallFrame x).length := by
  have hlen : (smallFrame x ++ rest).length = 128 + rest.length := by
    rw [length_append, length_smallFrame]
  have hsize : readField (smallFrame x ++ rest) 0 4 = 1 := by
    rw [readField_append (by rw [length_smallFrame]; decide), size_smallFrame]
  have hfits : (validV2Payload 1 && decide (computeStrideV2 1 ≤ 128 + rest.length)) = true := by
    rw [Bool.and_eq_true, decide_eq_true_eq]
    exact ⟨rfl, Nat.le_add_right 128 _⟩
  rw [validateFrame, hlen, if_neg (by omega), if_pos rfl, hsize]
  dsimp only
  rw [if_pos hfits, length_smallFrame]
  rfl

theorem validateFrames_smallFrames (xs : List UInt8) :
    validateFrames true xs.length (xs.flatMap smallFrame) = true := by
  induction xs with
  | nil => rfl
  | cons x xs ih =>
    rw [flatMap_cons, length_cons, validateFrames, validateFrame_smallFrame]
    dsimp only
    rwa [drop_left]

theorem length_flatMap_smallFrame (xs : List UInt8) : (xs.flatMap smallFrame).length = 128 * xs.length := by
  induction xs with
  | nil => rfl
  | cons x xs ih =>
    rw [flatMap_cons, length_append, ih, length_smallFrame, length_cons]
    omega

theorem validateBatchBody_smallFrames (xs : List UInt8) (h : 0 < xs.length) :
    validateBatchBody (xs.flatMap smallFrame) xs.length true = true := by
  have hlen := length_flatMap_smallFrame xs
  have hne : xs.flatMap smallFrame ≠ [] := ne_nil_of_length_pos (by omega)
  simp only [validateBatchBody, Bool.and_eq_true, Bool.not_eq_true', isEmpty_eq_false_iff, decide_eq_true_eq]
  exact ⟨⟨⟨hne, Nat.ne_of_gt h⟩, by omega⟩, validateFrames_smallFrames xs⟩

def manyFramesBatch : BatchHeader := { clientId := 3, numMsg := 10001, totalSize := 1280128 }

/-- Admitted batches the subscriber rejects: at total order 100000000 whatever the batch is, and at
any total order if the batch has more than 10000 messages. -/
theorem admitted_batch_rejected :
    (validBatchEnvelope oneFrameBatch (maxWireBatch (2 ^ 21) (2 ^ 31)) 3 = true ∧
      validateBatchBody (smallFrame 7) oneFrameBatch.numMsg true = true ∧
      oneFrameBatch.published.batchReady = true ∧
      (exportMetadata { totalOrder := 100000000, messageCount := 1 } true).accepted = false ∧
      .error ∈ (parseContiguous {} ((exportMetadata { totalOrder := 100000000, messageCount := 1 } true).encode ++
          smallFrame 7)).2.1) ∧
    (validBatchEnvelope manyFramesBatch (maxWireBatch (2 ^ 21) (2 ^ 31)) 3 = true ∧
      validateBatchBody ((List.replicate 10001 7).flatMap smallFrame) manyFramesBatch.numMsg true = true ∧
      manyFramesBatch.published.batchReady = true ∧
      ∀ totalOrder, (exportMetadata { totalOrder, messageCount := 10001 } true).accepted = false) := by
  refine ⟨⟨by decide, by decide +kernel, by decide, by decide, by decide +kernel⟩, by decide, ?_, by decide, ?_⟩
  · have h := validateBatchBody_smallFrames (List.replicate 10001 7) (by rw [length_replicate]; decide)
    rwa [length_replicate] at h
  · intro totalOrder
    rw [Bool.eq_false_iff, ne_eq, accepted_iff]
    rintro ⟨-, -, hle, -⟩
    exact absurd hle (show ¬10001 ≤ maxBatchMessages by decide)

end Embarcadero
