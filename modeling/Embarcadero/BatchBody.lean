import Embarcadero.BatchLimits

namespace Embarcadero

open List
open Wire

def align64Word (size : Nat) : Nat := (size + 63) % 2 ^ 64 / 64 * 64

def strideV2Word (payloadSize : Nat) : Nat := align64Word ((headerSize + payloadSize) % 2 ^ 64)

def validateV1PaddedSize (paddedSize remainingBytes : Nat) : Bool :=
  headerSize ≤ paddedSize && paddedSize ≤ maxV1PaddedSize && paddedSize % 64 = 0 && paddedSize ≤ remainingBytes

def validateV2Payload (payloadSize remainingBytes : Nat) : Bool :=
  0 < payloadSize && payloadSize ≤ maxMessagePayloadSize && strideV2Word payloadSize ≤ remainingBytes

def subWord (a b : Nat) : Nat := (a + 2 ^ 64 - b) % 2 ^ 64

def copyHeader (buffer : List UInt8) (cursor : Nat) : Option (List UInt8) :=
  if cursor + headerSize ≤ buffer.length then some ((buffer.drop cursor).take headerSize) else none

def checkHeader (v2 : Bool) (header : List UInt8) (remaining : Nat) : Option Nat :=
  if v2 then
    let size := readField header 0 4
    if validateV2Payload size remaining then some (strideV2Word size) else none
  else
    let paddedSize := readField header 0 8
    let nextMsgDiff := readField header 24 8
    let size := readField header 56 8
    if !validateV1PaddedSize paddedSize remaining then none
    else if size = 0 ∨ maxMessagePayloadSize < size ∨ subWord paddedSize headerSize < size ∨
        (nextMsgDiff ≠ 0 ∧ nextMsgDiff ≠ paddedSize) then none
    else some paddedSize

def walkBody (v2 : Bool) (buffer : List UInt8) : Nat → Nat → Nat → Option Bool
  | 0, _, remaining => some (remaining = 0)
  | count + 1, cursor, remaining =>
    if remaining < 64 then some false
    else
      (copyHeader buffer cursor).bind fun header =>
        match checkHeader v2 header remaining with
        | none => some false
        | some stride => walkBody v2 buffer count (cursor + stride) (subWord remaining stride)

def validateBatchBodyWords (buffer : Option (List UInt8)) (bytes count : Nat) (v2 : Bool) : Option Bool :=
  match buffer with
  | none => some false
  | some buffer =>
    if bytes = 0 ∨ count = 0 ∨ bytes / 64 < count then some false else walkBody v2 buffer count 0 bytes

def WellFormedFrame (v2 : Bool) (frame : List UInt8) : Prop :=
  frame.length % 64 = 0 ∧
    if v2 then
      let size := readField frame 0 4
      0 < size ∧ size ≤ maxMessagePayloadSize ∧ headerSize + size ≤ frame.length ∧
        frame.length < headerSize + size + 64
    else
      let size := readField frame 56 8
      let nextMsgDiff := readField frame 24 8
      0 < size ∧ size ≤ maxMessagePayloadSize ∧ headerSize + size ≤ frame.length ∧
        frame.length ≤ maxV1PaddedSize ∧ readField frame 0 8 = frame.length ∧
        (nextMsgDiff = 0 ∨ nextMsgDiff = frame.length)

def SplitsInto (v2 : Bool) (count : Nat) (body : List UInt8) : Prop :=
  ∃ frames : List (List UInt8), frames.length = count ∧ frames.flatten = body ∧ ∀ f ∈ frames, WellFormedFrame v2 f

variable {v2 : Bool} {buffer bytes frame rest : List UInt8} {stride count cursor remaining : Nat}

theorem strideV2Word_eq {size : Nat} (h : size ≤ maxMessagePayloadSize) : strideV2Word size = computeStrideV2 size := by
  have hmax : maxMessagePayloadSize = 1048576 := rfl
  rw [strideV2Word, align64Word, computeStrideV2, align64, headerSize, Nat.mod_eq_of_lt (by omega),
    Nat.mod_eq_of_lt (by omega)]

theorem subWord_eq {a b : Nat} (ha : a < 2 ^ 64) (h : b ≤ a) : subWord a b = a - b := by
  rw [subWord, show a + 2 ^ 64 - b = a - b + 2 ^ 64 by omega, Nat.add_mod_right, Nat.mod_eq_of_lt (by omega)]

theorem readField_take {offset w n : Nat} (h : offset + w ≤ n) (hn : n ≤ bytes.length) :
    readField (bytes.take n) offset w = readField bytes offset w := by
  have hlength : offset + w ≤ (bytes.take n).length := by rwa [length_take_of_le hn]
  have happend := readField_append hlength (bytes.drop n)
  rw [take_append_drop] at happend
  exact happend.symm

theorem checkV1_eq (paddedSize nextMsgDiff size remaining : Nat) :
    (if !validateV1PaddedSize paddedSize remaining then none
      else if size = 0 ∨ maxMessagePayloadSize < size ∨ subWord paddedSize headerSize < size ∨
        (nextMsgDiff ≠ 0 ∧ nextMsgDiff ≠ paddedSize) then none
      else some paddedSize) =
    if validV1PaddedSize paddedSize && paddedSize ≤ remaining && size ≠ 0 && size ≤ maxMessagePayloadSize &&
        size ≤ paddedSize - headerSize && (nextMsgDiff = 0 || nextMsgDiff = paddedSize) then some paddedSize
    else none := by
  have hsplit : validateV1PaddedSize paddedSize remaining =
      (validV1PaddedSize paddedSize && decide (paddedSize ≤ remaining)) := rfl
  rw [hsplit]
  cases hpadded : validV1PaddedSize paddedSize && decide (paddedSize ≤ remaining) with
  | false => rfl
  | true =>
    have hsub : subWord paddedSize headerSize = paddedSize - headerSize := by
      simp only [validV1PaddedSize, Bool.and_eq_true, decide_eq_true_eq] at hpadded
      have hmax : maxV1PaddedSize = 1048640 := rfl
      exact subWord_eq (by omega) hpadded.1.1.1
    rw [hsub]
    simp only [Bool.not_true, Bool.false_eq_true, if_false, Bool.true_and, Bool.and_eq_true, Bool.or_eq_true,
      decide_eq_true_eq]
    by_cases hbad : size = 0 ∨ maxMessagePayloadSize < size ∨ paddedSize - headerSize < size ∨
        (nextMsgDiff ≠ 0 ∧ nextMsgDiff ≠ paddedSize)
    · rw [if_pos hbad, if_neg (by omega)]
    · rw [if_neg hbad, if_pos (by omega)]

theorem checkHeader_take (hhead : headerSize ≤ bytes.length) :
    checkHeader v2 (bytes.take headerSize) bytes.length = validateFrame v2 bytes := by
  have hshort : ¬bytes.length < 64 := Nat.not_lt.mpr hhead
  have hfield : ∀ offset w, offset + w ≤ headerSize →
      readField (bytes.take headerSize) offset w = readField bytes offset w := fun _ _ h => readField_take h hhead
  rw [checkHeader, validateFrame, if_neg hshort]
  cases v2 with
  | true =>
    simp only [if_true]
    rw [hfield 0 4 (by decide)]
    by_cases hsize : readField bytes 0 4 ≤ maxMessagePayloadSize
    · rw [validateV2Payload, validV2Payload, strideV2Word_eq hsize]
    · simp [validateV2Payload, validV2Payload, hsize]
  | false =>
    simp only [Bool.false_eq_true, if_false]
    rw [hfield 0 8 (by decide), hfield 24 8 (by decide), hfield 56 8 (by decide)]
    exact checkV1_eq _ _ _ _

theorem walkBody_eq (v2 : Bool) (hbuffer : buffer.length < 2 ^ 64) : ∀ count cursor, cursor ≤ buffer.length →
    walkBody v2 buffer count cursor (buffer.length - cursor) = some (validateFrames v2 count (buffer.drop cursor)) := by
  intro count
  induction count with
  | zero =>
    intro cursor hcursor
    rw [walkBody, validateFrames, ← length_drop]
    cases buffer.drop cursor with
    | nil => rfl
    | cons b bs => rfl
  | succ count ih =>
    intro cursor hcursor
    have hlength : (buffer.drop cursor).length = buffer.length - cursor := length_drop ..
    rw [walkBody, validateFrames]
    split
    next hshort => rw [validateFrame, if_pos (by omega)]
    rename_i hlong
    have hcopy : copyHeader buffer cursor = some ((buffer.drop cursor).take headerSize) :=
      if_pos (by rw [headerSize]; omega)
    rw [hcopy, Option.bind_some, ← hlength, checkHeader_take (by rw [hlength, headerSize]; omega)]
    cases hframe : validateFrame v2 (buffer.drop cursor) with
    | none => rfl
    | some stride =>
      have hle := (frameStride_of_validateFrame hframe).2.1
      dsimp only
      rw [hlength] at hle ⊢
      rw [subWord_eq (by omega) hle, Nat.sub_sub, ih (cursor + stride) (by omega), drop_drop]

theorem WellFormedFrame.headerSize_le (h : WellFormedFrame v2 frame) : headerSize ≤ frame.length := by
  cases v2 with
  | true => exact (Nat.le_add_right _ _).trans h.2.2.2.1
  | false => exact (Nat.le_add_right _ _).trans h.2.2.2.1

theorem validateFrame_append (h : WellFormedFrame v2 frame) (rest : List UInt8) :
    validateFrame v2 (frame ++ rest) = some frame.length := by
  have hhead := h.headerSize_le
  obtain ⟨hmod, hfields⟩ := h
  have hfield : ∀ offset w, offset + w ≤ headerSize →
      readField (frame ++ rest) offset w = readField frame offset w := fun _ _ h =>
    readField_append (h.trans hhead) rest
  have hlength : (frame ++ rest).length = frame.length + rest.length := length_append
  have hshort : ¬(frame ++ rest).length < 64 := by
    rw [headerSize] at hhead
    omega
  rw [validateFrame, if_neg hshort]
  cases v2 with
  | true =>
    obtain ⟨hpos, hmax, hge, hlt⟩ := hfields
    have hstride : computeStrideV2 (readField frame 0 4) = frame.length := by
      rw [computeStrideV2, align64]
      omega
    simp only [if_true, hfield 0 4 (by decide), hstride]
    refine if_pos ?_
    simp only [validV2Payload, Bool.and_eq_true, decide_eq_true_eq]
    omega
  | false =>
    obtain ⟨hpos, hmax, hge, hle, hpadded, hnext⟩ := hfields
    simp only [Bool.false_eq_true, if_false, hfield 0 8 (by decide), hfield 24 8 (by decide),
      hfield 56 8 (by decide), hpadded]
    refine if_pos ?_
    simp only [validV1PaddedSize, Bool.and_eq_true, Bool.or_eq_true, decide_eq_true_eq]
    omega

theorem wellFormed_take (h : validateFrame v2 bytes = some stride) :
    stride ≤ bytes.length ∧ WellFormedFrame v2 (bytes.take stride) := by
  obtain ⟨hstride, hle, -⟩ := frameStride_of_validateFrame h
  have hhead := (frameStride_bounds hstride).1
  have hlength : (bytes.take stride).length = stride := length_take_of_le hle
  have hfield : ∀ offset w, offset + w ≤ headerSize →
      readField (bytes.take stride) offset w = readField bytes offset w := fun _ _ h =>
        readField_take (h.trans hhead) hle
  rw [validateFrame] at h
  split at h
  · cases h
  refine ⟨hle, ?_⟩
  rw [WellFormedFrame, hlength, hfield 0 4 (by decide), hfield 0 8 (by decide), hfield 24 8 (by decide),
    hfield 56 8 (by decide)]
  cases v2 with
  | true =>
    obtain ⟨hvalid, heq⟩ := Option.ite_none_right_eq_some.mp h
    cases heq
    simp only [validV2Payload, computeStrideV2, align64, Bool.and_eq_true, decide_eq_true_eq, if_true] at hvalid ⊢
    omega
  | false =>
    obtain ⟨hvalid, heq⟩ := Option.ite_none_right_eq_some.mp h
    have hstride := Option.some.inj heq
    simp only [validV1PaddedSize, Bool.and_eq_true, Bool.or_eq_true, decide_eq_true_eq, Bool.false_eq_true,
      if_false] at hvalid ⊢
    omega

theorem validateFrames_iff : ∀ {count : Nat} {bytes : List UInt8},
    validateFrames v2 count bytes = true ↔ SplitsInto v2 count bytes := by
  intro count
  induction count with
  | zero =>
    intro bytes
    rw [validateFrames, List.isEmpty_iff]
    constructor
    · intro hnil
      exact ⟨[], rfl, hnil.symm, forall_mem_nil _⟩
    · rintro ⟨frames, hlength, hflat, -⟩
      rw [← hflat, eq_nil_of_length_eq_zero hlength]
      rfl
  | succ count ih =>
    intro bytes
    constructor
    · intro h
      rw [validateFrames] at h
      split at h
      · cases h
      rename_i stride hframe
      obtain ⟨hle, hwf⟩ := wellFormed_take hframe
      obtain ⟨frames, hlength, hflat, hframes⟩ := ih.mp h
      refine ⟨bytes.take stride :: frames, congrArg Nat.succ hlength, ?_, ?_⟩
      · rw [flatten_cons, hflat, take_append_drop]
      · exact forall_mem_cons.mpr ⟨hwf, hframes⟩
    · rintro ⟨frames, hlength, hflat, hframes⟩
      cases frames with
      | nil => cases hlength
      | cons frame frames =>
        obtain ⟨hwf, hframes⟩ := forall_mem_cons.mp hframes
        rw [← hflat, flatten_cons, validateFrames, validateFrame_append hwf]
        dsimp only
        rw [drop_left]
        exact ih.mpr ⟨frames, Nat.succ.inj hlength, rfl, hframes⟩

theorem SplitsInto.le_length (h : SplitsInto v2 count bytes) : count * 64 ≤ bytes.length := by
  obtain ⟨frames, rfl, rfl, hframes⟩ := h
  induction frames with
  | nil => exact Nat.le_refl _
  | cons frame frames ih =>
    obtain ⟨hwf, hframes⟩ := forall_mem_cons.mp hframes
    have hrest := ih hframes
    have hhead := hwf.headerSize_le
    rw [flatten_cons, length_append, length_cons]
    rw [headerSize] at hhead
    omega

/-- `ValidateBatchBody` reads inside the buffer only, and accepts exactly the bodies of at least one frame that
consist of as many well-formed frames as declared. -/
theorem validate_batch_body_exact (buffer : List UInt8) (count : Nat) (v2 : Bool) (hbuffer : buffer.length < 2 ^ 64) :
    ∃ accepted, validateBatchBodyWords (some buffer) buffer.length count v2 = some accepted ∧
      (accepted = true ↔ 0 < count ∧ SplitsInto v2 count buffer) := by
  rw [validateBatchBodyWords]
  split
  next hrefused =>
    refine ⟨false, rfl, nofun, fun ⟨hpos, hsplits⟩ => ?_⟩
    have hle := hsplits.le_length
    omega
  next hentered =>
    have hwalk := walkBody_eq v2 hbuffer count 0 (Nat.zero_le _)
    rw [Nat.sub_zero, drop_zero] at hwalk
    refine ⟨_, hwalk, ?_⟩
    rw [validateFrames_iff]
    exact ⟨fun h => ⟨by omega, h⟩, And.right⟩

theorem validate_batch_body_exact_twoFrames :
    validateBatchBodyWords (some (smallFrame 7 ++ smallFrame 8)) 256 2 true = some true ∧
      SplitsInto true 2 (smallFrame 7 ++ smallFrame 8) := by
  have hlength : (smallFrame 7 ++ smallFrame 8).length = 256 := by
    rw [length_append, length_smallFrame, length_smallFrame]
  have hwalk : validateBatchBodyWords (some (smallFrame 7 ++ smallFrame 8)) 256 2 true = some true := by
    decide +kernel
  obtain ⟨accepted, haccepted, hiff⟩ :=
    validate_batch_body_exact (smallFrame 7 ++ smallFrame 8) 2 true (by rw [hlength]; decide)
  rw [hlength, hwalk] at haccepted
  exact ⟨hwalk, (hiff.mp (Option.some.inj haccepted).symm).2⟩

theorem empty_batch_body_refused : SplitsInto true 0 [] ∧ validateBatchBodyWords (some []) 0 0 true = some false :=
  ⟨⟨[], rfl, rfl, nofun⟩, rfl⟩

end Embarcadero
