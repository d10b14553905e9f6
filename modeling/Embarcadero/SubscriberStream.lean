import Embarcadero.Subscriber

namespace Embarcadero

open List
open Wire

variable {c : ParseCursor} {carry input bytes : List UInt8}

variable {m : BatchMetadata} {w : Nat}

theorem readField_append {offset : Nat} (h : offset + w ≤ bytes.length) (ys : List UInt8) :
    readField (bytes ++ ys) offset w = readField bytes offset w := by
  rw [readField, readField, drop_append_of_le_length (by omega),
    take_append_of_le_length (by rw [length_drop]; omega)]

theorem readBatchMetadata_append (h : batchMetadataSize ≤ bytes.length) (ys : List UInt8) :
    readBatchMetadata (bytes ++ ys) = readBatchMetadata bytes := by
  rw [batchMetadataSize] at h
  simp only [readBatchMetadata, readField_append (show 0 + 8 ≤ bytes.length by omega),
    readField_append (show 8 + 4 ≤ bytes.length by omega), readField_append (show 12 + 2 ≤ bytes.length by omega),
    readField_append (show 14 + 2 ≤ bytes.length by omega)]

theorem frameStride_append (version : Nat) (h : headerSize ≤ bytes.length) (ys : List UInt8) :
    frameStride version (bytes ++ ys) = frameStride version bytes := by
  rw [headerSize] at h
  simp only [frameStride, readField_append (show 0 + 4 ≤ bytes.length by omega),
    readField_append (show 0 + 8 ≤ bytes.length by omega)]

theorem align64_le (n : Nat) : align64 n ≤ n + 63 := Nat.div_mul_le_self (n + 63) 64

theorem le_align64 (n : Nat) : n ≤ align64 n := by
  rw [align64]
  omega

theorem frameStride_bounds {version stride : Nat} (h : frameStride version bytes = some stride) :
    headerSize ≤ stride ∧ stride ≤ maxStreamBufferBytes := by
  rw [frameStride] at h
  split at h
  · dsimp only at h
    obtain ⟨hvalid, rfl⟩ := Runs.of_guard h
    rw [validV2Payload, Bool.and_eq_true, decide_eq_true_eq, decide_eq_true_eq, maxMessagePayloadSize] at hvalid
    have hle := le_align64 (headerSize + readField bytes 0 4)
    have hge := align64_le (headerSize + readField bytes 0 4)
    rw [computeStrideV2, maxStreamBufferBytes]
    rw [headerSize] at *
    omega
  · dsimp only at h
    obtain ⟨hvalid, rfl⟩ := Runs.of_guard h
    rw [validV1PaddedSize, Bool.and_eq_true, Bool.and_eq_true, decide_eq_true_eq, decide_eq_true_eq] at hvalid
    have hge := align64_le (headerSize + maxMessagePayloadSize)
    have hmax : maxMessagePayloadSize = 1048576 := rfl
    have hpad := hvalid.1.2
    rw [maxV1PaddedSize] at hpad
    refine ⟨hvalid.1.1, ?_⟩
    rw [maxStreamBufferBytes]
    rw [headerSize] at *
    omega

theorem lawful_parseNext : Decoder.Lawful parseNext where
  consumes {c bytes c' out n} h := by
    rw [parseNext] at h
    split at h
    · split at h
      · cases h
      next hlen =>
        rw [batchMetadataSize] at hlen
        dsimp only at h
        split at h
        · cases h
          exact ⟨by decide, Nat.not_lt.mp hlen⟩
        · cases h
          omega
    · split at h
      · cases h
      next hlen =>
        rw [headerSize] at hlen
        split at h
        · cases h
          omega
        next stride hstride =>
          split at h
          · cases h
          · cases h
            have hbound := (frameStride_bounds hstride).1
            rw [headerSize] at hbound
            omega
  stable {c bytes r} h ys := by
    rw [parseNext] at h ⊢
    split at h
    · split at h
      · cases h
      next hpend hlen =>
        rw [if_neg (by rw [length_append]; omega)]
        dsimp only
        rw [readBatchMetadata_append (Nat.not_lt.mp hlen)]
        exact h
    · split at h
      · cases h
      next hpend hlen =>
        rw [if_neg (by rw [length_append]; omega), frameStride_append _ (Nat.not_lt.mp hlen)]
        split at h
        · exact h
        next stride hstride =>
          split at h
          · cases h
          next hfit =>
            dsimp only
            rw [if_neg (by rw [length_append]; omega), take_append_of_le_length (Nat.not_lt.mp hfit)]
            exact h

theorem waiting_bound (h : parseNext c bytes = none) :
    bytes.length < maxStreamBufferBytes ∧ 0 < carryBytesNeeded c bytes ∧
      bytes.length + carryBytesNeeded c bytes ≤ maxStreamBufferBytes := by
  have hmax : maxStreamBufferBytes = 2097152 := rfl
  have hmeta : batchMetadataSize = 16 := rfl
  have hhead : headerSize = 64 := rfl
  rw [parseNext] at h
  rw [carryBytesNeeded]
  split at h
  · split at h
    · omega
    · dsimp only at h
      split at h
      · cases h
      · cases h
  · split at h
    next hlen =>
      rw [if_pos hlen]
      omega
    next hlen =>
      rw [if_neg hlen]
      split at h
      · cases h
      next stride hstride =>
        have hbound := (frameStride_bounds hstride).2
        split at h
        · omega
        · cases h

theorem appendCarry_eq (h : carry.length + input.length ≤ maxStreamBufferBytes) :
    appendCarry carry input = some (carry ++ input) := if_neg (by omega)

theorem completeCarry_eq (fuel : Nat) : ∀ (c : ParseCursor) (carry input : List UInt8)
    (items : List Parsed), 2 * input.length + carry.length < fuel →
    ∃ c' carry' input' found,
      completeCarry fuel c carry input items = some (c', carry', input', items ++ found) ∧
      (carry' = [] ∨ input' = []) ∧
      Decoder.decode parseNext c (carry ++ input) = ((Decoder.decode parseNext c' (carry' ++ input')).1,
          found ++ (Decoder.decode parseNext c' (carry' ++ input')).2.1,
          (Decoder.decode parseNext c' (carry' ++ input')).2.2) := by
  induction fuel with
  | zero => exact fun _ _ _ _ h => absurd h (Nat.not_lt_zero _)
  | succ fuel ih =>
    intro c carry input items hfuel
    rw [completeCarry]
    split
    next hempty => exact ⟨c, carry, input, [], by rw [append_nil], hempty, rfl⟩
    next hempty =>
      rw [not_or] at hempty
      have happ := Decoder.decode_append lawful_parseNext c carry input
      have hsuffix := Decoder.suffix_decode lawful_parseNext c carry
      have hwait := Decoder.next_decode lawful_parseNext c carry
      dsimp only [parseContiguous]
      generalize Decoder.decode parseNext c carry = d at happ hsuffix hwait ⊢
      obtain ⟨c₁, out, rest⟩ := d
      dsimp only at happ hsuffix hwait ⊢
      split
      next hrest =>
        rw [hrest] at happ
        exact ⟨_, [], input, _, rfl, .inl rfl, happ⟩
      · split
        next hrest hlt =>
          obtain ⟨c', carry', input', found, heq, hdone, hdecode⟩ := ih c₁ rest input (items ++ out) (by omega)
          refine ⟨c', carry', input', out ++ found, heq.trans (by rw [append_assoc]), hdone, ?_⟩
          rw [happ, hdecode, append_assoc]
        next hrest hlt =>
          -- nothing was consumed, so the parser is waiting
          have hsame : rest = carry := hsuffix.eq_of_length_le (Nat.not_lt.mp hlt)
          rw [hsame] at hwait happ
          obtain ⟨hbound, hneed, hfit⟩ := waiting_bound hwait
          have hlen : 0 < input.length := length_pos_of_ne_nil hempty.2
          rw [if_neg (Nat.ne_of_gt hneed)]
          generalize htake : min (carryBytesNeeded c₁ carry) input.length = take
          rw [appendCarry_eq (by rw [length_take]; omega)]
          obtain ⟨c', carry', input', found, heq, hdone, hdecode⟩ := ih c₁
            (carry ++ input.take take) (input.drop take) (items ++ out)
            (by rw [length_append, length_take, length_drop]; omega)
          refine ⟨c', carry', input', out ++ found, heq.trans (by rw [append_assoc]), hdone, ?_⟩
          rw [append_assoc, take_append_drop] at hdecode
          rw [happ, hdecode, append_assoc]

theorem StreamParseState.parse_eq (st : StreamParseState) (data : List UInt8) :
    st.parse data =
      some (⟨(Decoder.decode parseNext st.cursor (st.carry ++ data)).1,
        (Decoder.decode parseNext st.cursor (st.carry ++ data)).2.2⟩,
        (Decoder.decode parseNext st.cursor (st.carry ++ data)).2.1) := by
  have hrest : ∀ c bytes, (Decoder.decode parseNext c bytes).2.2.length < maxStreamBufferBytes :=
    fun c bytes => (waiting_bound (Decoder.next_decode lawful_parseNext c bytes)).1
  have happend : ∀ c bytes, appendCarry [] (Decoder.decode parseNext c bytes).2.2 =
      some (Decoder.decode parseNext c bytes).2.2 := by
    intro c bytes
    have := hrest c bytes
    exact appendCarry_eq (by rw [length_nil]; omega)
  rw [StreamParseState.parse]
  split
  · obtain ⟨c', carry', input', found, heq, hdone, hdecode⟩ := completeCarry_eq
      (2 * data.length + st.carry.length + 1) st.cursor st.carry data [] (Nat.lt_succ_self _)
    rw [heq, hdecode]
    simp only [Option.bind_eq_bind, Option.bind_some, nil_append, parseContiguous]
    split
    next hcase =>
      rw [hcase.2, append_nil]
      rfl
    · split
      next hcase =>
        rw [hcase.1, nil_append, happend]
        rfl
      next hcarry hinput =>
        -- both are used up
        have hboth : carry' = [] ∧ input' = [] := by
          cases hdone with
          | inl hc => exact ⟨hc, by_contra fun hi => hinput ⟨hc, hi⟩⟩
          | inr hi => exact ⟨by_contra fun hc => hcarry ⟨hc, hi⟩, hi⟩
        rw [hboth.1, hboth.2]
        exact congrArg some (Prod.ext rfl (append_nil _).symm)
  next hcarry =>
    rw [not_not.mp hcarry, nil_append]
    dsimp only [parseContiguous]
    rw [if_neg (Nat.not_lt.mpr (Nat.le_of_lt (hrest _ _))), happend]
    rfl

structure ExportedBatch where
  metadata : BatchMetadata
  frames : List (List UInt8)

namespace ExportedBatch

def encode (b : ExportedBatch) : List UInt8 := b.metadata.encode ++ b.frames.flatten

def encodeAll (bs : List ExportedBatch) : List UInt8 := bs.flatMap encode

structure WellFormed (b : ExportedBatch) : Prop where
  accepted : b.metadata.accepted = true
  flags : b.metadata.flags < 2 ^ 16
  count : b.frames.length = b.metadata.numMessages
  frame : ∀ f ∈ b.frames, frameStride b.metadata.headerVersion f = some f.length

end ExportedBatch

@[simp] theorem Wire.BatchMetadata.length_encode (m : BatchMetadata) : m.encode.length = batchMetadataSize := by
  simp [BatchMetadata.encode, batchMetadataSize]

theorem readField_encode (xs ys : List UInt8) {v : Nat} (h : v < 256 ^ w) :
    readField (xs ++ (LittleEndian.encode w v ++ ys)) xs.length w = v := by
  have htake : (LittleEndian.encode w v ++ ys).take w = LittleEndian.encode w v := by
    rw [take_append_of_le_length (by rw [LittleEndian.length_encode]), take_of_length_le
      (by rw [LittleEndian.length_encode])]
  rw [readField, drop_left, htake, LittleEndian.decode_encode, Nat.mod_eq_of_lt h]

theorem accepted_iff : m.accepted = true ↔
    (m.headerVersion = headerVersionV1 ∨ m.headerVersion = headerVersionV2) ∧ 0 < m.numMessages ∧
      m.numMessages ≤ maxBatchMessages ∧ m.batchTotalOrder < maxBatchTotalOrder := by
  simp only [BatchMetadata.accepted, isValidHeaderVersion, Bool.and_eq_true, Bool.or_eq_true,
    decide_eq_true_eq, and_assoc]

structure Wire.BatchMetadata.Encodable (m : BatchMetadata) : Prop where
  batchTotalOrder : m.batchTotalOrder < 2 ^ 64
  numMessages : m.numMessages < 2 ^ 32
  headerVersion : m.headerVersion < 2 ^ 16
  flags : m.flags < 2 ^ 16

theorem encodable_of_accepted (h : m.accepted = true) (hf : m.flags < 2 ^ 16) : m.Encodable := by
  obtain ⟨hv, hpos, hn, ho⟩ := accepted_iff.mp h
  rw [maxBatchMessages] at hn
  rw [maxBatchTotalOrder] at ho
  rw [headerVersionV1, headerVersionV2] at hv
  exact ⟨by omega, by omega, by omega, hf⟩

theorem readBatchMetadata_encode (h : m.Encodable) : readBatchMetadata m.encode = m := by
  obtain ⟨ho, hn, hv, hf⟩ := h
  have h0 := readField_encode [] (LittleEndian.encode 4 m.numMessages ++
    (LittleEndian.encode 2 m.headerVersion ++ LittleEndian.encode 2 m.flags)) (w := 8)
    (v := m.batchTotalOrder) (by omega)
  have h1 := readField_encode (LittleEndian.encode 8 m.batchTotalOrder)
    (LittleEndian.encode 2 m.headerVersion ++ LittleEndian.encode 2 m.flags) (w := 4) (v := m.numMessages) (by omega)
  have h2 := readField_encode (LittleEndian.encode 8 m.batchTotalOrder ++
    LittleEndian.encode 4 m.numMessages) (LittleEndian.encode 2 m.flags) (w := 2) (v := m.headerVersion) (by omega)
  have h3 := readField_encode (LittleEndian.encode 8 m.batchTotalOrder ++
    LittleEndian.encode 4 m.numMessages ++ LittleEndian.encode 2 m.headerVersion) [] (w := 2)
    (v := m.flags) (by omega)
  simp only [length_append, LittleEndian.length_encode, length_nil, nil_append,
    append_assoc, append_nil, Nat.reduceAdd] at h0 h1 h2 h3
  simp only [readBatchMetadata, BatchMetadata.encode, append_assoc, h0, h1, h2, h3]

theorem parseNext_metadata (h : m.accepted = true) (hf : m.flags < 2 ^ 16) (hc : c.pendingMetadata = none)
    (rest : List UInt8) :
    parseNext c (m.encode ++ rest) = some (⟨some m, 0, m.batchTotalOrder⟩,
      if m.exportGap then [.gap m.batchTotalOrder] else [], batchMetadataSize) := by
  have hlen : batchMetadataSize ≤ m.encode.length := Nat.le_of_eq m.length_encode.symm
  rw [parseNext, hc]
  dsimp only
  rw [if_neg (by rw [length_append]; omega), readBatchMetadata_append hlen,
    readBatchMetadata_encode (encodable_of_accepted h hf), if_pos h]

theorem parseNext_frame {f : List UInt8} (hc : c.pendingMetadata = some m)
    (hf : frameStride m.headerVersion f = some f.length) (rest : List UInt8) :
    parseNext c (f ++ rest) = some ((c.takeFrame m f).1, [(c.takeFrame m f).2], f.length) := by
  have hlen := (frameStride_bounds hf).1
  rw [parseNext, hc]
  dsimp only
  rw [if_neg (by rw [length_append]; omega), frameStride_append _ hlen, hf]
  dsimp only
  rw [if_neg (by rw [length_append]; omega), take_left]

def ParseCursor.takeFrames (m : BatchMetadata) : ParseCursor → List (List UInt8) →
    ParseCursor × List Parsed
  | c, [] => (c, [])
  | c, f :: fs =>
    let r := c.takeFrame m f
    let t := takeFrames m r.1 fs
    (t.1, r.2 :: t.2)

theorem decode_frames (rest : List UInt8) : ∀ {fs : List (List UInt8)}
    {c : ParseCursor}, fs ≠ [] → c.pendingMetadata = some m →
    c.currentBatchMessagesProcessed + fs.length = m.numMessages →
    (∀ f ∈ fs, frameStride m.headerVersion f = some f.length) →
    (c.takeFrames m fs).1.pendingMetadata = none ∧ Decoder.decode parseNext c (fs.flatten ++ rest) =
        ((Decoder.decode parseNext (c.takeFrames m fs).1 rest).1,
          (c.takeFrames m fs).2 ++ (Decoder.decode parseNext (c.takeFrames m fs).1 rest).2.1,
          (Decoder.decode parseNext (c.takeFrames m fs).1 rest).2.2) := by
  intro fs
  induction fs with
  | nil => exact fun h => absurd rfl h
  | cons f fs ih =>
    intro c _ hc hcount hframe
    have hnext := parseNext_frame hc (hframe f mem_cons_self) (fs.flatten ++ rest)
    have hdecode := Decoder.decode_of_some lawful_parseNext hnext
    rw [drop_left] at hdecode
    rw [flatten_cons, append_assoc, hdecode]
    rw [length_cons] at hcount
    cases fs with
    | nil =>
      rw [length_nil] at hcount
      exact ⟨if_pos (by omega), rfl⟩
    | cons g fs =>
      rw [length_cons] at hcount
      obtain ⟨hdone, htail⟩ := ih (c := (c.takeFrame m f).1) (cons_ne_nil _ _) (if_neg (by omega)) (by
          rw [length_cons]
          show c.currentBatchMessagesProcessed + 1 + (fs.length + 1) = _
          omega)
        fun f hf => hframe f (mem_cons_of_mem _ hf)
      rw [htail]
      exact ⟨hdone, rfl⟩

namespace ExportedBatch

variable {b : ExportedBatch} {bs : List ExportedBatch}

def items (b : ExportedBatch) : List Parsed :=
  (if b.metadata.exportGap then [.gap b.metadata.batchTotalOrder] else []) ++
    (ParseCursor.takeFrames b.metadata ⟨some b.metadata, 0, b.metadata.batchTotalOrder⟩ b.frames).2

theorem WellFormed.decode (h : b.WellFormed) (hc : c.pendingMetadata = none) (rest : List UInt8) :
    ∃ c', c'.pendingMetadata = none ∧ Decoder.decode parseNext c (b.encode ++ rest) =
      ((Decoder.decode parseNext c' rest).1, b.items ++ (Decoder.decode parseNext c' rest).2.1,
        (Decoder.decode parseNext c' rest).2.2) := by
  have hne : b.frames ≠ [] := by
    have hpos := (accepted_iff.mp h.accepted).2.1
    rw [← h.count] at hpos
    exact ne_nil_of_length_pos hpos
  have hhead := Decoder.decode_of_some lawful_parseNext
    (parseNext_metadata h.accepted h.flags hc (b.frames.flatten ++ rest))
  rw [← b.metadata.length_encode, drop_left] at hhead
  obtain ⟨hdone, hframes⟩ := decode_frames rest (c := ⟨some b.metadata, 0, b.metadata.batchTotalOrder⟩) hne rfl
    (by rw [← h.count]; exact Nat.zero_add _) h.frame
  refine ⟨_, hdone, ?_⟩
  rw [encode, append_assoc, hhead, hframes, items, append_assoc]

theorem decode_encodeAll (h : ∀ b ∈ bs, b.WellFormed) (hc : c.pendingMetadata = none) :
    ∃ c', c'.pendingMetadata = none ∧ Decoder.decode parseNext c (encodeAll bs) = (c', bs.flatMap items, []) := by
  induction bs generalizing c with
  | nil =>
    refine ⟨c, hc, Decoder.decode_of_none ?_⟩
    rw [parseNext, hc]
    rfl
  | cons b bs ih =>
    obtain ⟨c₁, hc₁, hb⟩ := (h b mem_cons_self).decode hc (encodeAll bs)
    obtain ⟨c₂, hc₂, hbs⟩ := ih (fun b hb => h b (mem_cons_of_mem _ hb)) hc₁
    refine ⟨c₂, hc₂, ?_⟩
    rw [hbs] at hb
    rw [encodeAll, flatMap_cons]
    exact hb

end ExportedBatch

def OwnedMessage.stamp (m : OwnedMessage) (order : Nat) : OwnedMessage :=
  { m with bytes := writeField m.bytes totalOrderOffset 8 order }

theorem takeFrames_unstamped {fs : List (List UInt8)} (h : ∀ f ∈ fs, readField f totalOrderOffset 8 = 0)
    (c : ParseCursor) :
    (c.takeFrames m fs).2 = fs.mapIdx fun i f =>
      .message (c.nextMessageOrderInBatch + i)
        ((⟨m.headerVersion, f⟩ : OwnedMessage).stamp (c.nextMessageOrderInBatch + i)) := by
  induction fs generalizing c with
  | nil => rfl
  | cons f fs ih =>
    have hf : c.takeFrame m f = (⟨if m.numMessages ≤ c.currentBatchMessagesProcessed + 1 then none else some m,
          c.currentBatchMessagesProcessed + 1, c.nextMessageOrderInBatch + 1⟩,
          .message c.nextMessageOrderInBatch
            ((⟨m.headerVersion, f⟩ : OwnedMessage).stamp c.nextMessageOrderInBatch)) := by
      simp only [ParseCursor.takeFrame, h f mem_cons_self, if_true]
      rfl
    rw [ParseCursor.takeFrames, hf, mapIdx_cons]
    dsimp only
    rw [ih fun f hf => h f (mem_cons_of_mem _ hf)]
    simp only [Nat.add_assoc, Nat.add_comm 1]
    rfl

end Embarcadero
