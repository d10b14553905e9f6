import Embarcadero.Scalog.LocalSequencer

namespace Embarcadero.Scalog

open List

deriving instance DecidableEq for ExportHeader

def bytes (log : Nat → MessageHeader) (first n : Nat) : Nat :=
  ((List.range' first n).map fun j => (log j).paddedSize).sum

def messagesIn (headers : List ExportHeader) : Nat := (headers.map (·.numMsg)).sum

def bytesIn (headers : List ExportHeader) : Nat := (headers.map (·.totalSize)).sum

structure ExportHeader.Describes (logOffset : Nat) (log : Nat → MessageHeader) (before : List ExportHeader)
    (h : ExportHeader) : Prop where
  logIdx : h.logIdx = logOffset + bytesIn before
  first : h.logIdx = logOffset + bytes log 0 (messagesIn before)
  totalSize : h.totalSize = bytes log (messagesIn before) h.numMsg
  startLogicalOffset : h.startLogicalOffset = (messagesIn before + 2 ^ 64 - 1) % 2 ^ 64

structure LocalSequencer.Tiled (s : LocalSequencer) : Prop where
  describes : ∀ before h after, s.batchHeaders = before ++ h :: after → h.Describes s.logOffset s.log before
  ordered : s.ordered = messagesIn s.batchHeaders

def LocalSequencer.call (s : LocalSequencer) (c : Nat × List (Nat × Nat)) : LocalSequencer :=
  { s with validatedWrittenByteOffset := c.1 }.scalogSequencer c.2

variable {logOffset : Nat} {log : Nat → MessageHeader} {headers : List ExportHeader} {s : LocalSequencer} {x : Sweep}

theorem bytes_append (log : Nat → MessageHeader) (first n m : Nat) :
    bytes log first (n + m) = bytes log first n + bytes log (first + n) m := by
  rw [bytes, ← List.range'_append_1, map_append, sum_append]
  rfl

theorem bytes_succ (log : Nat → MessageHeader) (first n : Nat) :
    bytes log first (n + 1) = bytes log first n + (log (first + n)).paddedSize := by
  rw [bytes_append]
  simp [bytes]

theorem messagesIn_concat (headers : List ExportHeader) (h : ExportHeader) :
    messagesIn (headers ++ [h]) = messagesIn headers + h.numMsg := by
  simp [messagesIn]

theorem bytesIn_concat (headers : List ExportHeader) (h : ExportHeader) :
    bytesIn (headers ++ [h]) = bytesIn headers + h.totalSize := by
  simp [bytesIn]

theorem describes_concat {last : ExportHeader}
    (h : ∀ before hd after, headers = before ++ hd :: after → hd.Describes logOffset log before)
    (hlast : last.Describes logOffset log headers) (before : List ExportHeader) (hd : ExportHeader)
    (after : List ExportHeader) (heq : headers ++ [last] = before ++ hd :: after) :
    hd.Describes logOffset log before := by
  rcases eq_nil_or_concat after with rfl | ⟨init, l, rfl⟩
  · obtain ⟨rfl, hd⟩ := append_inj' heq rfl
    cases hd
    exact hlast
  · rw [concat_eq_append, ← cons_append, ← append_assoc] at heq
    exact h before hd init (append_inj' heq rfl).1

namespace Sweep

structure Cuts (logOffset : Nat) (log : Nat → MessageHeader) (x : Sweep) : Prop where
  sameOffset : x.sequencer.logOffset = logOffset
  sameLog : x.sequencer.log = log
  tiled : x.sequencer.Tiled
  whole : bytesIn x.sequencer.batchHeaders = bytes log 0 (messagesIn x.sequencer.batchHeaders)
  size : x.totalSize = bytes log (messagesIn x.sequencer.batchHeaders) x.batchNumMsg
  startAddr : x.startAddr = logOffset + bytes log 0 (messagesIn x.sequencer.batchHeaders)
  first : x.batchNumMsg ≠ 0 → x.batchStartLogicalOffset = (messagesIn x.sequencer.batchHeaders + 2 ^ 64 - 1) % 2 ^ 64
  counted : x.lastOrderedCount = messagesIn x.sequencer.batchHeaders + x.batchNumMsg
  message : x.sequencer.msgToOrder = x.lastOrderedCount
  byteOff : x.sequencer.msgByteOff = logOffset + bytes log 0 x.lastOrderedCount
  filled : x.totalSize = 0 → x.batchNumMsg = 0
  progress : 0 < x.totalSize → x.localProgress = true

theorem Cuts.stamp (h : x.Cuts logOffset log) (hstride : ∀ j, (log j).nextMsgDiff = (log j).paddedSize)
    (hs : x.sequencer.stampable x.sequencer.msgToOrder x.sequencer.msgByteOff = true) : x.stamp.Cuts logOffset log := by
  have hlast : x.sequencer.log x.sequencer.msgToOrder =
      log (messagesIn x.sequencer.batchHeaders + x.batchNumMsg) := by rw [h.sameLog, h.message, h.counted]
  have hsize : 0 < (log (messagesIn x.sequencer.batchHeaders + x.batchNumMsg)).paddedSize := by
    simp only [LocalSequencer.stampable, Bool.and_eq_true, decide_eq_true_eq, hlast] at hs
    exact hs.1.1.1.2
  have htotal : x.stamp.totalSize = bytes log (messagesIn x.sequencer.batchHeaders) (x.batchNumMsg + 1) := by
    rw [bytes_succ, ← h.size, ← hlast]
    rfl
  refine { h with
    tiled := ⟨h.tiled.describes, h.tiled.ordered⟩
    size := htotal
    first := fun _ => ?_
    counted := congrArg (· + 1) h.counted
    message := congrArg (· + 1) h.message
    byteOff := ?_
    filled := fun hzero => ?_
    progress := fun _ => rfl }
  · dsimp only [Sweep.stamp]
    split
    next hzero =>
      rw [h.counted, hzero]
      rfl
    · exact h.first ‹_›
  · change x.sequencer.msgByteOff + (x.sequencer.log x.sequencer.msgToOrder).nextMsgDiff = _
    rw [h.byteOff, hlast, hstride, Nat.add_assoc, ← h.counted]
    change _ = logOffset + bytes log 0 (x.lastOrderedCount + 1)
    rw [bytes_succ, Nat.zero_add]
  · rw [htotal, bytes_succ] at hzero
    omega

theorem Cuts.publishBatch (h : x.Cuts logOffset log) (hopen : x.totalSize ≠ 0) :
    Cuts logOffset log { x.publishBatch with
      startAddr := x.sequencer.msgByteOff, totalSize := 0, batchNumMsg := 0 } := by
  rw [Sweep.publishBatch, if_neg hopen]
  have hnum : x.batchNumMsg ≠ 0 := by
    intro hzero
    rw [h.size, hzero] at hopen
    exact hopen rfl
  have hmessages := messagesIn_concat x.sequencer.batchHeaders
    ⟨x.batchNumMsg, x.batchStartLogicalOffset, x.totalSize, x.startAddr⟩
  have hbytes := bytesIn_concat x.sequencer.batchHeaders
    ⟨x.batchNumMsg, x.batchStartLogicalOffset, x.totalSize, x.startAddr⟩
  dsimp only at hmessages hbytes
  have hlast : ExportHeader.Describes x.sequencer.logOffset x.sequencer.log x.sequencer.batchHeaders
      ⟨x.batchNumMsg, x.batchStartLogicalOffset, x.totalSize, x.startAddr⟩ := by
    rw [h.sameOffset, h.sameLog]
    exact ⟨h.whole ▸ h.startAddr, h.startAddr, h.size, h.first hnum⟩
  refine { h with
    tiled := ⟨describes_concat h.tiled.describes hlast, h.counted.trans hmessages.symm⟩
    whole := ?_
    size := rfl
    startAddr := ?_
    first := fun hne => absurd rfl hne
    counted := h.counted.trans hmessages.symm
    filled := fun _ => rfl
    progress := fun hpos => absurd hpos (Nat.lt_irrefl 0) }
  · rw [hmessages, hbytes, h.whole, h.size, bytes_append, Nat.zero_add]
  · rw [hmessages, ← h.counted]
    exact h.byteOff

theorem Cuts.closeFull (h : x.Cuts logOffset log) (hopen : x.totalSize ≠ 0) : x.closeFull.Cuts logOffset log := by
  rw [Sweep.closeFull]
  split
  · exact h.publishBatch hopen
  · exact h

theorem Cuts.stampLoop (hstride : ∀ j, (log j).nextMsgDiff = (log j).paddedSize) (n : Nat) :
    ∀ {x : Sweep}, x.Cuts logOffset log → (x.stampLoop n).Cuts logOffset log := by
  induction n with
  | zero => exact fun h => h
  | succ n ih =>
    intro x h
    rw [Sweep.stampLoop]
    split
    next hs =>
      have hstamped := h.stamp hstride hs
      exact ih (hstamped.closeFull fun hzero => Nat.succ_ne_zero _ (hstamped.filled hzero))
    · exact h

theorem Cuts.foldl (hstride : ∀ j, (log j).nextMsgDiff = (log j).paddedSize) (delta : List (Nat × Nat)) :
    ∀ {x : Sweep}, x.Cuts logOffset log → (delta.foldl applyEntry x).Cuts logOffset log := by
  induction delta with
  | nil => exact fun h => h
  | cons e delta ih =>
    intro x h
    rw [foldl_cons, applyEntry]
    split
    · exact ih (h.stampLoop hstride e.2)
    · exact ih { h with tiled := ⟨h.tiled.describes, h.tiled.ordered⟩ }

end Sweep

def LocalSequencer.Closed (logOffset : Nat) (log : Nat → MessageHeader) (s : LocalSequencer) : Prop :=
  Sweep.Cuts logOffset log { sequencer := s }

theorem LocalSequencer.Closed.moves (h : s.Closed logOffset log) (boundary : Nat) :
    Sweep.Cuts logOffset log { sequencer := { s with validatedWrittenByteOffset := boundary } } :=
  { h with tiled := ⟨h.tiled.describes, h.tiled.ordered⟩ }

theorem Sweep.Cuts.closed (h : x.Cuts logOffset log) (hopen : x.totalSize = 0) : x.sequencer.Closed logOffset log := by
  have hnum := h.filled hopen
  have hcounted := h.counted
  rw [hnum, Nat.add_zero] at hcounted
  exact { h with
    size := rfl
    startAddr := by rw [← hcounted]; exact h.byteOff
    first := fun hne => absurd rfl hne
    counted := h.tiled.ordered
    message := h.message.trans (hcounted.trans h.tiled.ordered.symm)
    byteOff := by
      change _ = logOffset + bytes log 0 x.sequencer.ordered
      rw [h.tiled.ordered, ← hcounted]
      exact h.byteOff
    filled := fun _ => rfl
    progress := fun hpos => absurd hpos (Nat.lt_irrefl 0) }

theorem LocalSequencer.Closed.call (h : s.Closed logOffset log)
    (hstride : ∀ j, (log j).nextMsgDiff = (log j).paddedSize) (c : Nat × List (Nat × Nat)) :
    (s.call c).Closed logOffset log := by
  have hcuts := (h.moves c.1).foldl hstride c.2
  rw [LocalSequencer.call, LocalSequencer.scalogSequencer]
  generalize c.2.foldl Sweep.applyEntry _ = x at hcuts
  split
  next hopen =>
    simp only [Bool.and_eq_true, decide_eq_true_eq] at hopen
    exact (hcuts.publishBatch (Nat.ne_of_gt hopen.2)).closed rfl
  next hopen =>
    refine hcuts.closed (Nat.eq_zero_of_not_pos fun hpos => hopen ?_)
    rw [hcuts.progress hpos, Bool.true_and, decide_eq_true_eq]
    exact hpos

theorem closed_fresh (brokerId batchSize logOffset : Nat) (log : Nat → MessageHeader) :
    LocalSequencer.Closed logOffset log { brokerId, batchSize, logOffset, log } where
  sameOffset := rfl
  sameLog := rfl
  tiled := ⟨fun before _ _ heq => absurd heq (by cases before <;> nofun), rfl⟩
  whole := rfl
  size := rfl
  startAddr := rfl
  first hne := absurd rfl hne
  counted := rfl
  message := rfl
  byteOff := rfl
  filled _ := rfl
  progress hpos := absurd hpos (Nat.lt_irrefl 0)

theorem LocalSequencer.Closed.calls (h : s.Closed logOffset log)
    (hstride : ∀ j, (log j).nextMsgDiff = (log j).paddedSize) (calls : List (Nat × List (Nat × Nat))) :
    (calls.foldl LocalSequencer.call s).Closed logOffset log := by
  induction calls using List.reverseRecOn with
  | nil => exact h
  | append_singleton calls c ih =>
    rw [foldl_append, foldl_cons, foldl_nil]
    exact ih.call hstride c

/-- After any calls, and after any part of a further one, the descriptors cover the log from its start on without gap or
overlap, each with the messages in its range, and as many messages are announced as they hold.  A descriptor's
`start_logical_offset` is one less than the number of messages before it. -/
theorem export_descriptors_tile (brokerId batchSize logOffset : Nat) (log : Nat → MessageHeader)
    (hstride : ∀ j, (log j).nextMsgDiff = (log j).paddedSize) (calls : List (Nat × List (Nat × Nat))) :
    let s := calls.foldl LocalSequencer.call { brokerId, batchSize, logOffset, log }
    s.Tiled ∧ ∀ boundary (delta : List (Nat × Nat)) n, ((delta.foldl Sweep.applyEntry
      { sequencer := { s with validatedWrittenByteOffset := boundary } }).stampLoop n).sequencer.Tiled := by
  have h := (closed_fresh brokerId batchSize logOffset log).calls hstride calls
  exact ⟨h.tiled, fun boundary delta n => (((h.moves boundary).foldl hstride delta).stampLoop hstride n).tiled⟩

section Scenario

def mixedLog (j : Nat) : MessageHeader := ⟨64 + j % 2 * 64, 64 + j % 2 * 64, j⟩

def mixedCalls : List (Nat × List (Nat × Nat)) := [(8192, [(0, 3), (1, 5)]), (8192, [(0, 2)])]

theorem batchHeaders_mixedCalls :
    (mixedCalls.foldl LocalSequencer.call
      { brokerId := 0, batchSize := 150, logOffset := 4096, log := mixedLog }).batchHeaders =
        [⟨2, 2 ^ 64 - 1, 192, 4096⟩, ⟨1, 1, 64, 4288⟩, ⟨2, 2, 192, 4352⟩] := by
  decide +kernel

theorem export_descriptors_tile_mixedCalls :
    let s := mixedCalls.foldl LocalSequencer.call
      { brokerId := 0, batchSize := 150, logOffset := 4096, log := mixedLog }
    s.batchHeaders = [⟨2, 2 ^ 64 - 1, 192, 4096⟩, ⟨1, 1, 64, 4288⟩, ⟨2, 2, 192, 4352⟩] ∧ s.Tiled :=
  ⟨batchHeaders_mixedCalls, (export_descriptors_tile 0 150 4096 mixedLog (fun _ => rfl) mixedCalls).1⟩

/-- The offset is taken from the count before the message, and one is subtracted from it. -/
theorem start_logical_offset_one_less :
    ¬ ∀ before h after, (mixedCalls.foldl LocalSequencer.call
      { brokerId := 0, batchSize := 150, logOffset := 4096, log := mixedLog }).batchHeaders = before ++ h :: after →
        h.startLogicalOffset = messagesIn before := by
  intro h
  exact absurd (h [⟨2, 2 ^ 64 - 1, 192, 4096⟩] ⟨1, 1, 64, 4288⟩ [⟨2, 2, 192, 4352⟩] batchHeaders_mixedCalls) (by decide)

end Scenario

end Embarcadero.Scalog
