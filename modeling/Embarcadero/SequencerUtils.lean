import Embarcadero.Data

namespace Embarcadero

def clientWindowSize : Nat := 1024

structure OptimizedClientState where
  nextExpected : Nat := 0
  highestSequenced : Nat := 0
  lastEpoch : Nat := 0
  fenced : Bool := false
  committedHwm : Nat := 0
  sessionEpoch : Nat := 0
  gapSinceNs : Nat := 0
  windowBase : Nat := 0
  windowSeen : Nat → Bool := fun _ => false

namespace OptimizedClientState

def isDuplicate (s : OptimizedClientState) (seq : Nat) : Bool :=
  if seq < s.windowBase then false
  else if s.windowBase + clientWindowSize ≤ seq then false
  else s.windowSeen (seq % clientWindowSize)

/-- The window slide of `mark_sequenced`.  Each turn moves `window_base` one step towards
`next_expected`, so that distance is enough fuel. -/
def slideWindow (seq : Nat) : Nat → OptimizedClientState → OptimizedClientState
  | 0, s => s
  | fuel + 1, s =>
    if s.windowBase < s.nextExpected ∧ s.windowBase + clientWindowSize ≤ seq + clientWindowSize / 2 then
      slideWindow seq fuel
        { s with
          windowSeen := Function.update s.windowSeen (s.windowBase % clientWindowSize) false
          windowBase := s.windowBase + 1 }
    else s

def setSeen (s : OptimizedClientState) (seq : Nat) : OptimizedClientState :=
  if s.windowBase ≤ seq ∧ seq < s.windowBase + clientWindowSize then
    { s with windowSeen := Function.update s.windowSeen (seq % clientWindowSize) true }
  else s

def markSequenced (s : OptimizedClientState) (seq : Nat) : OptimizedClientState :=
  let s := { s with highestSequenced := max s.highestSequenced seq }.setSeen seq
  slideWindow seq (s.nextExpected - s.windowBase) s

def advanceNextExpected (s : OptimizedClientState) : OptimizedClientState :=
  { s with nextExpected := s.nextExpected + 1, gapSinceNs := 0 }

def setNextExpected (s : OptimizedClientState) (next : Nat) : OptimizedClientState :=
  { s with nextExpected := next, gapSinceNs := if next ≠ s.nextExpected then 0 else s.gapSinceNs }

def skipPast (s : OptimizedClientState) (seq : Nat) : OptimizedClientState :=
  let s := s.markSequenced seq
  if s.nextExpected ≤ seq then s.setNextExpected (seq + 1) else s

def noteGap (s : OptimizedClientState) (nowNs : Nat) : OptimizedClientState :=
  if !s.fenced && s.gapSinceNs == 0 then { s with gapSinceNs := nowNs } else s

def fence (s : OptimizedClientState) : OptimizedClientState :=
  if s.fenced then s
  else { s with fenced := true, committedHwm := if s.nextExpected = 0 then 0 else s.nextExpected - 1 }

variable (s : OptimizedClientState) (seq n : Nat)

theorem slideWindow_frame (fuel : Nat) :
    ∃ base seen, slideWindow seq fuel s = { s with windowBase := base, windowSeen := seen } := by
  induction fuel generalizing s with
  | zero => exact ⟨_, _, rfl⟩
  | succ fuel ih =>
    rw [slideWindow]
    split
    · obtain ⟨base, seen, h⟩ := ih { s with
        windowSeen := Function.update s.windowSeen (s.windowBase % clientWindowSize) false
        windowBase := s.windowBase + 1 }
      exact ⟨base, seen, h⟩
    · exact ⟨_, _, rfl⟩

theorem setSeen_frame : ∃ seen, s.setSeen seq = { s with windowSeen := seen } := by
  unfold setSeen
  split
  · exact ⟨_, rfl⟩
  · exact ⟨_, rfl⟩

theorem markSequenced_frame :
    ∃ highest base seen, s.markSequenced seq =
      { s with highestSequenced := highest, windowBase := base, windowSeen := seen } := by
  obtain ⟨seen, hs⟩ := setSeen_frame { s with highestSequenced := max s.highestSequenced seq } seq
  obtain ⟨base, seen', hw⟩ := slideWindow_frame
    { s with highestSequenced := max s.highestSequenced seq, windowSeen := seen }
    seq (s.nextExpected - s.windowBase)
  rw [markSequenced, hs]
  exact ⟨_, _, _, hw⟩

@[simp] theorem markSequenced_nextExpected : (s.markSequenced seq).nextExpected = s.nextExpected := by
  obtain ⟨_, _, _, h⟩ := markSequenced_frame s seq
  rw [h]
@[simp] theorem markSequenced_fenced : (s.markSequenced seq).fenced = s.fenced := by
  obtain ⟨_, _, _, h⟩ := markSequenced_frame s seq
  rw [h]
@[simp] theorem markSequenced_sessionEpoch : (s.markSequenced seq).sessionEpoch = s.sessionEpoch := by
  obtain ⟨_, _, _, h⟩ := markSequenced_frame s seq
  rw [h]
@[simp] theorem markSequenced_lastEpoch : (s.markSequenced seq).lastEpoch = s.lastEpoch := by
  obtain ⟨_, _, _, h⟩ := markSequenced_frame s seq
  rw [h]
@[simp] theorem setNextExpected_nextExpected : (s.setNextExpected n).nextExpected = n := rfl
@[simp] theorem setNextExpected_fenced : (s.setNextExpected n).fenced = s.fenced := rfl
@[simp] theorem setNextExpected_sessionEpoch : (s.setNextExpected n).sessionEpoch = s.sessionEpoch := rfl
@[simp] theorem advanceNextExpected_nextExpected : s.advanceNextExpected.nextExpected = s.nextExpected + 1 := rfl
@[simp] theorem advanceNextExpected_fenced : s.advanceNextExpected.fenced = s.fenced := rfl
@[simp] theorem advanceNextExpected_sessionEpoch : s.advanceNextExpected.sessionEpoch = s.sessionEpoch := rfl

@[simp] theorem skipPast_nextExpected : (s.skipPast seq).nextExpected = max s.nextExpected (seq + 1) := by
  unfold skipPast
  dsimp only
  split
  · rw [setNextExpected_nextExpected]
    rw [markSequenced_nextExpected] at *
    omega
  · rw [markSequenced_nextExpected] at *
    omega
@[simp] theorem skipPast_fenced : (s.skipPast seq).fenced = s.fenced := by unfold skipPast; dsimp only; split <;> simp
@[simp] theorem skipPast_sessionEpoch : (s.skipPast seq).sessionEpoch = s.sessionEpoch := by
  unfold skipPast; dsimp only; split <;> simp

@[simp] theorem noteGap_nextExpected : (s.noteGap n).nextExpected = s.nextExpected := by unfold noteGap; split <;> rfl
@[simp] theorem noteGap_fenced : (s.noteGap n).fenced = s.fenced := by unfold noteGap; split <;> rfl
@[simp] theorem noteGap_sessionEpoch : (s.noteGap n).sessionEpoch = s.sessionEpoch := by unfold noteGap; split <;> rfl

@[simp] theorem setNextExpected_lastEpoch : (s.setNextExpected n).lastEpoch = s.lastEpoch := rfl
@[simp] theorem advanceNextExpected_lastEpoch : s.advanceNextExpected.lastEpoch = s.lastEpoch := rfl
@[simp] theorem skipPast_lastEpoch :
    (s.skipPast seq).lastEpoch = s.lastEpoch := by unfold skipPast; dsimp only; split <;> simp
@[simp] theorem noteGap_lastEpoch : (s.noteGap n).lastEpoch = s.lastEpoch := by unfold noteGap; split <;> rfl
@[simp] theorem fence_nextExpected : s.fence.nextExpected = s.nextExpected := by unfold fence; split <;> rfl
@[simp] theorem fence_fenced : s.fence.fenced = true := by
  unfold fence; split <;> simp_all
@[simp] theorem fence_sessionEpoch : s.fence.sessionEpoch = s.sessionEpoch := by unfold fence; split <;> rfl

end OptimizedClientState

/-- `ClientEmitTracker`; `contiguousMax = none` is the `UINT64_MAX` sentinel. -/
structure ClientEmitTracker where
  contiguousMax : Option Nat := none
  pending : List Nat := []

namespace ClientEmitTracker

def isEmitted (t : ClientEmitTracker) (seq : Nat) : Bool :=
  (match t.contiguousMax with
    | some m => decide (seq ≤ m)
    | none => false) || t.pending.contains seq

def absorb : Nat → Nat → List Nat → ClientEmitTracker
  | 0, m, pending => ⟨some m, pending⟩
  | fuel + 1, m, pending =>
    if pending.contains (m + 1) then absorb fuel (m + 1) (pending.erase (m + 1))
    else ⟨some m, pending⟩

def insertPending (t : ClientEmitTracker) (seq : Nat) : ClientEmitTracker :=
  if t.pending.contains seq then t else { t with pending := seq :: t.pending }

def markEmitted (t : ClientEmitTracker) (seq : Nat) : ClientEmitTracker :=
  match t.contiguousMax with
  | none => if seq = 0 then { t with contiguousMax := some 0 } else t.insertPending seq
  | some m =>
    if seq ≤ m then t
    else if seq = m + 1 then absorb t.pending.length seq t.pending
    else t.insertPending seq

@[simp] theorem isEmitted_default (seq : Nat) : ({} : ClientEmitTracker).isEmitted seq = false := rfl

theorem isEmitted_absorb {fuel m seq : Nat} {pending : List Nat} :
    (absorb fuel m pending).isEmitted seq = true ↔ seq ≤ m ∨ seq ∈ pending := by
  induction fuel generalizing m pending with
  | zero => simp [absorb, isEmitted]
  | succ fuel ih =>
    rw [absorb]
    split
    next hm =>
      rw [ih]
      by_cases hseq : seq = m + 1
      · simp [hseq, List.contains_iff_mem.mp hm]
      · rw [List.mem_erase_of_ne hseq]
        exact or_congr_left (by omega)
    · simp [isEmitted]

theorem isEmitted_insertPending {t : ClientEmitTracker} {s seq : Nat} :
    (t.insertPending s).isEmitted seq = true ↔ seq = s ∨ t.isEmitted seq = true := by
  unfold insertPending
  split
  next hs => exact ⟨.inr, Or.rec (fun heq => by simp only [isEmitted, heq, hs, Bool.or_true]) id⟩
  · simp [isEmitted, or_left_comm]

theorem isEmitted_markEmitted {t : ClientEmitTracker} {s seq : Nat} :
    (t.markEmitted s).isEmitted seq = true ↔ seq = s ∨ t.isEmitted seq = true := by
  unfold markEmitted
  split
  next hc =>
    split
    next hs => simp [isEmitted, hc, hs]
    · exact isEmitted_insertPending
  next m hc =>
    have hold : t.isEmitted seq = true ↔ seq ≤ m ∨ seq ∈ t.pending := by simp [isEmitted, hc]
    split
    next hs =>
      refine ⟨.inr, Or.rec (fun heq => ?_) id⟩
      exact hold.mpr (.inl (heq ▸ hs))
    · split
      · rw [isEmitted_absorb, hold, ← or_assoc]
        exact or_congr_left (by omega)
      · exact isEmitted_insertPending

end ClientEmitTracker

def hash64 (x : Nat) : Nat :=
  let x := x ^^^ (x >>> 33)
  let x := x * 0xff51afd7ed558ccd % 2 ^ 64
  let x := x ^^^ (x >>> 33)
  let x := x * 0xc4ceb9fe1a85ec53 % 2 ^ 64
  x ^^^ (x >>> 33)

structure DedupConfig where
  tableSize : Nat
  ringSize : Nat
  maxProbes : Nat
  hash : Nat → Nat

def order5Dedup : DedupConfig := ⟨2 ^ 21, 2 ^ 20, 128, hash64⟩

structure FastDeduplicator where
  table : Nat → Nat := fun _ => 2 ^ 64 - 1
  ring : Nat → Nat := fun _ => 2 ^ 64 - 1
  ringHead : Nat := 0
  count : Nat := 0
  skip : Bool := false

namespace FastDeduplicator

def emptyId : Nat := 2 ^ 64 - 1
def tombstone : Nat := 2 ^ 64 - 2

inductive Probe
  | duplicate
  | insertAt (idx : Nat)
  | noRoom

/-- The probe loop of `check_and_insert`: the first tombstone seen is the place to insert, unless
the id turns up before an empty entry does. -/
def probe (c : DedupConfig) (table : Nat → Nat) (id : Nat) : Nat → Nat → Option Nat → Probe
  | 0, _, some i => .insertAt i
  | 0, _, none => .noRoom
  | fuel + 1, idx, insertAt =>
    if table idx = id then .duplicate
    else if table idx = emptyId then .insertAt (insertAt.getD idx)
    else
      probe c table id fuel ((idx + 1) % c.tableSize)
        (if table idx = tombstone ∧ insertAt = none then some idx else insertAt)

def bury (c : DedupConfig) (old : Nat) : Nat → Nat → (Nat → Nat) → Nat → Nat
  | 0, _, table => table
  | fuel + 1, idx, table =>
    if table idx = old then Function.update table idx tombstone
    else if table idx = emptyId then table
    else bury c old fuel ((idx + 1) % c.tableSize) table

def evict (c : DedupConfig) (d : FastDeduplicator) : FastDeduplicator :=
  if d.count < c.ringSize then d
  else
    let oldest := (d.ringHead + c.ringSize - d.count) % c.ringSize
    let old := d.ring oldest
    { d with
      table := if old < tombstone then bury c old c.maxProbes (c.hash old % c.tableSize) d.table
        else d.table
      ring := Function.update d.ring oldest emptyId
      count := d.count - 1 }

def checkAndInsert (c : DedupConfig) (d : FastDeduplicator) (id : Nat) : Bool × FastDeduplicator :=
  if d.skip then (false, d)
  else if tombstone ≤ id then (false, d)
  else
    match probe c d.table id c.maxProbes (c.hash id % c.tableSize) none with
    | .duplicate => (true, d)
    | .noRoom => (false, d)
    | .insertAt i =>
      let d := d.evict c
      (false, { d with
        table := Function.update d.table i id
        ring := Function.update d.ring d.ringHead id
        ringHead := (d.ringHead + 1) % c.ringSize
        count := d.count + 1 })

def Stored (d : FastDeduplicator) (id : Nat) : Prop := id < tombstone ∧ ∃ i, d.table i = id

variable {c : DedupConfig} {d : FastDeduplicator} {fuel id idx : Nat} {table : Nat → Nat}

theorem probe_duplicate {insertAt : Option Nat} (h : probe c table id fuel idx insertAt = .duplicate) :
    ∃ i, table i = id := by
  induction fuel generalizing idx insertAt with
  | zero => cases insertAt <;> simp [probe] at h
  | succ fuel ih =>
    unfold probe at h
    split at h
    · exact ⟨idx, ‹_›⟩
    · split at h
      · simp at h
      · exact ih h

theorem bury_subset {old : Nat} {i : Nat} :
    bury c old fuel idx table i = tombstone ∨ bury c old fuel idx table i = table i := by
  induction fuel generalizing idx with
  | zero => exact .inr rfl
  | succ fuel ih =>
    unfold bury
    split
    · by_cases hi : i = idx
      · exact .inl (by simp [hi])
      · exact .inr (by simp [hi])
    · split
      · exact .inr rfl
      · exact ih

theorem stored_evict (h : (d.evict c).Stored id) : d.Stored id := by
  obtain ⟨hid, i, hi⟩ := h
  refine ⟨hid, i, ?_⟩
  unfold evict at hi
  split at hi
  · exact hi
  · dsimp only at hi
    split at hi
    · rcases bury_subset (c := c) (i := i) with hb | hb
      · exact absurd (hi.symm.trans hb) (Nat.ne_of_lt hid)
      · exact hb.symm.trans hi
    · exact hi

theorem checkAndInsert_true (h : (d.checkAndInsert c id).1 = true) : d.Stored id := by
  unfold checkAndInsert at h
  split at h
  · simp at h
  split at h
  · simp at h
  next hid =>
    split at h
    next hp => exact ⟨Nat.lt_of_not_le hid, probe_duplicate hp⟩
    · simp at h
    · simp at h

theorem stored_checkAndInsert {id' : Nat} (h : (d.checkAndInsert c id).2.Stored id') : id' = id ∨ d.Stored id' := by
  unfold checkAndInsert at h
  split at h
  · exact .inr h
  split at h
  · exact .inr h
  · split at h
    · exact .inr h
    · exact .inr h
    next i _ =>
      obtain ⟨hid, j, hj⟩ := h
      by_cases hji : j = i
      · exact .inl (by simpa [hji] using hj.symm)
      · exact .inr (stored_evict ⟨hid, j, by simpa [hji] using hj⟩)

theorem not_stored_default (id : Nat) : ¬ ({} : FastDeduplicator).Stored id := by
  rintro ⟨hid, _, hi⟩
  simp only [tombstone] at hid hi
  omega

end FastDeduplicator

def canFenceSessionEpoch (sessionEpoch : Nat) : Bool := sessionEpoch ≠ 0

/-- `ShouldFenceSessionGap`; the clock difference is a 64-bit subtraction. -/
def shouldFenceSessionGap (s : OptimizedClientState) (nowNs leaseNs : Nat) : Bool :=
  canFenceSessionEpoch s.sessionEpoch && !s.fenced && s.gapSinceNs != 0 &&
    decide (leaseNs ≤ (nowNs + 2 ^ 64 - s.gapSinceNs) % 2 ^ 64)

def effectiveOrder5SessionFenceLeaseNs (leaseNs : Nat) (forceExpireActive : Bool) : Nat :=
  if forceExpireActive then min leaseNs 250000000 else leaseNs

def shouldClearSessionGapFromHeldMax (nextExpected maxHeldSeq : Nat) : Bool :=
  maxHeldSeq ≤ nextExpected

def reconnectAnswerHwm (sessionEntryHwm : Nat) (goiHwm : Option Nat) : Nat :=
  match goiHwm with
  | none => sessionEntryHwm
  | some g => min sessionEntryHwm g

def shouldTerminalFenceAckRelay (clientInclusiveHwm : Nat) (goiHwm : Option Nat) : Bool :=
  match goiHwm with
  | none => true
  | some g => g < clientInclusiveHwm

def shouldWithholdAckRelay (producingEpoch controlEpoch : Nat) : Bool :=
  controlEpoch ≠ 0 && producingEpoch < controlEpoch

def shouldRejectOrder5SpatialGuard (active fenced : Bool) (batchSeq durableExpected : Nat) : Bool :=
  active && (fenced || batchSeq < durableExpected)

/-- `TryReserveCommitRanges`: the first GOI index and the first message number of the reserved
ranges, or nothing if either range does not fit. -/
def tryReserveCommitRanges (goi messages capacity batches count : Nat) : Option (Nat × Nat) :=
  if capacity < goi ∨ capacity - goi < batches ∨ 2 ^ 64 - 1 - messages < count then none
  else some (goi, messages)

end Embarcadero
