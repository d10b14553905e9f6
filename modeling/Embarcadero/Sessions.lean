import Embarcadero.Topic

namespace Embarcadero

open Function (update)

/-- One invocation of `ProcessLevel5BatchesShard`: the shard being worked on, the rest of the
topic, the ready vector and the late-batch credits collected so far, and what the invocation has
added to `order5_total_hold_size_`. -/
structure Pass where
  topic : Topic
  shard : Level5ShardState
  ready : List PendingBatch5 := []
  terminalizedDelta : List (Nat × Nat) := []
  holdSizeDelta : Int := 0

structure PassClock where
  classifyNs : PendingBatch5 → Nat
  sweepNs : Nat
  forceExpireActive : Bool

namespace Level5ShardState

def setState (sh : Level5ShardState) (k : SessionKey) (s : OptimizedClientState) :
    Level5ShardState :=
  { sh with clientState := update sh.clientState k s }

def markEmitted (sh : Level5ShardState) (k : SessionKey) (seq : Nat) : Level5ShardState :=
  { sh with
    clientEmittedTracker :=
      update sh.clientEmittedTracker k ((sh.clientEmittedTracker k).markEmitted seq) }

def checkAndInsertBatchId (sh : Level5ShardState) (id : Nat) : Bool × Level5ShardState :=
  let r := sh.dedup.checkAndInsert order5Dedup id
  (r.1, { sh with dedup := r.2 })

def accumulateLogicalOnly (sh : Level5ShardState) (m : HoldBatchMetadata) : Level5ShardState :=
  { sh with
    cvLogicalOnlyCumulative := if m.brokerId < numMaxBrokers then
        update sh.cvLogicalOnlyCumulative m.brokerId
          (max (sh.cvLogicalOnlyCumulative m.brokerId) (m.startLogicalOffset + m.numMsg))
      else sh.cvLogicalOnlyCumulative
    cvLogicalOnlyPbrIndex := if m.brokerId < numMaxBrokers then
        update sh.cvLogicalOnlyPbrIndex m.brokerId
          (max (sh.cvLogicalOnlyPbrIndex m.brokerId) (m.pbrAbsoluteIndex + 1))
      else sh.cvLogicalOnlyPbrIndex }

def terminalizeAlreadyEmitted (sh : Level5ShardState) (m : HoldBatchMetadata) : Level5ShardState :=
  ((sh.accumulateLogicalOnly m).checkAndInsertBatchId m.batchId).2

def evictable (sh : Level5ShardState) (epoch : Nat) (k : SessionKey) : Bool :=
  (sh.holdBuffer k).isEmpty && !sh.clientsWithHeldBatches.contains k && sh.deferredLevel5.isEmpty &&
    decide ((sh.clientState k).lastEpoch < epoch) &&
    decide (clientTtlEpochs < epoch - (sh.clientState k).lastEpoch)

def clientGc (sh : Level5ShardState) (epoch : Nat) : Level5ShardState :=
  if epoch % clientGcEpochInterval ≠ 0 then sh
  else
    { sh with
      clientState := fun k => if sh.evictable epoch k then {} else sh.clientState k
      clientEmittedTracker := fun k =>
        if sh.evictable epoch k then {} else sh.clientEmittedTracker k }

def deferredIdentities (sh : Level5ShardState) : List Order5SlotIdentity :=
  sh.deferredLevel5.map (·.slotIdentity) ++ sh.backpressuredLevel5Slots

def holdsSlotOf (sh : Level5ShardState) (p : PendingBatch5) : Bool :=
  p.clientId ≠ 0 && p.clientId ≠ PendingBatch5.anonymousClient &&
    match (sh.holdBuffer p.key).lookup p.batchSeq with
    | some he => he.holdMeta.slotIdentity == p.slotIdentity
    | none => false

end Level5ShardState

def OptimizedClientState.applyRecovered (s : OptimizedClientState) (recovered : Nat) :
    OptimizedClientState :=
  let s := if s.nextExpected < recovered then s.setNextExpected recovered else s
  if 0 < recovered then { s with committedHwm := max s.committedHwm (recovered - 1) } else s

def OptimizedClientState.applyEntry (s : OptimizedClientState) (e : SessionEntry) :
    OptimizedClientState :=
  let s := { s with sessionEpoch := max s.sessionEpoch e.epoch }
  let s := if s.nextExpected < e.expectedSeq then s.setNextExpected e.expectedSeq else s
  { s with
    committedHwm := max s.committedHwm e.committedHwm
    highestSequenced := max s.highestSequenced e.highestSequenced
    fenced := s.fenced || e.fenced }

def Topic.reconstructClientState (t : Topic) (k : SessionKey) (s : OptimizedClientState) :
    OptimizedClientState :=
  let s := s.applyRecovered (t.recoveredNextExpected k)
  let e := t.cxl.sessions.get k
  if e.active then (s.applyEntry e).applyRecovered (t.recoveredNextExpected k) else s

namespace CxlMemory

def setSlot (c : CxlMemory) (a : SlotAddr) (h : BatchHeader) : CxlMemory :=
  { c with ring := update c.ring a.brokerId (update (c.ring a.brokerId) a.slot h) }

def clearSlot (c : CxlMemory) : Option SlotAddr → CxlMemory
  | none => c
  | some a => c.setSlot a (c.ring a.brokerId a.slot).clearPublishState

/-- `consumed_through` as the next slot: the all-free sentinel reads as slot 0. -/
def consumedSlot (slots : Nat) (c : CxlMemory) (b : Nat) : Nat :=
  if c.consumedThrough b = slots then 0 else c.consumedThrough b

def retireHeldSlotAndAdvance (slots : Nat) (c : CxlMemory) (hdr : Option SlotAddr)
    (b slotOffset : Nat) : CxlMemory :=
  let c := c.clearSlot hdr
  if b < numMaxBrokers ∧ slotOffset < slots ∧ c.consumedSlot slots b = slotOffset then
    { c with consumedThrough := update c.consumedThrough b (min (slotOffset + 1) slots) }
  else c

end CxlMemory

namespace Topic

def retireHeldSlotAndAdvance (P : Platform) (t : Topic) (hdr : Option SlotAddr)
    (b slotOffset : Nat) : Topic :=
  if t.capacityExhausted then t
  else { t with cxl := t.cxl.retireHeldSlotAndAdvance P.slots hdr b slotOffset }

def stopForCapacityExhaustion (t : Topic) : Topic := { t with capacityExhausted := true }

/-- `PublishSessionFenceNotification`: one pending note per client, the latest one. -/
def publishSessionFenceNotification (t : Topic) (n : SessionFenceNotification) : Topic :=
  { t with
    pendingSessionFences := update t.pendingSessionFences n.clientId (some n)
    fenceNotes := t.fenceNotes ++ [n] }

end Topic

namespace Pass

/-- The order in which `purge_fenced_session` retires held slots: by broker, then by ring distance
from `consumed_through`. -/
def retireBefore (slots : Nat) (start : Nat → Nat) (x y : HoldEntry5) : Bool :=
  let bx := x.holdMeta.brokerId
  if bx ≠ y.holdMeta.brokerId then bx < y.holdMeta.brokerId
  else if numMaxBrokers ≤ bx then x.holdMeta.slotOffset < y.holdMeta.slotOffset
  else (x.holdMeta.slotOffset + slots - start bx) % slots < (y.holdMeta.slotOffset + slots - start bx) % slots

def purgeFencedSession (P : Platform) (k : SessionKey) (x : Pass) : Pass :=
  let held := (x.shard.holdBuffer k).map Prod.snd
  let retire := P.sort (retireBefore P.slots (x.topic.cxl.consumedSlot P.slots)) held
  { x with
    topic := retire.foldl (fun t he =>
      t.retireHeldSlotAndAdvance P he.batch.hdr he.holdMeta.brokerId he.holdMeta.slotOffset) x.topic
    shard := { x.shard with
      holdBuffer := update x.shard.holdBuffer k []
      holdBufferSize := x.shard.holdBufferSize - held.length
      clientsWithHeldBatches := x.shard.clientsWithHeldBatches.filter (· ≠ k)
      clientEmittedTracker := update x.shard.clientEmittedTracker k {}
      deferredLevel5 := x.shard.deferredLevel5.filter (·.key ≠ k) }
    holdSizeDelta := x.holdSizeDelta - held.length }

def fenceNote (t : Topic) (k : SessionKey) (e : SessionEntry) (epoch : Nat) :
    SessionFenceNotification where
  clientId := k.clientId
  sessionEpoch := epoch
  committedBatchSeq := e.committedHwm
  hasCommittedPrefix := 0 < e.expectedSeq
  committedMsgHwm := t.perClientOrdered k.clientId
  controlEpoch := t.cachedEpoch

/-- `record_fence`, under the session publication gate.  The prefix reported is the published one,
not the classifier's. -/
def recordFence (P : Platform) (k : SessionKey) (x : Pass) : Pass :=
  let state := x.shard.clientState k
  if !canFenceSessionEpoch state.sessionEpoch then x
  else
    match x.topic.cxl.sessions.findOrCreate k with
    | none => { x with topic := x.topic.stopForCapacityExhaustion }
    | some table =>
      let e := table.get k
      let state' := { state.fence with committedHwm := e.committedHwm }
      let shard := x.shard.setState k state'
      match table.publish k ⟨state.sessionEpoch, e.expectedSeq, e.committedHwm, state.highestSequenced, true⟩ with
      | none => { x with topic := x.topic.stopForCapacityExhaustion, shard }
      | some table =>
        let topic := { x.topic with cxl := { x.topic.cxl with sessions := table } }
        let topic := if state.fenced then topic
          else topic.publishSessionFenceNotification (fenceNote x.topic k e state.sessionEpoch)
        purgeFencedSession P k { x with topic, shard }

/-- The in-order step shared by `classify_one` and the two drains: mark and advance the session,
and hand `p` to commit unless its batch id has been seen. -/
def emitNext (k : SessionKey) (seq id : Nat) (p : PendingBatch5) (x : Pass) : Pass :=
  let shard := x.shard.setState k ((x.shard.clientState k).markSequenced seq).advanceNextExpected
  let r := shard.checkAndInsertBatchId id
  if r.1 then { x with shard := r.2 }
  else { x with shard := r.2.markEmitted k seq, ready := x.ready ++ [p] }

def dropLate (k : SessionKey) (p : PendingBatch5) (x : Pass) : Pass :=
  let shard := x.shard.setState k ((x.shard.clientState k).markSequenced p.batchSeq)
  let r := shard.checkAndInsertBatchId p.cachedBatchId
  if r.1 then { x with shard := r.2 }
  else { x with
    shard := r.2.accumulateLogicalOnly p.cachedMeta
    terminalizedDelta := x.terminalizedDelta ++ [(p.clientId, p.numMsg)] }

def heldMarker (p : PendingBatch5) : PendingBatch5 :=
  { brokerId := p.brokerId, slotOffset := p.slotOffset, isHeldMarker := true
    cachedPbrAbsoluteIndex := p.cachedPbrAbsoluteIndex }

def insertHeld (seq : Nat) (he : HoldEntry5) : List (Nat × HoldEntry5) → List (Nat × HoldEntry5)
  | [] => [(seq, he)]
  | (s, e) :: rest =>
    if seq < s then (seq, he) :: (s, e) :: rest else (s, e) :: insertHeld seq he rest

/-- The gap branch of `classify_one`: hold, or defer, or leave the slot to backpressure. -/
def park (nowNs : Nat) (k : SessionKey) (p : PendingBatch5) (x : Pass) : Pass :=
  let shard := x.shard.setState k ((x.shard.clientState k).noteGap nowNs)
  if holdBufferMaxEntries ≤ shard.holdBufferSize then
    if shard.deferredLevel5.length < deferredL5MaxEntries then
      { x with shard := { shard with deferredLevel5 := shard.deferredLevel5 ++ [p] } }
    else if shard.backpressuredLevel5Slots.contains p.slotIdentity then { x with shard }
    else { x with shard := { shard with
      backpressuredLevel5Slots := shard.backpressuredLevel5Slots ++ [p.slotIdentity] } }
  else if ((shard.holdBuffer k).lookup p.batchSeq).isSome then { x with shard }
  else
    { x with
      shard := { shard with
        holdBuffer := update shard.holdBuffer k (insertHeld p.batchSeq ⟨p, p.cachedMeta, nowNs⟩ (shard.holdBuffer k))
        holdBufferSize := shard.holdBufferSize + 1
        clientsWithHeldBatches :=
          if shard.clientsWithHeldBatches.contains k then shard.clientsWithHeldBatches
          else shard.clientsWithHeldBatches ++ [k] }
      ready := x.ready ++ [heldMarker p]
      holdSizeDelta := x.holdSizeDelta + 1 }

def classifyOne (nowNs : Nat) (k : SessionKey) (p : PendingBatch5) (x : Pass) : Pass :=
  let state := x.shard.clientState k
  let emitted := (x.shard.clientEmittedTracker k).isEmitted p.batchSeq
  if state.fenced then { x with shard := x.shard.accumulateLogicalOnly p.cachedMeta }
  else if state.isDuplicate p.batchSeq && emitted then
    { x with shard := x.shard.terminalizeAlreadyEmitted p.cachedMeta }
  else if emitted then
    { x with
      shard := (x.shard.setState k (state.skipPast p.batchSeq)).terminalizeAlreadyEmitted p.cachedMeta }
  else if p.batchSeq = state.nextExpected then emitNext k p.batchSeq p.cachedBatchId p x
  else if p.batchSeq < state.nextExpected then dropLate k p x
  else park nowNs k p x

def beginSession (epoch : Nat) (k : SessionKey) (x : Pass) : Pass :=
  let state := { x.shard.clientState k with sessionEpoch := k.sessionEpoch, lastEpoch := epoch }
  let state := x.topic.reconstructClientState k state
  let state := match (x.shard.clientEmittedTracker k).contiguousMax with
    | some m => if state.nextExpected = 0 then
        { state.setNextExpected (m + 1) with highestSequenced := m } else state
    | none => state
  { x with shard := x.shard.setState k state }

def targetedSkip (P : Platform) (epoch : Nat) (p : PendingBatch5) (x : Pass) : Pass :=
  let k := p.key
  let state := { x.shard.clientState k with sessionEpoch := k.sessionEpoch, lastEpoch := epoch }
  let state := x.topic.reconstructClientState k state
  if canFenceSessionEpoch state.sessionEpoch then
    recordFence P k { x with shard := x.shard.setState k state }
  else { x with shard := x.shard.setState k (state.skipPast p.batchSeq) }

def skipOne (P : Platform) (epoch : Nat) (p : PendingBatch5) (x : Pass) : Pass :=
  let x := if p.clientId ≠ PendingBatch5.anonymousClient then targetedSkip P epoch p x else x
  { x with ready := x.ready ++ [p] }

def skipAll (P : Platform) (epoch : Nat) (level5 : List PendingBatch5) (x : Pass) : Pass :=
  (level5.filter (·.skipped)).foldl (fun x p => skipOne P epoch p x) x

def classifyGroups (clock : PassClock) (epoch : Nat) :
    Option SessionKey → List PendingBatch5 → Pass → Pass
  | _, [], x => x
  | current, p :: rest, x =>
    let x := if current = some p.key then x else beginSession epoch p.key x
    classifyGroups clock epoch (some p.key) rest (classifyOne (clock.classifyNs p) p.key p x)

def drainOne (P : Platform) (k : SessionKey) (he : HoldEntry5) (x : Pass) : Pass :=
  let seq := he.batch.batchSeq
  let x := { x with
    shard := { x.shard with
      holdBuffer := update x.shard.holdBuffer k
        ((x.shard.holdBuffer k).filter (·.1 ≠ (x.shard.clientState k).nextExpected))
      holdBufferSize := x.shard.holdBufferSize - 1 }
    holdSizeDelta := x.holdSizeDelta - 1 }
  if (x.shard.clientEmittedTracker k).isEmitted seq then
    let shard := x.shard.setState k ((x.shard.clientState k).markSequenced seq).advanceNextExpected
    { x with
      shard := shard.terminalizeAlreadyEmitted he.holdMeta
      topic := x.topic.retireHeldSlotAndAdvance P he.batch.hdr he.holdMeta.brokerId he.holdMeta.slotOffset }
  else
    emitNext k seq he.holdMeta.batchId { he.batch with fromHold := true, holdMeta := he.holdMeta } x

def drainLoop (P : Platform) (k : SessionKey) : Nat → Pass → Pass
  | 0, x => x
  | fuel + 1, x =>
    match (x.shard.holdBuffer k).lookup (x.shard.clientState k).nextExpected with
    | none => x
    | some he => drainLoop P k fuel (drainOne P k he x)

def drainSession (P : Platform) (epoch : Nat) (x : Pass) (k : SessionKey) : Pass :=
  if (x.shard.holdBuffer k).isEmpty then
    { x with shard := { x.shard with
      clientsWithHeldBatches := x.shard.clientsWithHeldBatches.filter (· ≠ k) } }
  else
    let x := { x with
      shard := x.shard.setState k { x.shard.clientState k with lastEpoch := epoch } }
    let x := drainLoop P k (x.shard.holdBuffer k).length x
    if (x.shard.holdBuffer k).isEmpty then
      { x with shard := { x.shard with
        clientsWithHeldBatches := x.shard.clientsWithHeldBatches.filter (· ≠ k) } }
    else x

def drainHeld (P : Platform) (epoch : Nat) (x : Pass) : Pass :=
  (P.iterate x.shard.clientsWithHeldBatches).foldl (drainSession P epoch) x

def sweepSession (nowNs leaseNs : Nat) (sh : Level5ShardState) (k : SessionKey) :
    OptimizedClientState × Bool :=
  let state := sh.clientState k
  match (sh.holdBuffer k).getLast? with
  | none => (state, false)
  | some (maxHeld, _) =>
    if !canFenceSessionEpoch state.sessionEpoch then (state, false)
    else if state.fenced then (state, true)
    else if ((sh.holdBuffer k).lookup state.nextExpected).isSome then
      ({ state with gapSinceNs := 0 }, false)
    else if shouldClearSessionGapFromHeldMax state.nextExpected maxHeld then
      ({ state with gapSinceNs := 0 }, false)
    else
      let state := state.noteGap nowNs
      (state, shouldFenceSessionGap state nowNs leaseNs)

def sweep (nowNs leaseNs : Nat) :
    List SessionKey → Level5ShardState → Level5ShardState × List SessionKey
  | [], sh => (sh, [])
  | k :: rest, sh =>
    let (state, expired) := sweepSession nowNs leaseNs sh k
    let (sh, keys) := sweep nowNs leaseNs rest (sh.setState k state)
    (sh, if expired then k :: keys else keys)

def fenceExpired (P : Platform) (epoch : Nat) (x : Pass) (k : SessionKey) : Pass :=
  recordFence P k
    { x with shard := x.shard.setState k { x.shard.clientState k with lastEpoch := epoch } }

def expireHeld (P : Platform) (clock : PassClock) (epoch : Nat) (x : Pass) : Pass :=
  let leaseNs := effectiveOrder5SessionFenceLeaseNs P.sessionLeaseNs clock.forceExpireActive
  let (shard, expired) :=
    sweep clock.sweepNs leaseNs (P.iterate x.shard.clientsWithHeldBatches) x.shard
  expired.foldl (fenceExpired P epoch) { x with shard }

def creditTerminalized (x : Pass) : Pass :=
  { x with topic := { x.topic with
    perClientOrdered := fun c => x.topic.perClientOrdered c +
      ((x.terminalizedDelta.filter (·.1 = c)).map Prod.snd).sum
    perClientOrderedEpoch := fun c => if x.terminalizedDelta.any (·.1 = c)
      then x.topic.cachedEpoch else x.topic.perClientOrderedEpoch c } }

def sessionOrder (a b : PendingBatch5) : Bool :=
  a.clientId < b.clientId || a.clientId == b.clientId && (a.sessionEpoch < b.sessionEpoch ||
    a.sessionEpoch == b.sessionEpoch && a.batchSeq < b.batchSeq)

def generalPath (P : Platform) (clock : PassClock) (epoch : Nat) (level5 : List PendingBatch5)
    (x : Pass) : Pass :=
  let x := classifyGroups clock epoch none (P.sort sessionOrder level5) x
  let x := drainHeld P epoch x
  let x := expireHeld P clock epoch x
  let x := drainHeld P epoch x
  if x.topic.capacityExhausted then x
  else
    let x := creditTerminalized x
    { x with shard := x.shard.clientGc epoch }

def fastPath (P : Platform) (clock : PassClock) (epoch : Nat) (k : SessionKey)
    (level5 : List PendingBatch5) (x : Pass) : Pass :=
  let ordered := P.sort (fun a b => a.batchSeq < b.batchSeq) level5
  let x := beginSession epoch k x
  let x := ordered.foldl (fun x p => classifyOne (clock.classifyNs p) k p x) x
  { x with shard := x.shard.clientGc epoch }

theorem classifyGroups_some {clock : PassClock} {epoch : Nat} {k : SessionKey} {l : List PendingBatch5}
    (hkey : ∀ q ∈ l, q.key = k) (x : Pass) :
    classifyGroups clock epoch (some k) l x = l.foldl (fun x p => classifyOne (clock.classifyNs p) k p x) x := by
  induction l generalizing x with
  | nil => rfl
  | cons p rest ih =>
    rw [classifyGroups, hkey p List.mem_cons_self, if_pos rfl]
    exact ih (fun q hq => hkey q (List.mem_cons_of_mem _ hq)) _

theorem classifyGroups_none {clock : PassClock} {epoch : Nat} {k : SessionKey} {l : List PendingBatch5} (hl : l ≠ [])
    (hkey : ∀ q ∈ l, q.key = k) (x : Pass) : classifyGroups clock epoch none l x =
      l.foldl (fun x p => classifyOne (clock.classifyNs p) k p x) (beginSession epoch k x) := by
  cases l with
  | nil => exact absurd rfl hl
  | cons p rest =>
    rw [classifyGroups, hkey p List.mem_cons_self, if_neg nofun]
    exact classifyGroups_some (fun q hq => hkey q (List.mem_cons_of_mem _ hq)) _

def oneGroup (P : Platform) (clock : PassClock) (epoch : Nat) (level5 : List PendingBatch5) (x : Pass) : Pass :=
  let x := classifyGroups clock epoch none (P.sort (fun a b => a.batchSeq < b.batchSeq) level5) x
  { x with shard := x.shard.clientGc epoch }

theorem fastPath_eq_oneGroup (P : Platform) (clock : PassClock) (epoch : Nat) {k : SessionKey} {l : List PendingBatch5}
    (hl : l ≠ []) (hkey : ∀ q ∈ l, q.key = k) (x : Pass) :
    fastPath P clock epoch k l x = oneGroup P clock epoch l x := by
  have hperm := P.sort_perm (fun a b : PendingBatch5 => a.batchSeq < b.batchSeq) l
  rw [oneGroup, classifyGroups_none (fun hnil => hl (hnil ▸ hperm.symm).eq_nil)
    fun q hq => hkey q (hperm.mem_iff.mp hq)]
  rfl

def start (t : Topic) (sh : Level5ShardState) (level5 : List PendingBatch5) : Pass where
  topic := t
  shard := { sh with
    deferredLevel5 := []
    backpressuredLevel5Slots :=
      sh.backpressuredLevel5Slots.filter fun s => !(level5.map (·.slotIdentity)).contains s
    cvLogicalOnlyCumulative := fun _ => 0
    cvLogicalOnlyPbrIndex := fun _ => 0 }

end Pass

def processLevel5BatchesShard (P : Platform) (clock : PassClock) (t : Topic)
    (sh : Level5ShardState) (input : List PendingBatch5) : Pass :=
  let epoch := t.currentEpochForHold
  let level5 := input ++ sh.deferredLevel5
  let x := Pass.skipAll P epoch level5 (Pass.start t sh level5)
  let level5 := level5.filter (!·.skipped)
  match level5 with
  | p :: rest =>
    if x.shard.holdBufferSize = 0 ∧ x.shard.deferredLevel5 = [] ∧ (rest.all (·.key = p.key)) then
      Pass.fastPath P clock epoch p.key level5 x
    else Pass.generalPath P clock epoch level5 x
  | [] => Pass.generalPath P clock epoch [] x

def Pass.skipped (P : Platform) (t : Topic) (sh : Level5ShardState) (input : List PendingBatch5) :
    List PendingBatch5 × Pass :=
  let level5 := input ++ sh.deferredLevel5
  (level5.filter (!·.skipped), Pass.skipAll P t.currentEpochForHold level5 (Pass.start t sh level5))

theorem processLevel5BatchesShard_cases (P : Platform) (clock : PassClock) (t : Topic) (sh : Level5ShardState)
    (input : List PendingBatch5) : let (l, x) := Pass.skipped P t sh input
    processLevel5BatchesShard P clock t sh input = Pass.generalPath P clock t.currentEpochForHold l x ∨
      x.shard.holdBufferSize = 0 ∧ (∃ k, ∀ q ∈ l, q.key = k) ∧
        processLevel5BatchesShard P clock t sh input = Pass.oneGroup P clock t.currentEpochForHold l x := by
  rw [processLevel5BatchesShard, Pass.skipped]
  dsimp only
  split
  next p rest hlevel =>
    split
    next hfast =>
      have hkey : ∀ q ∈ p :: rest, q.key = p.key := by simpa using hfast.2.2
      rw [hlevel]
      exact .inr ⟨hfast.1, ⟨p.key, hkey⟩, Pass.fastPath_eq_oneGroup P clock _ (List.cons_ne_nil p rest) hkey _⟩
    · exact .inl rfl
  next hlevel =>
    rw [hlevel]
    exact .inl rfl

/-- `ProcessLevel5Batches`: clients are spread over the shards, the ready vectors are
concatenated. -/
def processLevel5Batches (P : Platform) (clock : PassClock) (t : Topic)
    (level5 : List PendingBatch5) : Topic × List PendingBatch5 :=
  if t.capacityExhausted then (t, [])
  else
    (List.range P.numShards).foldl (fun (t, ready) i =>
      let x := processLevel5BatchesShard P clock t (t.shards i) (level5.filter (·.clientId % P.numShards = i))
      ({ x.topic with
        shards := update x.topic.shards i x.shard
        order5TotalHoldSize := x.topic.order5TotalHoldSize + x.holdSizeDelta },
        ready ++ x.ready)) (t, [])

end Embarcadero
