import Embarcadero.Sessions

namespace Embarcadero

open Function (update)

inductive CxlWrite
  | claimSession (k : SessionKey)
  | session (k : SessionKey) (s : SessionStore)
  | goi (i : Nat) (e : GOIEntry)
  | stampTotalOrder (a : SlotAddr) (totalOrder : Nat)
  | exportDescriptor (a : SlotAddr) (h : BatchHeader)
  | clearPublishState (a : SlotAddr)
  | ordered (b inc : Nat)
  | consumedThrough (b v : Nat)
  deriving DecidableEq

def CxlMemory.write (c : CxlMemory) : CxlWrite → CxlMemory
  | .claimSession k => { c with sessions := (c.sessions.findOrCreate k).getD c.sessions }
  | .session k s => { c with sessions := c.sessions.store k s }
  | .goi i e => { c with goi := update c.goi i e }
  | .stampTotalOrder a n => c.setSlot a { c.ring a.brokerId a.slot with totalOrder := n }
  | .exportDescriptor a h => c.setSlot a h
  | .clearPublishState a => c.clearSlot (some a)
  | .ordered b inc => { c with ordered := update c.ordered b (c.ordered b + inc) }
  | .consumedThrough b v => { c with consumedThrough := update c.consumedThrough b v }

def CxlMemory.writes (c : CxlMemory) (ws : List CxlWrite) : CxlMemory := ws.foldl .write c

def CxlWrite.goiEntry? : CxlWrite → Option GOIEntry
  | .goi _ e => some e
  | _ => none

namespace Commit

def rejects (e : SessionEntry) (batchSeq : Nat) : Bool :=
  e.active && shouldRejectOrder5SpatialGuard e.active e.fenced batchSeq e.expectedSeq

structure Guarded where
  kept : List PendingBatch5 := []
  writes : List CxlWrite := []
  table : SessionTable
  admissionFailed : Bool := false

def guardOne (g : Guarded) (p : PendingBatch5) : Guarded :=
  let m := p.commitMeta
  if p.isMarker || m.sessionEpoch = 0 then { g with kept := g.kept ++ [p] }
  else
    match g.table.findOrCreate m.key with
    | none => { g with kept := g.kept ++ [p], admissionFailed := true }
    | some table =>
      let writes := g.writes ++ [.claimSession m.key]
      if rejects (table.get m.key) m.batchSeq then
        { g with
          writes := writes ++ (p.hdr.map CxlWrite.clearPublishState).toList
          table }
      else { g with kept := g.kept ++ [p], writes, table }

def guardAll (t : Topic) (ready : List PendingBatch5) : Guarded :=
  ready.foldl guardOne { table := t.cxl.sessions }

def countReady : List PendingBatch5 → Option (Nat × Nat) → Option (Nat × Nat)
  | [], acc => acc
  | _, none => none
  | p :: rest, some (batches, msgs) =>
    if p.isMarker then countReady rest (some (batches, msgs))
    else if (!p.fromHold && p.hdr.isNone) || decide (2 ^ 64 - 1 - msgs < p.numMsg) then none
    else countReady rest (some (batches + 1, msgs + p.numMsg))

def recordedSeq (c : CxlMemory) (p : PendingBatch5) : Nat :=
  if p.fromHold then p.commitMeta.batchSeq
  else match p.hdr with
    | some a => (c.ring a.brokerId a.slot).batchSeq
    | none => 0

/-- The GOI entry of one committed batch.  Apart from `client_seq`, a batch that was not held uses
the fields its scanner cached. -/
def goiEntry (c : CxlMemory) (p : PendingBatch5) (index totalOrder cumulative : Nat) : GOIEntry :=
  let m := p.commitMeta
  { globalSeq := index
    batchId := m.batchId
    totalOrder := totalOrder
    brokerId := m.brokerId
    epochSequenced := m.epochCreated
    blogOffset := m.logIdx
    payloadSize := m.totalSize % 2 ^ 32
    messageCount := m.numMsg
    clientId := m.clientId
    clientSeq := recordedSeq c p
    pbrIndex := m.pbrAbsoluteIndex
    cumulativeMessageCount := cumulative
    sessionEpoch := m.sessionEpoch }

def stamp (p : PendingBatch5) (order : Nat) : List CxlWrite :=
  if p.fromHold then [] else (p.hdr.map (CxlWrite.stampTotalOrder · order)).toList

def goiWrites (c : CxlMemory) : Nat → Nat → (Nat → Nat) → List PendingBatch5 → List CxlWrite
  | _, _, _, [] => []
  | index, order, cumulative, p :: rest =>
    if p.isMarker then goiWrites c index order cumulative rest
    else
      let m := p.commitMeta
      let count := if m.brokerId < numMaxBrokers then cumulative m.brokerId + m.numMsg
        else m.numMsg
      let cumulative := if m.brokerId < numMaxBrokers then update cumulative m.brokerId count
        else cumulative
      stamp p order ++ .goi index (goiEntry c p index order count) ::
        goiWrites c (index + 1) (order + m.numMsg) cumulative rest

def descriptor (m : HoldBatchMetadata) (exportSeq totalOrder : Nat) : BatchHeader :=
  { batchSeq := exportSeq
    clientId := m.clientId
    brokerId := m.brokerId
    epochCreated := m.epochCreated
    sessionEpoch := m.sessionEpoch % 2 ^ 16
    sessionEpoch32 := m.sessionEpoch
    batchId := m.batchId
    pbrAbsoluteIndex := m.pbrAbsoluteIndex
    startLogicalOffset := m.startLogicalOffset
    logIdx := m.logIdx
    totalSize := m.totalSize % 2 ^ 32
    numMsg := m.numMsg
    totalOrder := totalOrder
    ordered := true
    retired := true }

structure ExportState where
  cursor : Nat → Nat
  sequence : Nat → Nat

def ExportState.slot (P : Platform) (s : ExportState) (b : Nat) : Nat :=
  if P.slots ≤ s.cursor b then 0 else s.cursor b

def ExportState.advance (P : Platform) (s : ExportState) (b : Nat) : ExportState :=
  let next := s.slot P b + 1
  { cursor := update s.cursor b (if P.slots ≤ next then 0 else next)
    sequence := update s.sequence b (s.sequence b + 1) }

def exports (P : Platform) (b : Nat) : Bool := b < numMaxBrokers && P.hasRing b

def exportWrites (P : Platform) :
    Nat → ExportState → List PendingBatch5 → List CxlWrite × ExportState
  | _, s, [] => ([], s)
  | order, s, p :: rest =>
    if p.isMarker then exportWrites P order s rest
    else
      let m := p.commitMeta
      let clear := (p.hdr.map CxlWrite.clearPublishState).toList
      if exports P m.brokerId then
        let (ws, s') := exportWrites P (order + m.numMsg) (s.advance P m.brokerId) rest
        (.exportDescriptor ⟨m.brokerId, s.slot P m.brokerId⟩
          (descriptor m (s.sequence m.brokerId) order) :: clear ++ ws, s')
      else
        let (ws, s') := exportWrites P (order + m.numMsg) s rest
        (clear ++ ws, s')

def batches (kept : List PendingBatch5) : List PendingBatch5 := kept.filter (!·.isMarker)

def committed (kept : List PendingBatch5) : List HoldBatchMetadata :=
  (batches kept).map (·.commitMeta)

def advanceContiguous (P : Platform) (contiguous : Nat → Nat) (m : HoldBatchMetadata) :
    Nat → Nat :=
  if m.brokerId < numMaxBrokers ∧ (m.slotOffset = contiguous m.brokerId ∨
      contiguous m.brokerId = P.slots ∧ m.slotOffset = 0) then
    update contiguous m.brokerId (min (m.slotOffset + 1) P.slots)
  else contiguous

def recordSessionPublish (s : SessionPublishSnapshot) (m : HoldBatchMetadata) :
    SessionPublishSnapshot :=
  { s with
    sessionEpoch := m.sessionEpoch
    expectedSeq := max s.expectedSeq (m.batchSeq + 1)
    committedHwm := max s.committedHwm m.batchSeq
    highestSequenced := max s.highestSequenced m.batchSeq }

def sessionSnapshot (ms : List HoldBatchMetadata) (k : SessionKey) : SessionPublishSnapshot :=
  (ms.filter (·.key = k)).foldl recordSessionPublish {}

def publishedKeys (ms : List HoldBatchMetadata) : List SessionKey :=
  ((ms.map (·.key)).filter (·.sessionEpoch ≠ 0)).dedup

def sessionWrites (P : Platform) (ms : List HoldBatchMetadata) : List CxlWrite :=
  (P.iterate (publishedKeys ms)).flatMap fun k =>
    (SessionTable.publishStores (sessionSnapshot ms k)).map (CxlWrite.session k)

def orderedWrites (ms : List HoldBatchMetadata) : List CxlWrite :=
  ((List.range numMaxBrokers).filter fun b => ms.any (·.brokerId = b)).map fun b =>
    .ordered b ((ms.filter (·.brokerId = b)).map (·.numMsg)).sum

def slotHeld (P : Platform) (shards : Nat → Level5ShardState) (p : PendingBatch5) : Bool :=
  ((List.range P.numShards).any fun i => (shards i).deferredIdentities.contains p.slotIdentity) ||
    (shards (p.clientId % P.numShards)).holdsSlotOf p

def processedSlot (P : Platform) (shards : Nat → Level5ShardState)
    (batchList : List PendingBatch5) (b slot : Nat) : Bool :=
  batchList.any fun p => p.brokerId = b && p.slotOffset = slot && !slotHeld P shards p

def walk (slots : Nat) (processed : Nat → Bool) : Nat → Nat → Nat
  | 0, slot => slot
  | fuel + 1, slot => if processed slot then walk slots processed fuel ((slot + 1) % slots) else slot

def walkedFrontier (P : Platform) (shards : Nat → Level5ShardState)
    (batchList : List PendingBatch5) (contiguous : Nat → Nat) (b : Nat) : Nat :=
  let start := if P.slots ≤ contiguous b then 0 else contiguous b
  let stop := walk P.slots (processedSlot P shards batchList b) P.slots start
  if stop = 0 then P.slots else stop

/-- `AdvanceConsumedThroughForProcessedSlots`: the contiguous frontiers afterwards and the writes. -/
def advanceConsumedThrough (P : Platform) (shards : Nat → Level5ShardState) (f : EpochInFlight)
    (contiguous : Nat → Nat) : (Nat → Nat) × List CxlWrite :=
  if f.batchList = [] then (contiguous, [])
  else
    let contiguous := fun b => if b < numMaxBrokers ∧ f.brokerSeen b then
      walkedFrontier P shards f.batchList contiguous b else contiguous b
    (contiguous, ((List.range numMaxBrokers).filter f.brokerSeen).map fun b =>
      .consumedThrough b (contiguous b))

/-- The tail write of `CommitEpoch`, which comes after the range has been enqueued. -/
def tailConsumed (f : EpochInFlight) (contiguous : Nat → Nat) : List (Nat × Nat) :=
  ((List.range numMaxBrokers).filter f.brokerSeen).map fun b => (b, contiguous b)

inductive Outcome
  | stopped
  | nothingReady
  | committed (kept : List PendingBatch5) (firstGoi batches firstMessage msgs : Nat)

def outcome (t : Topic) (g : Guarded) : Outcome :=
  if g.admissionFailed then .stopped
  else if g.kept = [] then .nothingReady
  else
    match countReady g.kept (some (0, 0)) with
    | none => .stopped
    | some (batches, msgs) =>
      match tryReserveCommitRanges t.globalBatchSeq t.globalSeq goiCapacity batches msgs with
      | none => .stopped
      | some (firstGoi, firstMessage) => .committed g.kept firstGoi batches firstMessage msgs

def metadataContiguous (P : Platform) (f : EpochInFlight) (ms : List HoldBatchMetadata) :
    Nat → Nat :=
  ms.foldl (advanceContiguous P) f.contiguousConsumed

/-- Everything `CommitEpoch` writes to shared memory before its tail, in program order. -/
def writes (P : Platform) (t : Topic) (f : EpochInFlight) : List CxlWrite :=
  let g := guardAll t f.ready
  match outcome t g with
  | .stopped => g.writes
  | .nothingReady =>
    g.writes ++ (advanceConsumedThrough P t.shards f f.contiguousConsumed).2
  | .committed kept firstGoi _ firstMessage _ =>
    let ms := committed kept
    g.writes ++ goiWrites t.cxl firstGoi firstMessage t.cxl.ordered kept ++
      (exportWrites P firstMessage ⟨t.exportCursor, t.exportSequence⟩ kept).1 ++
      orderedWrites ms ++ sessionWrites P ms ++ (advanceConsumedThrough P t.shards f (metadataContiguous P f ms)).2

def clientDelta (ms : List HoldBatchMetadata) (client : Nat) : Nat :=
  ((ms.filter (·.clientId = client)).map (·.numMsg)).sum

def localEffects (P : Platform) (t : Topic) (f : EpochInFlight) (o : Outcome) : Topic :=
  match o with
  | .stopped => t.stopForCapacityExhaustion
  | .nothingReady => t
  | .committed kept firstGoi batches firstMessage msgs =>
    let exported :=
      (exportWrites P firstMessage ⟨t.exportCursor, t.exportSequence⟩ kept).2
    let contiguous :=
      (advanceConsumedThrough P t.shards f (metadataContiguous P f (committed kept))).1
    { t with
      tailConsumed := tailConsumed f contiguous
      perClientOrdered := fun c => t.perClientOrdered c + clientDelta (committed kept) c
      perClientOrderedEpoch := fun c =>
        if (committed kept).any (·.clientId = c) then t.cachedEpoch else t.perClientOrderedEpoch c
      globalBatchSeq := firstGoi + batches
      globalSeq := firstMessage + msgs
      exportCursor := exported.cursor
      exportSequence := exported.sequence
      completedRanges := if 0 < batches then t.completedRanges ++ [⟨firstGoi, firstGoi + batches⟩]
        else t.completedRanges }

end Commit

def commitEpoch (P : Platform) (t : Topic) (f : EpochInFlight) : Topic :=
  if t.capacityExhausted then t
  else
    let ws := Commit.writes P t f
    let t' := Commit.localEffects P t f (Commit.outcome t (Commit.guardAll t f.ready))
    { t' with cxl := t.cxl.writes ws, goiLog := t.goiLog ++ ws.filterMap CxlWrite.goiEntry? }

end Embarcadero
