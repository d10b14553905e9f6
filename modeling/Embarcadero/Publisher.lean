import Embarcadero.Machine

namespace Embarcadero

open Function (update)

structure BatchBody where
  payload : Nat
  numMsg : Nat
  wireBytes : Nat
  deriving DecidableEq

/-- `UnackedBatch`.  `pooled` says whether it pins its pool slot or owns a copy. -/
structure UnackedBatch where
  body : BatchBody
  originalBatchSeq : Nat
  currentBatchSeq : Nat
  sessionEpoch : Nat
  pooled : Bool
  deriving DecidableEq

structure QueuedBatch where
  body : BatchBody
  batchSeq : Nat
  deriving DecidableEq

structure SentBatch where
  body : BatchBody
  batchSeq : Nat
  sessionEpoch32 : Nat
  deriving DecidableEq

/-- A `SessionFenced` message.  It carries no session epoch: `producedFor` is the one the broker had
in mind. -/
structure FenceSignal where
  producedFor : Nat
  committedBatchSeq : Nat
  hasCommittedPrefix : Bool
  deriving DecidableEq

def SentFence.signal (s : SentFence) : FenceSignal :=
  ⟨s.ackSession.sessionEpoch, s.committedBatchSeq, s.hasCommittedPrefix⟩

inductive SessionOpenStatus
  | ok
  | fenced
  | epochStale
  | resourceExhausted
  deriving DecidableEq

structure SessionOpenAck where
  committedHwm : Nat
  status : SessionOpenStatus
  assignedSessionEpoch : Nat
  hasCommittedPrefix : Bool
  deriving DecidableEq

def Topic.sessionOpenAck (t : Topic) (k : SessionKey) : SessionOpenAck :=
  let e := t.cxl.sessions.get k
  if ¬k.Admitted ∨ t.capacityExhausted ∨ (t.cxl.sessions.findOrCreate k).isNone then
    ⟨0, .resourceExhausted, k.sessionEpoch, false⟩
  else
    { committedHwm := if 0 < e.expectedSeq then
        reconnectAnswerHwm e.committedHwm (Topic.scanGOICommittedHwm t.cxl k) else 0
      status := if e.fenced then .fenced else .ok
      assignedSessionEpoch := k.sessionEpoch
      hasCommittedPrefix := 0 < e.expectedSeq }

def SessionOpenAck.signal (a : SessionOpenAck) : FenceSignal :=
  ⟨a.assignedSessionEpoch, if a.hasCommittedPrefix then a.committedHwm else 0, a.hasCommittedPrefix⟩

structure Rollover where
  signal : FenceSignal
  oldEpoch : Nat
  deriving DecidableEq

structure Publisher where
  ackLevel : Nat
  ownedRtoCopy : Bool
  sessionEpoch : Nat := 0
  requestedSessionEpoch : Nat := 1
  unackedBatches : List UnackedBatch := []
  unackedBytes : Nat := 0
  sessionSentHwm : Nat := 0
  sessionRetirePrefixHwm : Nat := 0
  sessionNextRetireBatchSeq : Nat := 0
  sessionTrimCommittedHwm : Option Nat := none
  ackReceived : Nat := 0
  ackMessageBase : Nat := 0
  order5LastAckHwm : Nat := 0
  prevAckPerSock : Nat → Option Nat := fun _ => none
  publishFinished : Bool := false
  ackDrainActive : Bool := false
  shutdown : Bool := false
  lastAckDrainFenceHwm : Option Nat := none
  /-- Batches on the send queues, and those between the send and `RecordUnackedBatch`. -/
  queue : List QueuedBatch := []
  sending : List SentBatch := []
  nextBatchSeq : Nat := 0
  publishedMessages : Nat := 0
  rollover : Option Rollover := none

def numMsgs (l : List UnackedBatch) : Nat := (l.map (·.body.numMsg)).sum
def wireBytes (l : List UnackedBatch) : Nat := (l.map (·.body.wireBytes)).sum

def nextSessionEpochAfterFence (oldEpoch : Nat) : Nat := if oldEpoch = 0 then 1 else oldEpoch + 1

def FenceSignal.covers (s : FenceSignal) (r : UnackedBatch) : Bool :=
  s.hasCommittedPrefix && decide (r.originalBatchSeq ≤ s.committedBatchSeq)

namespace Publisher

def skipHoles (front : Option Nat) (hwm : Nat) : Nat → Nat → Nat
  | 0, next => next
  | fuel + 1, next =>
    if hwm < next ∨ front = some next then next else skipHoles front hwm fuel (next + 1)

def advanceRetireThroughTrimmedHoles (p : Publisher) : Publisher :=
  match p.sessionTrimCommittedHwm with
  | none => p
  | some hwm =>
    let next := p.sessionNextRetireBatchSeq
    let orphans := p.unackedBatches.takeWhile (·.currentBatchSeq < next)
    let rest := p.unackedBatches.dropWhile (·.currentBatchSeq < next)
    { p with
      unackedBatches := rest
      unackedBytes := p.unackedBytes - wireBytes orphans
      sessionNextRetireBatchSeq :=
        skipHoles (rest.head?.map (·.currentBatchSeq)) hwm (hwm + 1 - next) next }

/-- The records `TrimUnackedThroughBatchSeqLocked` erases that still count towards the retired
prefix. -/
def trimCredit (p : Publisher) (hwm : Nat) : List UnackedBatch :=
  p.unackedBatches.filter fun r =>
    decide (r.originalBatchSeq ≤ hwm) && decide (p.sessionNextRetireBatchSeq ≤ r.currentBatchSeq)

/-- `TrimUnackedThroughBatchSeqLocked`; it compares sequence numbers whatever their epoch. -/
def trimUnackedThroughBatchSeq (p : Publisher) (hwm : Nat) : Publisher :=
  advanceRetireThroughTrimmedHoles { p with
    unackedBatches := p.unackedBatches.filter (hwm < ·.originalBatchSeq)
    unackedBytes := p.unackedBytes - wireBytes (p.unackedBatches.filter (·.originalBatchSeq ≤ hwm))
    sessionTrimCommittedHwm := some (max hwm (p.sessionTrimCommittedHwm.getD hwm))
    sessionRetirePrefixHwm := p.sessionRetirePrefixHwm + numMsgs (p.trimCredit hwm) }

def insertUnacked (r : UnackedBatch) : List UnackedBatch → List UnackedBatch
  | [] => [r]
  | q :: rest => if r.currentBatchSeq < q.currentBatchSeq then r :: q :: rest
    else q :: insertUnacked r rest

def recordUnackedBatch (p : Publisher) (b : SentBatch) : Publisher :=
  if p.ackLevel < 1 ∨ b.sessionEpoch32 = 0 then p
  else if p.sessionTrimCommittedHwm.any (b.batchSeq ≤ ·) then p.advanceRetireThroughTrimmedHoles
  else
    { p with
      sessionSentHwm := p.sessionSentHwm + b.body.numMsg
      unackedBytes := p.unackedBytes + b.body.wireBytes
      unackedBatches := insertUnacked
        ⟨b.body, b.batchSeq, b.batchSeq, b.sessionEpoch32, !p.ownedRtoCopy⟩ p.unackedBatches }

def needsHeal (p : Publisher) (r : UnackedBatch) : Bool :=
  p.sessionTrimCommittedHwm.any fun hwm =>
    decide (r.currentBatchSeq < p.sessionNextRetireBatchSeq) ||
      decide (p.sessionNextRetireBatchSeq < r.currentBatchSeq) &&
        decide (p.sessionNextRetireBatchSeq ≤ hwm)

def heal (p : Publisher) : Publisher :=
  if p.unackedBatches.head?.any p.needsHeal then p.advanceRetireThroughTrimmedHoles else p

def retireFront (p : Publisher) (ackHwm : Nat) : Option Publisher :=
  match p.unackedBatches with
  | [] => none
  | r :: rest =>
    let ackEnd := p.sessionRetirePrefixHwm + r.body.numMsg
    if r.currentBatchSeq ≠ p.sessionNextRetireBatchSeq ∨ ackHwm < ackEnd then none
    else some { p with
      sessionRetirePrefixHwm := ackEnd
      sessionNextRetireBatchSeq := p.sessionNextRetireBatchSeq + 1
      unackedBytes := p.unackedBytes - r.body.wireBytes
      unackedBatches := rest }

def completeLoop (ackHwm : Nat) : Nat → Publisher → Publisher
  | 0, p => p
  | fuel + 1, p =>
    match p.heal.retireFront ackHwm with
    | none => p.heal
    | some p => completeLoop ackHwm fuel p

def completeUnackedThrough (p : Publisher) (ackHwm : Nat) : Publisher :=
  if p.ackLevel < 1 then p else completeLoop ackHwm p.unackedBatches.length p

def wireAck (p : Publisher) (sock acked : Nat) : Publisher :=
  let global := max p.ackMessageBase acked
  if (p.prevAckPerSock sock).any (global < ·) ∨ global ≤ p.order5LastAckHwm then p
  else
    let new := global - p.order5LastAckHwm
    let p := completeUnackedThrough { p with
      order5LastAckHwm := global
      prevAckPerSock := update p.prevAckPerSock sock (some global) } global
    { p with ackReceived := p.ackReceived + new }

def beginFence (p : Publisher) (s : FenceSignal) : Publisher :=
  if p.shutdown then p
  else if p.publishFinished && decide (2 ≤ p.ackLevel) && p.ackDrainActive && s.hasCommittedPrefix then
    -- ACK2 drain: credit first, reopen only for news about a remaining suffix
    let credit := numMsgs (p.trimCredit s.committedBatchSeq)
    let p := p.trimUnackedThroughBatchSeq s.committedBatchSeq
    let p := { p with ackReceived := p.ackReceived + credit }
    if p.unackedBatches = [] ∨ p.lastAckDrainFenceHwm = some s.committedBatchSeq then p
    else { p with
      lastAckDrainFenceHwm := some s.committedBatchSeq
      rollover := some ⟨s, p.sessionEpoch⟩ }
  else { p with rollover := some ⟨s, p.sessionEpoch⟩ }

def fencedCommitted (p : Publisher) (r : Rollover) : List UnackedBatch :=
  p.unackedBatches.filter fun b => b.sessionEpoch == r.oldEpoch && r.signal.covers b

def fencedSuffix (p : Publisher) (r : Rollover) : List UnackedBatch :=
  (p.unackedBatches.filter fun b => b.sessionEpoch == r.oldEpoch && !r.signal.covers b).insertionSort
    fun a b => a.originalBatchSeq ≤ b.originalBatchSeq

def resubmitted (accepted : Option Nat) (suffix : List UnackedBatch) : Nat :=
  min (accepted.getD 0) suffix.length

def renumbered (accepted : Option Nat) (suffix : List UnackedBatch) : Nat :=
  min ((accepted.map (· + 1)).getD 0) suffix.length

def requeue (suffix : List (UnackedBatch × Nat)) : List QueuedBatch :=
  (suffix.filter (·.1.pooled)).map fun (r, i) => ⟨r.body, i⟩

def resend (newEpoch : Nat) (suffix : List (UnackedBatch × Nat)) : List UnackedBatch :=
  (suffix.filter (!·.1.pooled)).map fun (r, i) =>
    { r with currentBatchSeq := i, sessionEpoch := newEpoch }

/-- `HandleSessionFenced` from the drained senders on.  `accepted` is the number of resubmissions
that succeed, or `none` if no recovery queue is active; a failure shuts the publisher down. -/
def finishFence (p : Publisher) (r : Rollover) (accepted : Option Nat) : Publisher :=
  let newEpoch := nextSessionEpochAfterFence r.oldEpoch
  let suffix := p.fencedSuffix r
  let sent := (suffix.take (resubmitted accepted suffix)).zipIdx
  let base := p.ackReceived + numMsgs (p.fencedCommitted r)
  { p with
    requestedSessionEpoch := newEpoch
    sessionEpoch := newEpoch
    unackedBatches := resend newEpoch sent
    unackedBytes := wireBytes (resend newEpoch sent)
    sessionSentHwm := numMsgs (resend newEpoch sent)
    sessionRetirePrefixHwm := base
    sessionNextRetireBatchSeq := 0
    sessionTrimCommittedHwm := none
    ackReceived := base
    ackMessageBase := base
    order5LastAckHwm := base
    queue := p.queue ++ requeue sent
    nextBatchSeq := renumbered accepted suffix
    shutdown := p.shutdown || accepted.all (· < suffix.length)
    rollover := none }

def adoptEpoch (p : Publisher) (epoch : Nat) : Publisher :=
  { p with sessionEpoch := epoch, requestedSessionEpoch := epoch }

def sessionOpened (p : Publisher) (a : SessionOpenAck) : Publisher :=
  if a.hasCommittedPrefix ∧ 1 ≤ p.ackLevel then
    (p.adoptEpoch a.assignedSessionEpoch).trimUnackedThroughBatchSeq a.committedHwm
  else p.adoptEpoch a.assignedSessionEpoch

def stampEpoch (p : Publisher) : Nat :=
  if p.sessionEpoch = 0 then p.requestedSessionEpoch else p.sessionEpoch

def Drained (p : Publisher) : Prop := p.publishedMessages ≤ p.ackMessageBase + p.sessionSentHwm

instance (p : Publisher) : Decidable p.Drained := inferInstanceAs (Decidable (_ ≤ _))

end Publisher

inductive PublisherEvent
  | sealBatch (b : BatchBody)
  | send (i : Nat)
  | record (i : Nat)
  | wireAck (sock acked : Nat)
  | fence (s : FenceSignal)
  | sessionOpenAck (a : SessionOpenAck) (allowFenceRecovery : Bool)
  | drained (accepted : Option Nat)
  | drainTimeout
  | finishPublishing

namespace PublisherEvent

def fence? (p : Publisher) : PublisherEvent → Option FenceSignal
  | .fence s => some s
  | .sessionOpenAck a allow =>
    if allow ∧ (a.status = .fenced ∨ a.status = .epochStale) ∧ a.assignedSessionEpoch ≠ 0 ∧
      p.rollover = none then some a.signal else none
  | _ => none

end PublisherEvent

def Publisher.step (p : Publisher) : PublisherEvent → Option Publisher
  | .sealBatch b => some { p with
      queue := p.queue ++ [⟨b, p.nextBatchSeq⟩]
      nextBatchSeq := p.nextBatchSeq + 1
      publishedMessages := p.publishedMessages + b.numMsg }
  | .send i => p.queue[i]?.map fun q => { p with
      queue := p.queue.eraseIdx i
      sending := p.sending ++ [⟨q.body, q.batchSeq, p.stampEpoch⟩] }
  | .record i => p.sending[i]?.map fun b =>
      { p.recordUnackedBatch b with sending := p.sending.eraseIdx i }
  | .wireAck sock acked => some (p.wireAck sock acked)
  | .fence s => if p.rollover = none then some (p.beginFence s) else none
  | .sessionOpenAck a allow =>
    match PublisherEvent.fence? p (.sessionOpenAck a allow) with
    | some s => some (p.beginFence s)
    | none => some (if a.status = .ok ∧ a.assignedSessionEpoch ≠ 0 then p.sessionOpened a else p)
  | .drained accepted =>
    p.rollover.bind fun r => if p.Drained then some (p.finishFence r accepted) else none
  | .drainTimeout => p.rollover.map fun _ => { p with shutdown := true, rollover := none }
  | .finishPublishing =>
    some { p with publishFinished := true, ackDrainActive := decide (2 ≤ p.ackLevel) }

end Embarcadero
