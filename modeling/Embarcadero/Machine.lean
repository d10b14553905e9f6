import Embarcadero.Recovery
import Embarcadero.Lib.Runs

/-! The sequencer, the producers that write the rings, `CommittedSeqUpdaterThread`, the ACK threads
on the head broker and sequencer restarts, as one interleaved machine. -/

namespace Embarcadero

open Function (update)

/-- What `BrokerScannerWorker5` pushes: a batch that points back at the slot it was read from. -/
def PendingBatch5.Scanned (p : PendingBatch5) : Prop :=
  p.fromHold = false ∧ p.isHeldMarker = false ∧ p.hdr = some ⟨p.brokerId, p.slotOffset⟩

instance (p : PendingBatch5) : Decidable p.Scanned := inferInstanceAs (Decidable (_ ∧ _))

def maxEpochAge : Nat := 2000

def PendingBatch5.markStale (currentEpoch : Nat) (p : PendingBatch5) : PendingBatch5 :=
  if !p.skipped && maxEpochAge < (currentEpoch % 2 ^ 16 + 2 ^ 16 - p.epochCreated) % 2 ^ 16 then
    { p with skipped := true }
  else p

inductive Event
  | slotWrite (a : SlotAddr) (h : BatchHeader)
  | admitSession (k : SessionKey)
  | epoch (batchList : List PendingBatch5) (clock : PassClock)
  | idleTick (clock : PassClock)
  | finalDrain (clock : PassClock)
  | commit
  | tail
  | updateCommittedSeq (drained : Nat)
  /-- The sequencer dies after `n` more stores of the commit in progress; a new one starts. -/
  | crash (n : Nat)
  | bumpControlEpoch
  | takeFenceNote (k : SessionKey)
  | ackEpochCheck (k : SessionKey) (refresh : Bool)
  | ackRelay (k : SessionKey)

namespace Topic

def tryAdmitSession (t : Topic) (k : SessionKey) : Topic :=
  { t with cxl.sessions :=
      if k.Admitted ∧ ¬t.capacityExhausted then (t.cxl.sessions.findOrCreate k).getD t.cxl.sessions
      else t.cxl.sessions }

def beginEpoch (P : Platform) (t : Topic) (batchList : List PendingBatch5) (clock : PassClock) :
    Topic :=
  let t := { t with
    currentEpochForHold := t.currentEpochForHold + 1
    cachedEpoch := t.cxl.controlEpoch }
  let batchList := batchList.map (·.markStale t.cachedEpoch)
  let seen := fun b => decide (b < numMaxBrokers) && batchList.any (·.brokerId = b)
  let contiguous := fun b => if seen b then t.cxl.consumedSlot P.slots b else 0
  let (t, ready) := processLevel5Batches P clock t (batchList.filter (·.clientId ≠ 0))
  let ready := batchList.filter (·.clientId = 0) ++ ready
  { t with inFlight := some ⟨ready, batchList, seen, contiguous⟩ }

def idleTick (P : Platform) (t : Topic) (clock : PassClock) : Topic :=
  let (t, ready) := processLevel5Batches P clock t []
  { t with inFlight := some ⟨ready, [], fun _ => false, fun _ => 0⟩ }

/-- The last hold and deferred drain before shutdown, which samples `consumed_through` only after
classification. -/
def finalDrain (P : Platform) (t : Topic) (clock : PassClock) : Topic :=
  let (t, ready) := processLevel5Batches P clock t []
  let seen := fun b => decide (b < numMaxBrokers) && ready.any (·.commitMeta.brokerId = b)
  let contiguous := fun b => if seen b then t.cxl.consumedSlot P.slots b else 0
  { t with inFlight := some ⟨ready, [], seen, contiguous⟩ }

def commit (P : Platform) (t : Topic) (f : EpochInFlight) : Topic :=
  { commitEpoch P t f with inFlight := none }

def tailWrites (t : Topic) : List CxlWrite :=
  t.tailConsumed.map fun s => .consumedThrough s.1 s.2

def finishTail (t : Topic) : Topic :=
  { t with cxl := t.cxl.writes t.tailWrites, tailConsumed := [] }

def pendingWrites (P : Platform) (t : Topic) : List CxlWrite :=
  match t.inFlight with
  | some f => if t.capacityExhausted then [] else Commit.writes P t f
  | none => t.tailWrites

def surviving (P : Platform) (t : Topic) (n : Nat) : CxlMemory :=
  t.cxl.writes ((t.pendingWrites P).take n)

def crash (P : Platform) (t : Topic) (n : Nat) : Topic :=
  { sequencer5 P (t.surviving P n) with
    fenceNotes := t.fenceNotes
    sentFences := t.sentFences
    goiLog := t.goiLog ++ ((t.pendingWrites P).take n).filterMap CxlWrite.goiEntry? }

def ackRelayEpochValid (t : Topic) (client : Nat) : Bool :=
  t.perClientOrderedEpoch client = 0 || !shouldWithholdAckRelay (t.perClientOrderedEpoch client) t.cachedEpoch

def scanGOICommittedHwm (c : CxlMemory) (k : SessionKey) : Option Nat :=
  ((List.range c.committedLimit).reverse.find? fun i =>
    (c.goi i).globalSeq = i && (c.goi i).key = k).map fun i => (c.goi i).clientSeq

/-- The EPOCH_STALE relay of an ACK thread that has withheld for a lease: it reports what
`ReadSessionSnapshot` finds, unless the GOI already covers the entry. -/
def relayEpochStale (t : Topic) (k : SessionKey) : Topic :=
  let e := t.cxl.sessions.get k
  let goiHwm := scanGOICommittedHwm t.cxl k
  { t with
    ackWithheld := update t.ackWithheld k false
    sentFences := if shouldTerminalFenceAckRelay (e.expectedSeq - 1) goiHwm then
        t.sentFences ++ [⟨k, reconnectAnswerHwm e.committedHwm goiHwm, 0 < e.expectedSeq⟩]
      else t.sentFences }

def takeSessionFenceNotification (t : Topic) (k : SessionKey) (n : SessionFenceNotification) :
    Topic :=
  { t with
    pendingSessionFences := update t.pendingSessionFences k.clientId none
    sentFences := t.sentFences ++ [⟨k, n.committedBatchSeq, n.hasCommittedPrefix⟩] }

def Idle (t : Topic) : Prop := t.inFlight.isNone = true ∧ t.tailConsumed = []

instance (t : Topic) : Decidable t.Idle := inferInstanceAs (Decidable (_ ∧ _))

end Topic

def step (P : Platform) (t : Topic) : Event → Option Topic
  | .slotWrite a h => some { t with cxl := t.cxl.setSlot a h }
  | .admitSession k => some (t.tryAdmitSession k)
  | .epoch batchList clock =>
    if t.Idle ∧ ∀ p ∈ batchList, p.Scanned then some (t.beginEpoch P batchList clock) else none
  | .idleTick clock => if t.Idle then some (t.idleTick P clock) else none
  | .finalDrain clock => if t.Idle then some (t.finalDrain P clock) else none
  | .commit => t.inFlight.map (t.commit P)
  | .tail => some t.finishTail
  | .updateCommittedSeq n => some (t.committedSeqUpdater n)
  | .crash n => some (t.crash P n)
  | .bumpControlEpoch => some { t with cxl.controlEpoch := t.cxl.controlEpoch + 1 }
  | .takeFenceNote k =>
    (t.pendingSessionFences k.clientId).map (t.takeSessionFenceNotification k)
  | .ackEpochCheck k refresh =>
    let t := if refresh then { t with cachedEpoch := t.cxl.controlEpoch } else t
    let withhold := k.sessionEpoch ≠ 0 && !t.ackRelayEpochValid k.clientId
    some { t with ackWithheld := update t.ackWithheld k withhold }
  | .ackRelay k => if t.ackWithheld k then some (t.relayEpochStale k) else none

end Embarcadero
