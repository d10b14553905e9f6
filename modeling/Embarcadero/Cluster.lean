import Embarcadero.Frontier
import Embarcadero.Reservation
import Embarcadero.SlotOwnership

namespace Embarcadero

open Function (update)

def BatchHeader.drainReady (h : BatchHeader) : Bool :=
  h.valid && h.batchComplete && decide (0 < h.numMsg ∧ h.numMsg ≤ maxReasonableNumMsg)

def BatchHeader.stuck (h : BatchHeader) : Bool :=
  !h.batchReady && (h.publishCommitted || !h.retired) && (h.claimed || h.publishCommitted)

def BatchHeader.published (h : BatchHeader) : BatchHeader :=
  { h.publication with batchComplete := true, publishCommit := some h.pbrAbsoluteIndex }

/-- `scanned` is the history of the positions each scanner has pushed, and `frontier` the published
`consumed_through` read as a position, store by store. -/
structure Cluster where
  topic : Topic
  nextSlotSeq : Nat → Nat := fun _ => 0
  cachedConsumedSeq : Nat → Nat := fun _ => 0
  phase : Nat → Nat → ReceiverPhase := fun _ _ => .reserved
  collected : List PendingBatch5 := []
  lastPushedPbrIndex : Nat → Nat → Option Nat := fun _ _ => none
  stopThreads : Bool := false
  scanned : Nat → List Nat := fun _ => []
  frontier : Nat → Nat := fun _ => 0

inductive ClusterEvent
  | reserve (b : Nat)
  | refresh (b : Nat)
  | install (b l : Nat)
  | publish (b l : Nat)
  | scan (b i : Nat)
  | skip (b i : Nat)
  | stop
  /-- A sealed epoch buffer is extracted; `rest` stays in the other buffers. -/
  | extract (batchList rest : List PendingBatch5) (clock : PassClock)
  | sequencer (e : Event)
  | restart (n : Nat)

section

-- the batches the network delivers to each broker, in the order of their reservations
variable (incoming : Nat → Nat → BatchHeader)

def logicalOffset (b l : Nat) : Nat := ((List.range l).map fun j => (incoming b j).numMsg).sum

def reservation (b l : Nat) : BatchHeader :=
  { (incoming b l).reserved b l with startLogicalOffset := logicalOffset incoming b l }

def owner (x : Position) : SessionKey × Nat :=
  (⟨(incoming x.1 x.2).clientId, (incoming x.1 x.2).epoch⟩, (incoming x.1 x.2).batchSeq)

namespace Cluster

def fresh (P : Platform) : Cluster where topic := .fresh P

variable (P : Platform) (s : Cluster)

def observe (t : Topic) : Cluster :=
  { s with
    topic := t
    frontier := fun b => unwrapPBRConsumed (s.frontier b) (t.cxl.consumedSlot P.slots b) P.slots }

def writeSlot (b l : Nat) (h : BatchHeader) (q : ReceiverPhase) : Cluster :=
  { s with
    topic := { s.topic with cxl := s.topic.cxl.setSlot ⟨b, l % P.slots⟩ h }
    phase := update s.phase b (update (s.phase b) l q) }

def push (p : PendingBatch5) : Cluster :=
  { s with
    collected := s.collected ++ [p]
    scanned := update s.scanned p.brokerId (p.cachedPbrAbsoluteIndex :: s.scanned p.brokerId) }

def canReserve (b : Nat) : Prop :=
  b < numMaxBrokers ∧ (incoming b (s.nextSlotSeq b)).numMsg ≠ 0 ∧ (incoming b (s.nextSlotSeq b)).clientId < 2 ^ 32 ∧
    s.cachedConsumedSeq b ≤ s.nextSlotSeq b ∧
    s.nextSlotSeq b - s.cachedConsumedSeq b < P.slots - 1 ∧ s.nextSlotSeq b ≠ sequenceMax ∧
    (incoming b (s.nextSlotSeq b)).numMsg ≤ sequenceMax - logicalOffset incoming b (s.nextSlotSeq b)

instance (b : Nat) : Decidable (s.canReserve incoming P b) := inferInstanceAs (Decidable (_ ∧ _))

def slot (b i : Nat) : BatchHeader := s.topic.cxl.ring b i

def canScan (b i : Nat) : Prop :=
  b < numMaxBrokers ∧ i < P.slots ∧
    if s.stopThreads then (s.slot b i).drainReady = true
    else (s.slot b i).batchReady = true ∧ s.lastPushedPbrIndex b i ≠ some (s.slot b i).pbrAbsoluteIndex

instance (b i : Nat) : Decidable (s.canScan P b i) := inferInstanceAs (Decidable (_ ∧ _ ∧ _))

def scan (b i : Nat) : Cluster :=
  let l := (s.slot b i).pbrAbsoluteIndex
  { s.push (.ofSlot b i (s.slot b i)) with
    lastPushedPbrIndex := if s.stopThreads then s.lastPushedPbrIndex
      else update s.lastPushedPbrIndex b (update (s.lastPushedPbrIndex b) i (some l)) }

def step : ClusterEvent → Option Cluster
  | .reserve b =>
    if s.canReserve incoming P b then
      some { s with nextSlotSeq := update s.nextSlotSeq b (s.nextSlotSeq b + 1) }
    else none
  | .refresh b => some { s with
      cachedConsumedSeq := update s.cachedConsumedSeq b
        (PBR.refreshed P.slots (s.cachedConsumedSeq b) (s.topic.cxl.consumedThrough b)) }
  | .install b l =>
    if l < s.nextSlotSeq b ∧ s.phase b l = .reserved then
      some (s.writeSlot P b l (reservation incoming b l).claim .claimed)
    else none
  | .publish b l =>
    if l < s.nextSlotSeq b ∧ s.phase b l = .claimed then
      if (s.slot b (l % P.slots)).claimOwnedBy (reservation incoming b l) then
        some (s.writeSlot P b l (reservation incoming b l).published .published)
      else some { s with phase := update s.phase b (update (s.phase b) l .rejected) }
    else none
  | .scan b i => if s.canScan P b i then some (s.scan b i) else none
  | .skip b i =>
    if b < numMaxBrokers ∧ i < P.slots ∧ !s.stopThreads ∧ (s.slot b i).stuck then
      some (s.push (.skipMarker b i (s.slot b i)))
    else none
  | .stop => some { s with stopThreads := true }
  | .extract batchList rest clock =>
    if (batchList ++ rest).Perm s.collected then
      (Embarcadero.step P s.topic (.epoch batchList clock)).map fun t =>
        { s.observe P t with collected := rest }
    else none
  | .sequencer (.slotWrite ..) | .sequencer (.epoch ..) | .sequencer (.crash _) => none
  | .sequencer e => (Embarcadero.step P s.topic e).map (s.observe P)
  | .restart n => (Embarcadero.step P s.topic (.crash n)).map fun t =>
      { s.observe P t with
        collected := [], lastPushedPbrIndex := fun _ _ => none, stopThreads := false }

end Cluster

end

end Embarcadero
