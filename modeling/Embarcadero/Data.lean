import Mathlib

namespace Embarcadero

def numMaxBrokers : Nat := 32

/-- A session is a client together with its session epoch.  Both are 32-bit header fields, so
`MakeSessionKey` packs them without loss and the key is the pair. -/
structure SessionKey where
  clientId : Nat
  sessionEpoch : Nat
  deriving DecidableEq

def SessionKey.Admitted (k : SessionKey) : Prop := k.clientId ≠ 0 ∧ k.sessionEpoch ≠ 0

instance (k : SessionKey) : Decidable k.Admitted := inferInstanceAs (Decidable (_ ∧ _))

structure SlotAddr where
  brokerId : Nat
  slot : Nat
  deriving DecidableEq

/-- One PBR slot.  `flags` is split into its three bits, and `publishCommit = none` is
`kBatchHeaderPublishUncommitted`. -/
structure BatchHeader where
  batchSeq : Nat := 0
  clientId : Nat := 0
  numMsg : Nat := 0
  batchComplete : Bool := false
  brokerId : Nat := 0
  ordered : Bool := false
  claimed : Bool := false
  valid : Bool := false
  retired : Bool := false
  epochCreated : Nat := 0
  sessionEpoch : Nat := 0
  sessionEpoch32 : Nat := 0
  batchId : Nat := 0
  pbrAbsoluteIndex : Nat := 0
  totalSize : Nat := 0
  startLogicalOffset : Nat := 0
  logIdx : Nat := 0
  totalOrder : Nat := 0
  batchOffToExport : Nat := 0
  publishCommit : Option Nat := none
  deriving DecidableEq

def BatchHeader.publishCommitted (h : BatchHeader) : Bool :=
  h.publishCommit == some h.pbrAbsoluteIndex

/-- `BatchHeaderClaimOwnedBy`: the slot still carries the unpublished claim of `expected`. -/
def BatchHeader.claimOwnedBy (slot expected : BatchHeader) : Bool :=
  slot.pbrAbsoluteIndex == expected.pbrAbsoluteIndex && slot.batchId == expected.batchId &&
    slot.claimed && !slot.valid && !slot.retired && slot.publishCommit == none && !slot.batchComplete

def BatchHeader.clearPublishState (h : BatchHeader) : BatchHeader :=
  { h with
    publishCommit := none, batchComplete := false
    claimed := false, valid := false, retired := true }

def BatchHeader.epoch (h : BatchHeader) : Nat :=
  if h.sessionEpoch32 ≠ 0 then h.sessionEpoch32 else h.sessionEpoch

structure HoldBatchMetadata where
  logIdx : Nat := 0
  totalSize : Nat := 0
  batchId : Nat := 0
  batchSeq : Nat := 0
  sessionEpoch : Nat := 0
  pbrAbsoluteIndex : Nat := 0
  clientId : Nat := 0
  epochCreated : Nat := 0
  brokerId : Nat := 0
  numMsg : Nat := 0
  startLogicalOffset : Nat := 0
  slotOffset : Nat := 0
  deriving DecidableEq

def HoldBatchMetadata.key (m : HoldBatchMetadata) : SessionKey := ⟨m.clientId, m.sessionEpoch⟩

structure PendingBatch5 where
  hdr : Option SlotAddr := none
  brokerId : Nat := 0
  numMsg : Nat := 0
  clientId : Nat := 0
  batchSeq : Nat := 0
  sessionEpoch : Nat := 0
  slotOffset : Nat := 0
  epochCreated : Nat := 0
  skipped : Bool := false
  isHeldMarker : Bool := false
  fromHold : Bool := false
  holdMeta : HoldBatchMetadata := {}
  cachedLogIdx : Nat := 0
  cachedTotalSize : Nat := 0
  cachedBatchId : Nat := 0
  cachedPbrAbsoluteIndex : Nat := 0
  cachedStartLogicalOffset : Nat := 0
  deriving DecidableEq

namespace PendingBatch5

def anonymousClient : Nat := 2 ^ 64 - 1

def key (p : PendingBatch5) : SessionKey := ⟨p.clientId, p.sessionEpoch⟩

def cachedMeta (p : PendingBatch5) : HoldBatchMetadata where
  logIdx := p.cachedLogIdx
  totalSize := p.cachedTotalSize
  batchId := p.cachedBatchId
  batchSeq := p.batchSeq
  sessionEpoch := p.sessionEpoch
  pbrAbsoluteIndex := p.cachedPbrAbsoluteIndex
  clientId := p.clientId
  epochCreated := p.epochCreated
  brokerId := p.brokerId
  numMsg := p.numMsg
  startLogicalOffset := p.cachedStartLogicalOffset
  slotOffset := p.slotOffset

/-- What `CommitEpoch` uses for a batch: the hold-time copy if it was drained from hold, the
scanner's cached fields otherwise. -/
def commitMeta (p : PendingBatch5) : HoldBatchMetadata :=
  if p.fromHold then p.holdMeta else p.cachedMeta

def isMarker (p : PendingBatch5) : Bool := p.skipped || p.isHeldMarker

def ofSlot (b slot : Nat) (h : BatchHeader) : PendingBatch5 where
  hdr := some ⟨b, slot⟩
  brokerId := b
  numMsg := h.numMsg
  clientId := h.clientId
  batchSeq := h.batchSeq
  sessionEpoch := h.epoch
  slotOffset := slot
  epochCreated := h.epochCreated
  cachedLogIdx := h.logIdx
  cachedTotalSize := h.totalSize
  cachedBatchId := h.batchId
  cachedPbrAbsoluteIndex := h.pbrAbsoluteIndex
  cachedStartLogicalOffset := h.startLogicalOffset

def skipMarker (b slot : Nat) (h : BatchHeader) : PendingBatch5 :=
  { ofSlot b slot h with numMsg := 0, skipped := true }

@[simp] theorem cachedMeta_key (p : PendingBatch5) : p.cachedMeta.key = p.key := rfl
@[simp] theorem cachedMeta_batchSeq (p : PendingBatch5) : p.cachedMeta.batchSeq = p.batchSeq := rfl
@[simp] theorem cachedMeta_numMsg (p : PendingBatch5) : p.cachedMeta.numMsg = p.numMsg := rfl

end PendingBatch5

structure HoldEntry5 where
  batch : PendingBatch5
  holdMeta : HoldBatchMetadata
  holdStartNs : Nat := 0
  deriving DecidableEq

structure Order5SlotIdentity where
  brokerId : Nat
  slotOffset : Nat
  pbrIndex : Nat
  deriving DecidableEq

def PendingBatch5.slotIdentity (p : PendingBatch5) : Order5SlotIdentity :=
  ⟨p.brokerId, p.slotOffset, p.cachedPbrAbsoluteIndex⟩

def HoldBatchMetadata.slotIdentity (m : HoldBatchMetadata) : Order5SlotIdentity :=
  ⟨m.brokerId, m.slotOffset, m.pbrAbsoluteIndex⟩

structure GOIEntry where
  globalSeq : Nat := 0
  batchId : Nat := 0
  totalOrder : Nat := 0
  brokerId : Nat := 0
  epochSequenced : Nat := 0
  blogOffset : Nat := 0
  payloadSize : Nat := 0
  messageCount : Nat := 0
  numReplicated : Nat := 0
  clientId : Nat := 0
  clientSeq : Nat := 0
  pbrIndex : Nat := 0
  cumulativeMessageCount : Nat := 0
  sessionEpoch : Nat := 0
  deriving DecidableEq

def GOIEntry.key (e : GOIEntry) : SessionKey := ⟨e.clientId, e.sessionEpoch⟩

end Embarcadero
