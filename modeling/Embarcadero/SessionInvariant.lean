import Embarcadero.CommitEffects
import Embarcadero.Machine
import Embarcadero.Density

namespace Embarcadero

open Function (update)

def seqsOf (k : SessionKey) (ready : List PendingBatch5) : List Nat :=
  ((Commit.committed ready).filter (·.key = k)).map (·.batchSeq)

@[simp] theorem seqsOf_nil (k : SessionKey) : seqsOf k [] = [] := rfl

theorem seqsOf_append (k : SessionKey) (a b : List PendingBatch5) : seqsOf k (a ++ b) = seqsOf k a ++ seqsOf k b := by
  simp [seqsOf, Commit.committed, Commit.batches]

variable {sh : Level5ShardState} {ready : List PendingBatch5} {epoch : Nat} {p : PendingBatch5} {k : SessionKey}
  {table : SessionTable}

theorem seqsOf_marker (k : SessionKey) (h : p.isMarker = true) :
    seqsOf k [p] = [] := by simp [seqsOf, Commit.committed, Commit.batches, h]

theorem seqsOf_other (h : p.commitMeta.key ≠ k) : seqsOf k [p] = [] := by
  cases hp : p.isMarker <;> simp [seqsOf, Commit.committed, Commit.batches, hp, h]

theorem seqsOf_batch (h : p.isMarker = false) : seqsOf p.commitMeta.key [p] = [p.commitMeta.batchSeq] := by
  simp [seqsOf, Commit.committed, Commit.batches, h]

section

variable (ident : Nat → SessionKey × Nat)

structure Classifiable (n i : Nat) (p : PendingBatch5) : Prop where
  batch : p.isMarker = false
  scanned : p.fromHold = false
  identified : ident p.cachedBatchId = (p.key, p.batchSeq)
  client : p.clientId ≠ 0
  shard : p.clientId % n = i

structure HeldOk (k : SessionKey) (s : Nat) (he : HoldEntry5) : Prop where
  batch : he.batch.isMarker = false
  key : he.batch.key = k
  seq : he.batch.batchSeq = s
  copied : he.holdMeta = he.batch.cachedMeta
  identified : ident he.batch.cachedBatchId = (k, s)

structure ShardOk (n i : Nat) (sh : Level5ShardState) : Prop where
  held : ∀ k s he, (s, he) ∈ sh.holdBuffer k → HeldOk ident k s he
  deferred : ∀ p ∈ sh.deferredLevel5, Classifiable ident n i p
  clients : ∀ k ∈ sh.clientsWithHeldBatches, k.clientId ≠ 0 ∧ k.clientId % n = i
  epoch : ∀ k, k.clientId ≠ 0 → (sh.clientState k).sessionEpoch = 0 ∨ (sh.clientState k).sessionEpoch = k.sessionEpoch

structure ReadyOk (n i : Nat) (p : PendingBatch5) : Prop where
  shard : p.commitMeta.clientId % n = i
  consistent : p.HoldConsistent

structure TableOk (table : SessionTable) (recovered : SessionKey → Nat) : Prop where
  active_of_expected : ∀ k : SessionKey, k.Admitted → 0 < table.expected k → (table.get k).active
  active_of_fenced : ∀ k : SessionKey, k.Admitted → table.fenced k → (table.get k).active
  hwm : ∀ k : SessionKey, k.Admitted → (table.get k).committedHwm = table.expected k - 1
  epoch : ∀ k, k.clientId ≠ 0 → (table.get k).epoch = 0 ∨ (table.get k).epoch = k.sessionEpoch
  recovered : ∀ k : SessionKey, k.Admitted → recovered k ≤ table.expected k
  keys : table.KeysOk

structure NoteOk (table : SessionTable) (n : SessionFenceNotification) : Prop where
  admitted : n.key.Admitted
  fenced : table.fenced n.key = true
  isPrefix : n.hasCommittedPrefix = decide (0 < table.expected n.key)
  hwm : n.committedBatchSeq = table.expected n.key - 1

def frontier (table : SessionTable) (sh : Level5ShardState) (k : SessionKey) : Nat :=
  max (sh.clientState k).nextExpected (table.expected k)

structure SessionOk (epoch : Nat) (table : SessionTable) (sh : Level5ShardState)
    (ready : List PendingBatch5) (k : SessionKey) : Prop where
  unfenced : (sh.clientState k).fenced = false
  ready : seqsOf k ready = List.range' (table.expected k) (frontier table sh k - table.expected k)
  emitted : ∀ s, (sh.clientEmittedTracker k).isEmitted s = true → s < frontier table sh k
  stored : ∀ id, sh.dedup.Stored id → (ident id).1 = k → (ident id).2 < frontier table sh k
  recent : table.expected k < (sh.clientState k).nextExpected → (sh.clientState k).lastEpoch = epoch
  held : sh.holdBuffer k ≠ [] → table.expected k ≤ (sh.clientState k).nextExpected

structure Untouched (k : SessionKey) (sh sh' : Level5ShardState)
    (ready ready' : List PendingBatch5) : Prop where
  state : sh'.clientState k = sh.clientState k
  tracker : sh'.clientEmittedTracker k = sh.clientEmittedTracker k
  hold : sh'.holdBuffer k = sh.holdBuffer k
  stored : ∀ id, sh'.dedup.Stored id → sh.dedup.Stored id ∨ (ident id).1 ≠ k
  ready : seqsOf k ready' = seqsOf k ready

end

variable {ident : Nat → SessionKey × Nat}

theorem SessionOk.untouched {sh' : Level5ShardState} {ready' : List PendingBatch5}
    (h : SessionOk ident epoch table sh ready k) (hu : Untouched ident k sh sh' ready ready') :
    SessionOk ident epoch table sh' ready' k := by
  have hf : frontier table sh' k = frontier table sh k := by rw [frontier, frontier, hu.state]
  constructor
  · rw [hu.state]
    exact h.unfenced
  · rw [hu.ready, hf]
    exact h.ready
  · rw [hu.tracker, hf]
    exact h.emitted
  · intro id hid hk
    rw [hf]
    exact h.stored id ((hu.stored id hid).resolve_right (absurd hk)) hk
  · rw [hu.state]
    exact h.recent
  · rw [hu.state, hu.hold]
    exact h.held

theorem SessionOk.sameTable {table' : SessionTable} (h : SessionOk ident epoch table sh ready k)
    (hexp : table'.expected k = table.expected k) : SessionOk ident epoch table' sh ready k := by
  have hf : frontier table' sh k = frontier table sh k := by rw [frontier, frontier, hexp]
  constructor
  · exact h.unfenced
  · rw [hf, hexp]
    exact h.ready
  · rw [hf]
    exact h.emitted
  · rw [hf]
    exact h.stored
  · rw [hexp]
    exact h.recent
  · rw [hexp]
    exact h.held

end Embarcadero
