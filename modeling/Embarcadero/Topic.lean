import Embarcadero.SequencerUtils

/-! The state of one ORDER=5 topic: what lives in shared CXL memory and survives a sequencer
crash, and what the sequencer process keeps for itself. -/

namespace Embarcadero

def maxSessions : Nat := 4096

/-- `SessionEntry`; the state word is split into its two flags and the epoch. -/
structure SessionEntry where
  expectedSeq : Nat := 0
  committedHwm : Nat := 0
  highestSequenced : Nat := 0
  active : Bool := false
  fenced : Bool := false
  epoch : Nat := 0
  deriving DecidableEq

structure SessionTable where
  keys : List SessionKey := []
  entry : SessionKey → Option SessionEntry := fun _ => none

structure SessionPublishSnapshot where
  sessionEpoch : Nat := 0
  expectedSeq : Nat := 0
  committedHwm : Nat := 0
  highestSequenced : Nat := 0
  fenced : Bool := false
  deriving DecidableEq

inductive SessionStore
  | expectedSeq (v : Nat)
  | committedHwm (v : Nat)
  | highestSequenced (v : Nat)
  | stateWord (epoch : Nat) (fenced : Bool)
  deriving DecidableEq

def SessionEntry.apply (e : SessionEntry) : SessionStore → SessionEntry
  | .expectedSeq v => { e with expectedSeq := max e.expectedSeq v }
  | .committedHwm v => { e with committedHwm := max e.committedHwm v }
  | .highestSequenced v => { e with highestSequenced := max e.highestSequenced v }
  | .stateWord epoch fenced =>
    { e with active := true, fenced := e.fenced || fenced, epoch := epoch }

namespace SessionTable

/-- `FindOrCreateSessionEntry`: entries are never deleted, so a new key is refused exactly when
the table is full. -/
def findOrCreate (t : SessionTable) (k : SessionKey) : Option SessionTable :=
  match t.entry k with
  | some _ => some t
  | none =>
    if t.keys.length < maxSessions then
      some { keys := k :: t.keys, entry := Function.update t.entry k (some {}) }
    else none

def store (t : SessionTable) (k : SessionKey) (s : SessionStore) : SessionTable :=
  { t with entry := Function.update t.entry k ((t.entry k).map (·.apply s)) }

def publishStores (s : SessionPublishSnapshot) : List SessionStore :=
  [.expectedSeq s.expectedSeq, .committedHwm s.committedHwm, .highestSequenced s.highestSequenced,
    .stateWord s.sessionEpoch s.fenced]

def publish (t : SessionTable) (k : SessionKey) (s : SessionPublishSnapshot) : Option SessionTable :=
  if s.sessionEpoch = 0 then some t
  else (t.findOrCreate k).map fun t => (publishStores s).foldl (·.store k ·) t

def get (t : SessionTable) (k : SessionKey) : SessionEntry := (t.entry k).getD {}

def expected (t : SessionTable) (k : SessionKey) : Nat := (t.get k).expectedSeq
def fenced (t : SessionTable) (k : SessionKey) : Bool := (t.get k).fenced

variable {k k' : SessionKey} {t t' : SessionTable}

theorem findOrCreate_eq_some (h : t.findOrCreate k = some t') :
    t'.get = t.get ∧ (t'.entry k).isSome ∧ ∀ k', (t.entry k').isSome → (t'.entry k').isSome := by
  unfold findOrCreate at h
  split at h
  next hk =>
    cases h
    exact ⟨rfl, by simp [hk], fun _ h => h⟩
  next hk =>
    split at h
    · cases h
      refine ⟨?_, by simp, ?_⟩
      · funext k'
        by_cases hk' : k' = k
        · simp [get, hk', hk]
        · simp [get, hk']
      · intro k' hk'
        by_cases h' : k' = k
        · simp [h']
        · simpa [h'] using hk'
    · cases h

theorem get_store_self (h : (t.entry k).isSome) (s : SessionStore) : (t.store k s).get k = (t.get k).apply s := by
  obtain ⟨e, he⟩ := Option.isSome_iff_exists.mp h
  simp [get, store, he]

theorem get_store_of_ne (h : k' ≠ k) (s : SessionStore) : (t.store k s).get k' = t.get k' := by
  simp [get, store, h]

def KeysOk (t : SessionTable) : Prop := ∀ k, (t.entry k).isSome → k ∈ t.keys

theorem KeysOk.findOrCreate (h : t.KeysOk) (hf : t.findOrCreate k = some t') : t'.KeysOk := by
  unfold SessionTable.findOrCreate at hf
  split at hf
  · cases hf
    exact h
  · split at hf
    · cases hf
      intro k' hk'
      by_cases hkk : k' = k
      · exact hkk ▸ List.mem_cons_self
      · exact List.mem_cons_of_mem _ (h k' (by simpa [hkk] using hk'))
    · cases hf

@[simp] theorem isSome_entry_store {s : SessionStore} : ((t.store k s).entry k').isSome = (t.entry k').isSome := by
  by_cases h : k' = k
  · simp [store, h]
  · simp [store, h]

theorem KeysOk.store (h : t.KeysOk) (k : SessionKey) (s : SessionStore) :
    (t.store k s).KeysOk := fun k' hk' => h k' (by simpa using hk')

theorem stores_spec (ss : List SessionStore) :
    ∀ {t : SessionTable}, (t.entry k).isSome →
      (ss.foldl (·.store k ·) t).get k = ss.foldl SessionEntry.apply (t.get k) ∧
        (∀ k', k' ≠ k → (ss.foldl (·.store k ·) t).get k' = t.get k') ∧
        (t.KeysOk → (ss.foldl (·.store k ·) t).KeysOk) := by
  induction ss with
  | nil => exact fun _ => ⟨rfl, fun _ _ => rfl, id⟩
  | cons s ss ih =>
    intro t ht
    obtain ⟨hself, hne, hkeys⟩ := ih (t := t.store k s) (by simpa using ht)
    refine ⟨?_, fun k' hk' => ?_, fun hk => hkeys (hk.store k s)⟩
    · rw [List.foldl_cons, List.foldl_cons, hself, get_store_self ht]
    · rw [List.foldl_cons, hne k' hk', get_store_of_ne hk']

theorem publish_eq_some {s : SessionPublishSnapshot} (hs : s.sessionEpoch ≠ 0) (h : t.publish k s = some t') :
    t'.get k =
        { expectedSeq := max (t.get k).expectedSeq s.expectedSeq
          committedHwm := max (t.get k).committedHwm s.committedHwm
          highestSequenced := max (t.get k).highestSequenced s.highestSequenced
          active := true
          fenced := (t.get k).fenced || s.fenced
          epoch := s.sessionEpoch } ∧
      (∀ k', k' ≠ k → t'.get k' = t.get k') ∧ (t.KeysOk → t'.KeysOk) := by
  rw [publish, if_neg hs] at h
  obtain ⟨t₁, hf, rfl⟩ := Option.map_eq_some_iff.mp h
  obtain ⟨hget, hsome, -⟩ := findOrCreate_eq_some hf
  obtain ⟨hself, hne, hkeys⟩ := stores_spec (publishStores s) hsome
  refine ⟨?_, fun k' hk' => ?_, fun hk => hkeys (hk.findOrCreate hf)⟩
  · rw [hself, hget]
    rfl
  · rw [hne k' hk', hget]

end SessionTable

structure SessionFenceNotification where
  clientId : Nat
  sessionEpoch : Nat
  committedBatchSeq : Nat
  hasCommittedPrefix : Bool
  committedMsgHwm : Nat
  controlEpoch : Nat
  deriving DecidableEq

def SessionFenceNotification.key (n : SessionFenceNotification) : SessionKey :=
  ⟨n.clientId, n.sessionEpoch⟩

structure Level5ShardState where
  clientState : SessionKey → OptimizedClientState := fun _ => {}
  clientEmittedTracker : SessionKey → ClientEmitTracker := fun _ => {}
  holdBuffer : SessionKey → List (Nat × HoldEntry5) := fun _ => []
  holdBufferSize : Nat := 0
  clientsWithHeldBatches : List SessionKey := []
  deferredLevel5 : List PendingBatch5 := []
  dedup : FastDeduplicator := {}
  cvLogicalOnlyCumulative : Nat → Nat := fun _ => 0
  cvLogicalOnlyPbrIndex : Nat → Nat := fun _ => 0
  backpressuredLevel5Slots : List Order5SlotIdentity := []

structure CxlMemory where
  ring : Nat → Nat → BatchHeader := fun _ _ => {}
  consumedThrough : Nat → Nat
  ordered : Nat → Nat := fun _ => 0
  sessions : SessionTable := {}
  goi : Nat → GOIEntry := fun _ => {}
  committedSeq : Option Nat := none
  controlEpoch : Nat := 0

structure CompletedRange where
  start : Nat
  stop : Nat
  deriving DecidableEq

structure EpochInFlight where
  ready : List PendingBatch5
  batchList : List PendingBatch5
  brokerSeen : Nat → Bool
  contiguousConsumed : Nat → Nat

structure SentFence where
  ackSession : SessionKey
  committedBatchSeq : Nat
  hasCommittedPrefix : Bool
  deriving DecidableEq

structure Topic where
  cxl : CxlMemory
  shards : Nat → Level5ShardState := fun _ => {}
  order5TotalHoldSize : Int := 0
  inFlight : Option EpochInFlight := none
  /-- The `consumed_through` stores at the tail of `CommitEpoch` that are still to come. -/
  tailConsumed : List (Nat × Nat) := []
  perClientOrdered : Nat → Nat := fun _ => 0
  perClientOrderedEpoch : Nat → Nat := fun _ => 0
  pendingSessionFences : Nat → Option SessionFenceNotification := fun _ => none
  fenceNotes : List SessionFenceNotification := []
  ackWithheld : SessionKey → Bool := fun _ => false
  sentFences : List SentFence := []
  goiLog : List GOIEntry := []
  globalBatchSeq : Nat := 0
  globalSeq : Nat := 0
  exportCursor : Nat → Nat := fun _ => 0
  exportSequence : Nat → Nat := fun _ => 0
  capacityExhausted : Bool := false
  completedRanges : List CompletedRange := []
  pendingRanges : List CompletedRange := []
  nextExpectedStart : Nat := 0
  recoveredNextExpected : SessionKey → Nat := fun _ => 0
  currentEpochForHold : Nat := 0
  cachedEpoch : Nat := 0

/-- What the sequencer runs on: the configuration, and the two library behaviours the code leaves
open.  `std::sort` is unstable, and all that is assumed of it is that it permutes its range; a flat
hash container may be iterated in any order. -/
structure Platform where
  slots : Nat
  numShards : Nat
  sessionLeaseNs : Nat
  /-- The broker has published `batch_headers_offset`. -/
  hasRing : Nat → Bool
  sort : {α : Type} → (α → α → Bool) → List α → List α
  iterate : {α : Type} → List α → List α
  two_le_slots : 2 ≤ slots
  numShards_pos : 0 < numShards
  sort_perm : ∀ {α : Type} (lt : α → α → Bool) (l : List α), (sort lt l).Perm l
  iterate_perm : ∀ {α : Type} (l : List α), (iterate l).Perm l

def Platform.small : Platform where
  slots := 4
  numShards := 1
  sessionLeaseNs := 1000
  hasRing := fun _ => true
  sort := fun lt l => l.insertionSort fun a b => !lt b a
  iterate := id
  two_le_slots := by decide
  numShards_pos := by decide
  sort_perm := fun _ l => l.perm_insertionSort _
  iterate_perm := fun l => .refl l

def holdBufferMaxEntries : Nat := 100000
def deferredL5MaxEntries : Nat := holdBufferMaxEntries * 2
def clientTtlEpochs : Nat := 1000000
def clientGcEpochInterval : Nat := 1024

def goiCapacity : Nat := 256 * 1024 * 1024

/-- Shared memory of a newly created topic: the rings are empty and `consumed_through` carries the
all-free sentinel. -/
def CxlMemory.fresh (P : Platform) : CxlMemory where
  consumedThrough := fun _ => P.slots

end Embarcadero
