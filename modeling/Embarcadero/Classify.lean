import Embarcadero.Lib.Assoc
import Embarcadero.SessionInvariant

namespace Embarcadero

open Function (update update_of_ne update_self)
open List

structure Topic.Classified (n i : Nat) (t t' : Topic) : Prop where
  shape : t' = { t with
    cxl := { t.cxl with
      ring := t'.cxl.ring
      consumedThrough := t'.cxl.consumedThrough
      sessions := t'.cxl.sessions }
    capacityExhausted := t'.capacityExhausted
    pendingSessionFences := t'.pendingSessionFences
    fenceNotes := t'.fenceNotes
    perClientOrdered := t'.perClientOrdered
    perClientOrderedEpoch := t'.perClientOrderedEpoch }
  expected : ∀ k, t'.cxl.sessions.expected k = t.cxl.sessions.expected k
  outside : ∀ k, k.clientId % n ≠ i → t'.cxl.sessions.get k = t.cxl.sessions.get k
  fenced : ∀ k, t.cxl.sessions.fenced k = true → t'.cxl.sessions.fenced k = true
  exhausted : t.capacityExhausted = true → t'.capacityExhausted = true
  notes : t.fenceNotes <+: t'.fenceNotes

namespace Topic.Classified

variable {n i : Nat} {t t' t'' : Topic}

theorem refl (t : Topic) : t.Classified n i t where
  shape := rfl
  expected _ := rfl
  outside _ _ := rfl
  fenced _ h := h
  exhausted h := h
  notes := prefix_rfl

theorem trans (h : t.Classified n i t') (h' : t'.Classified n i t'') : t.Classified n i t'' where
  shape := h'.shape.trans (by rw [h.shape])
  expected k := (h'.expected k).trans (h.expected k)
  outside k hk := (h'.outside k hk).trans (h.outside k hk)
  fenced k hk := h'.fenced k (h.fenced k hk)
  exhausted hx := h'.exhausted (h.exhausted hx)
  notes := h.notes.trans h'.notes

end Topic.Classified

def Pass.Live (x : Pass) (k : SessionKey) : Prop :=
  x.topic.capacityExhausted = false ∧ x.topic.cxl.sessions.fenced k = false

def Topic.PendingOk (t : Topic) : Prop :=
  ∀ c m, t.pendingSessionFences c = some m → m ∈ t.fenceNotes ∧ m.clientId = c

section

variable (P : Platform) (ident : Nat → SessionKey × Nat) (i epoch : Nat) (t₀ : Topic)

structure PassOk (x : Pass) : Prop where
  classified : t₀.Classified P.numShards i x.topic
  shard : ShardOk ident P.numShards i x.shard
  ready : ∀ p ∈ x.ready, p.isMarker = false → ReadyOk P.numShards i p
  table : TableOk x.topic.cxl.sessions x.topic.recoveredNextExpected
  notes : ∀ m ∈ x.topic.fenceNotes, NoteOk x.topic.cxl.sessions m
  pending : x.topic.PendingOk
  sessions : ∀ k : SessionKey, k.Admitted → k.clientId % P.numShards = i → x.Live k →
    SessionOk ident epoch x.topic.cxl.sessions x.shard x.ready k

structure Begun (x : Pass) (k : SessionKey) : Prop where
  fenced : k.Admitted → x.topic.cxl.sessions.fenced k = true → (x.shard.clientState k).fenced = true
  frontier : k.Admitted → x.Live k → x.topic.cxl.sessions.expected k ≤ (x.shard.clientState k).nextExpected
  recent : (x.shard.clientState k).lastEpoch = epoch

structure Serves (k : SessionKey) (x : Pass) : Prop extends PassOk P ident i epoch t₀ x, Begun epoch x k

end

variable {P : Platform} {ident : Nat → SessionKey × Nat} {i epoch : Nat} {t₀ : Topic} {x : Pass}
  {k : SessionKey}

theorem PassOk.setShard (h : PassOk P ident i epoch t₀ x) {sh : Level5ShardState}
    {ready : List PendingBatch5} {delta : List (Nat × Nat)} {size : Int}
    (hsh : ShardOk ident P.numShards i sh)
    (hready : ∀ p ∈ ready, p.isMarker = false → ReadyOk P.numShards i p)
    (hs : ∀ k : SessionKey, k.Admitted → k.clientId % P.numShards = i → x.Live k →
      SessionOk ident epoch x.topic.cxl.sessions x.shard x.ready k →
      SessionOk ident epoch x.topic.cxl.sessions sh ready k) :
    PassOk P ident i epoch t₀ { x with
      shard := sh
      ready := ready
      terminalizedDelta := delta
      holdSizeDelta := size } where
  classified := h.classified
  shard := hsh
  ready := hready
  table := h.table
  notes := h.notes
  pending := h.pending
  sessions k hk hi hl := hs k hk hi hl (h.sessions k hk hi hl)

section

variable {n : Nat} {sh : Level5ShardState}

theorem ShardOk.setState (h : ShardOk ident n i sh) {s : OptimizedClientState}
    (hs : k.clientId ≠ 0 → s.sessionEpoch = 0 ∨ s.sessionEpoch = k.sessionEpoch) :
    ShardOk ident n i (sh.setState k s) where
  held := h.held
  deferred := h.deferred
  clients := h.clients
  epoch k' hk' := by
    by_cases hk : k' = k
    · subst hk
      simpa [Level5ShardState.setState] using hs hk'
    · simpa [Level5ShardState.setState, hk] using h.epoch k' hk'

theorem ShardOk.setState_same (h : ShardOk ident n i sh) {s : OptimizedClientState}
    (hs : s.sessionEpoch = (sh.clientState k).sessionEpoch) : ShardOk ident n i (sh.setState k s) :=
  h.setState (hs ▸ h.epoch k)

theorem ShardOk.dedup (h : ShardOk ident n i sh) (id : Nat) :
    ShardOk ident n i (sh.checkAndInsertBatchId id).2 := ⟨h.held, h.deferred, h.clients, h.epoch⟩

theorem ShardOk.logicalOnly (h : ShardOk ident n i sh) (m : HoldBatchMetadata) :
    ShardOk ident n i (sh.accumulateLogicalOnly m) := ⟨h.held, h.deferred, h.clients, h.epoch⟩

theorem ShardOk.markEmitted (h : ShardOk ident n i sh) (k : SessionKey) (seq : Nat) :
    ShardOk ident n i (sh.markEmitted k seq) := ⟨h.held, h.deferred, h.clients, h.epoch⟩

theorem ShardOk.terminalize (h : ShardOk ident n i sh) (m : HoldBatchMetadata) :
    ShardOk ident n i (sh.terminalizeAlreadyEmitted m) := (h.logicalOnly m).dedup m.batchId

theorem stored_checkAndInsertBatchId {id id' : Nat}
    (h : (sh.checkAndInsertBatchId id).2.dedup.Stored id') : id' = id ∨ sh.dedup.Stored id' :=
  FastDeduplicator.stored_checkAndInsert h

theorem stored_of_seen {id : Nat} (h : (sh.checkAndInsertBatchId id).1 = true) :
    sh.dedup.Stored id := FastDeduplicator.checkAndInsert_true h

@[simp] theorem setState_self (s : OptimizedClientState) :
    (sh.setState k s).clientState k = s := by simp [Level5ShardState.setState]

theorem setState_of_ne {k' : SessionKey} (h : k' ≠ k) (s : OptimizedClientState) :
    (sh.setState k s).clientState k' = sh.clientState k' := by simp [Level5ShardState.setState, h]

theorem markEmitted_of_ne {k' : SessionKey} (h : k' ≠ k) (seq : Nat) :
    (sh.markEmitted k seq).clientEmittedTracker k' = sh.clientEmittedTracker k' := by
  simp [Level5ShardState.markEmitted, h]

@[simp] theorem markEmitted_self (seq : Nat) :
    (sh.markEmitted k seq).clientEmittedTracker k = (sh.clientEmittedTracker k).markEmitted seq := by
  simp [Level5ShardState.markEmitted]

theorem isEmitted_of_markEmitted {k' : SessionKey} {seq j : Nat}
    (hj : ((sh.markEmitted k seq).clientEmittedTracker k').isEmitted j = true) :
    (sh.clientEmittedTracker k').isEmitted j = true ∨ k' = k ∧ j = seq := by
  by_cases hk : k' = k
  · subst hk
    rw [markEmitted_self] at hj
    exact (ClientEmitTracker.isEmitted_markEmitted.mp hj).symm.imp_right fun hnew => ⟨rfl, hnew⟩
  · rw [markEmitted_of_ne hk] at hj
    exact .inl hj

theorem nextExpected_setState {s : OptimizedClientState} (hs : s.nextExpected = (sh.clientState k).nextExpected)
    (k' : SessionKey) : ((sh.setState k s).clientState k').nextExpected = (sh.clientState k').nextExpected := by
  by_cases hk : k' = k
  · rw [hk, setState_self, hs]
  · rw [setState_of_ne hk]

end

variable {he : HoldEntry5} {sh' : Level5ShardState} {batches ready : List PendingBatch5} {id seq : Nat}
  {s : OptimizedClientState} {p : PendingBatch5} {k' : SessionKey} {table table' : SessionTable} {topic : Topic}

theorem frontier_of_le {sh : Level5ShardState} (h : table.expected k ≤ (sh.clientState k).nextExpected) :
    frontier table sh k = (sh.clientState k).nextExpected := Nat.max_eq_left h

theorem SessionOk.emit {sh : Level5ShardState} (h : SessionOk ident epoch table sh ready k)
    (hle : table.expected k ≤ (sh.clientState k).nextExpected) (hrecent : (sh.clientState k).lastEpoch = epoch)
    (hp : p.isMarker = false) (hkey : p.commitMeta.key = k)
    (hseq : p.commitMeta.batchSeq = (sh.clientState k).nextExpected)
    (hid : ident id = (k, (sh.clientState k).nextExpected))
    (hstate : sh'.clientState k =
      ((sh.clientState k).markSequenced (sh.clientState k).nextExpected).advanceNextExpected)
    (hemitted : ∀ s, (sh'.clientEmittedTracker k).isEmitted s = true →
      s = (sh.clientState k).nextExpected ∨ (sh.clientEmittedTracker k).isEmitted s = true)
    (hstored : ∀ id', sh'.dedup.Stored id' → id' = id ∨ sh.dedup.Stored id') :
    SessionOk ident epoch table sh' (ready ++ [p]) k := by
  have hf := frontier_of_le hle
  have hnext : (sh'.clientState k).nextExpected = (sh.clientState k).nextExpected + 1 := by simp [hstate]
  have hf' : frontier table sh' k = (sh.clientState k).nextExpected + 1 := by
    rw [frontier_of_le (by omega), hnext]
  constructor
  · simpa [hstate] using h.unfenced
  · have hone : seqsOf k [p] = [(sh.clientState k).nextExpected] := by
      rw [← hseq, ← seqsOf_batch hp, hkey]
    obtain ⟨d, hd⟩ := Nat.exists_eq_add_of_le hle
    have hd' : (sh.clientState k).nextExpected - table.expected k = d := by omega
    rw [seqsOf_append, h.ready, hone, hf, hf', Nat.sub_add_comm hle, List.range'_1_concat, hd', hd]
  · intro s hs
    rw [hf']
    rcases hemitted s hs with rfl | hs
    · omega
    · have := h.emitted s hs
      omega
  · intro id' hs hk
    rw [hf']
    rcases hstored id' hs with rfl | hs
    · rw [hid]
      omega
    · have := h.stored id' hs hk
      omega
  · simp [hstate, hrecent]
  · intro _
    omega

theorem SessionOk.setState {sh : Level5ShardState} (h : SessionOk ident epoch table sh ready k') (hne : k' ≠ k) :
    SessionOk ident epoch table (sh.setState k s) ready k' :=
  h.untouched ⟨setState_of_ne hne _, rfl, rfl, fun _ hs => .inl hs, rfl⟩

theorem untouched_of_ne {k' : SessionKey} {sh sh' : Level5ShardState}
    {ready ready' : List PendingBatch5} {id seq : Nat} (hid : ident id = (k, seq)) (hne : k' ≠ k)
    (hstate : sh'.clientState k' = sh.clientState k')
    (htracker : sh'.clientEmittedTracker k' = sh.clientEmittedTracker k')
    (hhold : sh'.holdBuffer k' = sh.holdBuffer k')
    (hstored : ∀ id', sh'.dedup.Stored id' → id' = id ∨ sh.dedup.Stored id')
    (hready : seqsOf k' ready' = seqsOf k' ready) : Untouched ident k' sh sh' ready ready' where
  state := hstate
  tracker := htracker
  hold := hhold
  stored id' hs := by
    rcases hstored id' hs with rfl | hs
    · rw [hid]
      exact .inr hne.symm
    · exact .inl hs
  ready := hready

theorem seqsOf_append_other (h : p.commitMeta.key ≠ k') : seqsOf k' (ready ++ [p]) = seqsOf k' ready := by
  rw [seqsOf_append, seqsOf_other h, append_nil]

theorem seqsOf_append_marker (h : p.isMarker = true) : seqsOf k' (ready ++ [p]) = seqsOf k' ready := by
  rw [seqsOf_append, seqsOf_marker k' h, append_nil]

theorem PassOk.ready_append (h : PassOk P ident i epoch t₀ x) (hp : p.isMarker = false → ReadyOk P.numShards i p) :
    ∀ q ∈ x.ready ++ [p], q.isMarker = false → ReadyOk P.numShards i q := by
  intro q hq
  rcases mem_append.mp hq with hq | hq
  · exact h.ready q hq
  · rw [mem_singleton.mp hq]
    exact hp

theorem PassOk.emitNext (h : PassOk P ident i epoch t₀ x)
    (hle : k.Admitted → x.Live k → x.topic.cxl.sessions.expected k ≤ (x.shard.clientState k).nextExpected)
    (hrecent : (x.shard.clientState k).lastEpoch = epoch) (hshard : k.clientId % P.numShards = i)
    (hp : p.isMarker = false) (hkey : p.commitMeta.key = k)
    (hseq : p.commitMeta.batchSeq = (x.shard.clientState k).nextExpected) (hcons : p.HoldConsistent)
    (hid : ident id = (k, (x.shard.clientState k).nextExpected)) :
    PassOk P ident i epoch t₀ (x.emitNext k (x.shard.clientState k).nextExpected id p) := by
  have hsh := (h.shard.setState_same (k := k) (s := ((x.shard.clientState k).markSequenced
    (x.shard.clientState k).nextExpected).advanceNextExpected) (by simp)).dedup id
  unfold Pass.emitNext
  dsimp only
  split
  next hseen =>
    -- The id is known only if its batch lies below the frontier.
    refine h.setShard hsh h.ready fun k' hk' _ hl hok => ?_
    by_cases hkk : k' = k
    · subst hkk
      have hstored := hok.stored id (stored_of_seen hseen) (by rw [hid])
      rw [frontier_of_le (hle hk' hl), hid] at hstored
      exact absurd hstored (lt_irrefl _)
    · exact hok.untouched (untouched_of_ne hid hkk (setState_of_ne hkk _) rfl rfl
        (fun _ hs => stored_checkAndInsertBatchId hs) rfl)
  · refine h.setShard (hsh.markEmitted _ _) (h.ready_append fun _ => ?_) fun k' hk' _ hl hok => ?_
    · exact ⟨by rw [← hshard, ← hkey]; rfl, hcons⟩
    · by_cases hkk : k' = k
      · subst hkk
        refine hok.emit (hle hk' hl) hrecent hp hkey hseq hid (setState_self _) (fun s hs => ?_)
          (fun _ hs => stored_checkAndInsertBatchId hs)
        rw [markEmitted_self] at hs
        exact ClientEmitTracker.isEmitted_markEmitted.mp hs
      · exact hok.untouched (untouched_of_ne hid hkk (setState_of_ne hkk _)
          (markEmitted_of_ne hkk _) rfl (fun _ hs => stored_checkAndInsertBatchId hs)
          (seqsOf_append_other (hkey ▸ Ne.symm hkk)))

theorem Begun.of_state {x' : Pass} (hb : Begun epoch x k) (ht : x'.topic = x.topic)
    (hs : x'.shard.clientState k = s) (hf : s.fenced = (x.shard.clientState k).fenced)
    (hn : (x.shard.clientState k).nextExpected ≤ s.nextExpected)
    (hl : s.lastEpoch = (x.shard.clientState k).lastEpoch) : Begun epoch x' k where
  fenced hk := by
    rw [ht, hs, hf]
    exact hb.fenced hk
  frontier hk hlive := by
    rw [Pass.Live, ht] at hlive
    rw [ht, hs]
    exact (hb.frontier hk hlive).trans hn
  recent := by rw [hs, hl, hb.recent]

theorem emitNext_state (seq id : Nat) (p : PendingBatch5) :
    (x.emitNext k seq id p).shard.clientState k =
      ((x.shard.clientState k).markSequenced seq).advanceNextExpected ∧
      (x.emitNext k seq id p).topic = x.topic := by
  unfold Pass.emitNext
  dsimp only
  split <;> exact ⟨setState_self _, rfl⟩

theorem Begun.emitNext (hb : Begun epoch x k) (seq id : Nat) (p : PendingBatch5) :
    Begun epoch (x.emitNext k seq id p) k := by
  obtain ⟨hs, ht⟩ := emitNext_state (x := x) (k := k) seq id p
  exact hb.of_state ht hs (by simp) (by simp) (by simp)

theorem Classifiable.commitMeta {n : Nat} (hp : Classifiable ident n i p) :
    p.commitMeta = p.cachedMeta := by simp [PendingBatch5.commitMeta, hp.scanned]

theorem Classifiable.consistent {n : Nat} (hp : Classifiable ident n i p) :
    p.HoldConsistent := by simp [PendingBatch5.HoldConsistent, hp.scanned]

theorem SessionOk.sameState {sh : Level5ShardState} (h : SessionOk ident epoch table sh ready k)
    (hstate : sh'.clientState k = s) (hfenced : s.fenced = (sh.clientState k).fenced)
    (hnext : s.nextExpected = (sh.clientState k).nextExpected)
    (hlast : s.lastEpoch = (sh.clientState k).lastEpoch ∨ s.lastEpoch = epoch)
    (htracker : sh'.clientEmittedTracker k = sh.clientEmittedTracker k)
    (hhold : sh'.holdBuffer k ≠ [] → table.expected k ≤ (sh.clientState k).nextExpected)
    (hstored : ∀ id, sh'.dedup.Stored id → (ident id).1 = k → sh.dedup.Stored id ∨ (ident id).2 < frontier table sh k) :
    SessionOk ident epoch table sh' ready k := by
  have hf : frontier table sh' k = frontier table sh k := by rw [frontier, frontier, hstate, hnext]
  constructor
  · rw [hstate, hfenced]
    exact h.unfenced
  · rw [hf]
    exact h.ready
  · rw [hf, htracker]
    exact h.emitted
  · intro id hs hk
    rw [hf]
    exact (hstored id hs hk).elim (h.stored id · hk) (·)
  · intro hlt
    rw [hstate, hnext] at hlt
    rw [hstate]
    exact hlast.elim (·.trans (h.recent hlt)) id
  · rw [hstate, hnext]
    exact hhold

theorem PassOk.drop (h : PassOk P ident i epoch t₀ x) {sh : Level5ShardState} {delta : List (Nat × Nat)}
    (hid : ident id = (k, seq))
    (hs : k.Admitted → x.Live k → SessionOk ident epoch x.topic.cxl.sessions x.shard x.ready k →
      s.fenced = (x.shard.clientState k).fenced ∧ s.nextExpected = (x.shard.clientState k).nextExpected ∧
        s.lastEpoch = (x.shard.clientState k).lastEpoch ∧
        seq < frontier x.topic.cxl.sessions x.shard k) (hsh : ShardOk ident P.numShards i sh)
    (hstate : sh.clientState = update x.shard.clientState k s)
    (htracker : sh.clientEmittedTracker = x.shard.clientEmittedTracker) (hhold : sh.holdBuffer = x.shard.holdBuffer)
    (hstored : ∀ id', sh.dedup.Stored id' → id' = id ∨ x.shard.dedup.Stored id') :
    PassOk P ident i epoch t₀ { x with shard := sh, terminalizedDelta := delta } := by
  refine h.setShard hsh (show ∀ p ∈ x.ready, _ from h.ready) fun k' hk' _ hl hok => ?_
  by_cases hkk : k' = k
  · subst hkk
    obtain ⟨hf, hn, hlast, hlt⟩ := hs hk' hl hok
    refine hok.sameState (by rw [hstate, update_self]) hf hn (.inl hlast) (by rw [htracker])
      (by rw [hhold]; exact hok.held) fun id' hst _ => ?_
    rcases hstored id' hst with rfl | hst
    · rw [hid]
      exact .inr hlt
    · exact .inl hst
  · exact hok.untouched (untouched_of_ne hid hkk (by rw [hstate, update_of_ne hkk])
      (by rw [htracker]) (by rw [hhold]) hstored rfl)

theorem perm_insertHeld (seq : Nat) (he : HoldEntry5) (entries : List (Nat × HoldEntry5)) :
    (Pass.insertHeld seq he entries).Perm ((seq, he) :: entries) := by
  induction entries with
  | nil => exact .refl _
  | cons e rest ih =>
    rw [Pass.insertHeld]
    split
    · exact .refl _
    · exact (ih.cons e).trans (.swap ..)

theorem mem_insertHeld {held : List (Nat × HoldEntry5)} {q : Nat × HoldEntry5} (h : q ∈ Pass.insertHeld seq he held) :
    q = (seq, he) ∨ q ∈ held :=
  mem_cons.mp ((perm_insertHeld seq he held).mem_iff.mp h)

theorem heldOk_park {n : Nat} (hp : Classifiable ident n i p) (nowNs : Nat) :
    HeldOk ident p.key p.batchSeq ⟨p, p.cachedMeta, nowNs⟩ :=
  ⟨hp.batch, rfl, rfl, rfl, hp.identified⟩

theorem ShardOk.park {n : Nat} {sh : Level5ShardState} {p : PendingBatch5}
    (h : ShardOk ident n i sh) (hp : Classifiable ident n i p) (nowNs size : Nat) :
    ShardOk ident n i { sh with
      holdBuffer := update sh.holdBuffer p.key
        (Pass.insertHeld p.batchSeq ⟨p, p.cachedMeta, nowNs⟩ (sh.holdBuffer p.key))
      holdBufferSize := size
      clientsWithHeldBatches :=
        if sh.clientsWithHeldBatches.contains p.key then sh.clientsWithHeldBatches
        else sh.clientsWithHeldBatches ++ [p.key] } where
  held k s he hm := by
    by_cases hk : k = p.key
    · subst hk
      simp only [update_self] at hm
      rcases mem_insertHeld hm with heq | hm
      · cases heq
        exact heldOk_park hp nowNs
      · exact h.held _ _ _ hm
    · exact h.held k s he (by simpa [hk] using hm)
  deferred := h.deferred
  clients k hk := by
    dsimp only at hk
    split at hk
    · exact h.clients k hk
    · rcases mem_append.mp hk with hk | hk
      · exact h.clients k hk
      · rw [mem_singleton.mp hk]
        exact ⟨hp.client, hp.shard⟩
  epoch := h.epoch

theorem ShardOk.defer {n : Nat} {sh : Level5ShardState} {p : PendingBatch5}
    (h : ShardOk ident n i sh) (hp : Classifiable ident n i p) :
    ShardOk ident n i { sh with deferredLevel5 := sh.deferredLevel5 ++ [p] } where
  held := h.held
  deferred q hq := by
    rcases mem_append.mp hq with hq | hq
    · exact h.deferred q hq
    · rw [mem_singleton.mp hq]
      exact hp
  clients := h.clients
  epoch := h.epoch

theorem Serves.drop (h : Serves P ident i epoch t₀ p.key x) (hp : Classifiable ident P.numShards i p)
    (hlt : p.key.Admitted → x.Live p.key → p.batchSeq < (x.shard.clientState p.key).nextExpected)
    {sh : Level5ShardState} {delta : List (Nat × Nat)}
    (hstate : sh.clientState = update x.shard.clientState p.key s)
    (hfenced : s.fenced = (x.shard.clientState p.key).fenced)
    (hlast : s.lastEpoch = (x.shard.clientState p.key).lastEpoch)
    (hle : (x.shard.clientState p.key).nextExpected ≤ s.nextExpected)
    (hpast : s.nextExpected ≤ max (x.shard.clientState p.key).nextExpected (p.batchSeq + 1))
    (hsh : ShardOk ident P.numShards i sh) (htracker : sh.clientEmittedTracker = x.shard.clientEmittedTracker)
    (hhold : sh.holdBuffer = x.shard.holdBuffer)
    (hstored : ∀ id, sh.dedup.Stored id → id = p.cachedBatchId ∨ x.shard.dedup.Stored id) :
    Serves P ident i epoch t₀ p.key { x with shard := sh, terminalizedDelta := delta } := by
  refine ⟨h.toPassOk.drop hp.identified (fun hk hl _ => ?_) hsh hstate htracker hhold hstored,
    h.of_state rfl (by rw [hstate, update_self]) hfenced hle hlast⟩
  have hlt := hlt hk hl
  exact ⟨hfenced, by omega, hlast, hlt.trans_le (le_max_left _ _)⟩

theorem Serves.park (h : Serves P ident i epoch t₀ p.key x) (hp : Classifiable ident P.numShards i p)
    (nowNs : Nat) : Serves P ident i epoch t₀ p.key (x.park nowNs p.key p) := by
  have hsh := h.shard.setState_same (k := p.key) (s := (x.shard.clientState p.key).noteGap nowNs) (by simp)
  -- The state only notes the gap, so every branch keeps the invariant of every session.
  have hnoted : ∀ {sh : Level5ShardState} {ready : List PendingBatch5} {size : Int}, ShardOk ident P.numShards i sh →
      (∀ q ∈ ready, q.isMarker = false → ReadyOk P.numShards i q) →
      sh.clientState = update x.shard.clientState p.key ((x.shard.clientState p.key).noteGap nowNs) →
      sh.clientEmittedTracker = x.shard.clientEmittedTracker → sh.dedup = x.shard.dedup →
      (∀ k', k' ≠ p.key → sh.holdBuffer k' = x.shard.holdBuffer k') →
      (∀ k', seqsOf k' ready = seqsOf k' x.ready) →
      Serves P ident i epoch t₀ p.key { x with shard := sh, ready := ready, holdSizeDelta := size } := by
    intro sh ready size hsh hready hstate htracker hdedup hhold hseqs
    have hself : sh.clientState p.key = (x.shard.clientState p.key).noteGap nowNs := by rw [hstate, update_self]
    refine ⟨h.setShard hsh hready fun k' hk' _ hl hok => ?_, h.of_state rfl hself (by simp) (by simp) (by simp)⟩
    by_cases hkk : k' = p.key
    · subst hkk
      have hok' : SessionOk ident epoch x.topic.cxl.sessions sh x.ready p.key :=
        hok.sameState hself (by simp) (by simp) (.inl (by simp)) (by rw [htracker]) (fun _ => h.frontier hk' hl)
          fun id hs _ => .inl (by rwa [hdedup] at hs)
      exact hok'.untouched ⟨rfl, rfl, rfl, fun _ hs => .inl hs, hseqs _⟩
    · exact hok.untouched ⟨by rw [hstate, update_of_ne hkk], by rw [htracker], hhold k' hkk,
        fun _ hs => .inl (by rwa [hdedup] at hs), hseqs k'⟩
  unfold Pass.park
  dsimp only
  split
  · split
    · exact hnoted (hsh.defer hp) h.ready rfl rfl rfl (fun _ _ => rfl) fun _ => rfl
    · split
      · exact hnoted hsh h.ready rfl rfl rfl (fun _ _ => rfl) fun _ => rfl
      · exact hnoted ⟨hsh.held, hsh.deferred, hsh.clients, hsh.epoch⟩ h.ready rfl rfl rfl (fun _ _ => rfl) fun _ => rfl
  · split
    · exact hnoted hsh h.ready rfl rfl rfl (fun _ _ => rfl) fun _ => rfl
    · exact hnoted (hsh.park hp nowNs _) (h.ready_append nofun) rfl rfl rfl (fun k' hk' => update_of_ne hk' _ _)
        fun _ => seqsOf_append_marker rfl

theorem Serves.classifyOne (h : Serves P ident i epoch t₀ p.key x)
    (hp : Classifiable ident P.numShards i p) (nowNs : Nat) :
    Serves P ident i epoch t₀ p.key (x.classifyOne nowNs p.key p) := by
  have hkeep : x.shard.clientState = update x.shard.clientState p.key (x.shard.clientState p.key) := by simp
  -- A live session whose tracker knows the number has it below its frontier.
  have hbelow : (x.shard.clientEmittedTracker p.key).isEmitted p.batchSeq = true → p.key.Admitted →
      x.Live p.key → p.batchSeq < (x.shard.clientState p.key).nextExpected := by
    intro he hk hl
    rw [← frontier_of_le (h.frontier hk hl)]
    exact (h.sessions p.key hk hp.shard hl).emitted _ he
  unfold Pass.classifyOne
  dsimp only
  split
  · exact ⟨h.setShard (h.shard.logicalOnly _) h.ready fun _ _ _ _ hok =>
      hok.untouched ⟨rfl, rfl, rfl, fun _ hs => .inl hs, rfl⟩, h.of_state rfl rfl rfl le_rfl rfl⟩
  split
  next hdup =>
    exact h.drop hp (hbelow (Bool.and_eq_true_iff.mp hdup).2) hkeep rfl rfl le_rfl (le_max_left _ _)
      (h.shard.terminalize _) rfl rfl fun _ hs => stored_checkAndInsertBatchId hs
  split
  next he =>
    have hpast := (x.shard.clientState p.key).skipPast_nextExpected p.batchSeq
    exact h.drop hp (hbelow he) rfl (by simp) (by simp) (hpast ▸ le_max_left _ _) hpast.le
      ((h.shard.setState_same (by simp)).terminalize _) rfl rfl fun _ hs => stored_checkAndInsertBatchId hs
  split
  next hseq =>
    rw [hseq]
    refine ⟨h.toPassOk.emitNext h.frontier h.recent hp.shard hp.batch ?_ ?_ hp.consistent ?_, h.toBegun.emitNext ..⟩
    · rw [hp.commitMeta]
      rfl
    · rw [hp.commitMeta]
      exact hseq
    · rw [hp.identified, hseq]
  split
  next hlt =>
    have hsh := (h.shard.setState_same (k := p.key)
      (s := (x.shard.clientState p.key).markSequenced p.batchSeq) (by simp)).dedup p.cachedBatchId
    unfold Pass.dropLate
    dsimp only
    split
    · exact h.drop hp (fun _ _ => hlt) rfl (by simp) (by simp) (by simp) (by simp) hsh rfl rfl
        fun _ hs => stored_checkAndInsertBatchId hs
    · exact h.drop hp (fun _ _ => hlt) rfl (by simp) (by simp) (by simp) (by simp) (hsh.logicalOnly _) rfl rfl
        fun _ hs => stored_checkAndInsertBatchId hs
  · exact h.park hp nowNs

namespace OptimizedClientState

theorem applyRecovered_frame (s : OptimizedClientState) (r : Nat) :
    (s.applyRecovered r).nextExpected = max s.nextExpected r ∧
      (s.applyRecovered r).fenced = s.fenced ∧
      (s.applyRecovered r).sessionEpoch = s.sessionEpoch ∧
      (s.applyRecovered r).lastEpoch = s.lastEpoch := by
  unfold applyRecovered
  dsimp only
  split <;> split <;> simp <;> omega

theorem applyEntry_frame (s : OptimizedClientState) (e : SessionEntry) :
    (s.applyEntry e).nextExpected = max s.nextExpected e.expectedSeq ∧
      (s.applyEntry e).fenced = (s.fenced || e.fenced) ∧
      (s.applyEntry e).sessionEpoch = max s.sessionEpoch e.epoch ∧
      (s.applyEntry e).lastEpoch = s.lastEpoch := by
  unfold applyEntry
  dsimp only
  split <;> simp <;> omega

end OptimizedClientState

theorem reconstructClientState_spec {t : Topic} (s : OptimizedClientState)
    (hT : TableOk t.cxl.sessions t.recoveredNextExpected) :
    (t.reconstructClientState k s).lastEpoch = s.lastEpoch ∧
      (k.clientId ≠ 0 → s.sessionEpoch = k.sessionEpoch →
        (t.reconstructClientState k s).sessionEpoch = k.sessionEpoch) ∧
      (k.Admitted → (t.reconstructClientState k s).nextExpected = max s.nextExpected (t.cxl.sessions.expected k) ∧
        (t.reconstructClientState k s).fenced = (s.fenced || t.cxl.sessions.fenced k)) := by
  obtain ⟨hn, hf, he, hl⟩ := s.applyRecovered_frame (t.recoveredNextExpected k)
  unfold Topic.reconstructClientState
  dsimp only
  split
  · obtain ⟨hn', hf', he', hl'⟩ :=
      (s.applyRecovered (t.recoveredNextExpected k)).applyEntry_frame (t.cxl.sessions.get k)
    obtain ⟨hn'', hf'', he'', hl''⟩ := ((s.applyRecovered (t.recoveredNextExpected k)).applyEntry
      (t.cxl.sessions.get k)).applyRecovered_frame (t.recoveredNextExpected k)
    refine ⟨by rw [hl'', hl', hl], fun hc hs => ?_, fun hk => ⟨?_, ?_⟩⟩
    · rw [he'', he', he, hs]
      rcases hT.epoch k hc with h0 | h0 <;> rw [h0] <;> simp
    · rw [hn'', hn', hn]
      have := hT.recovered k hk
      unfold SessionTable.expected at *
      omega
    · rw [hf'', hf', hf]
      rfl
  next hactive =>
    refine ⟨hl, fun _ hs => by rw [he, hs], fun hk => ⟨?_, ?_⟩⟩
    · -- An inactive entry has published nothing.
      have h0 : t.cxl.sessions.expected k = 0 := by
        by_contra hne
        exact hactive (hT.active_of_expected k hk (Nat.pos_of_ne_zero hne))
      have := hT.recovered k hk
      rw [hn]
      omega
    · rw [hf]
      cases hfen : t.cxl.sessions.fenced k with
      | false => simp
      | true => exact absurd (hT.active_of_fenced k hk hfen) hactive

structure Refreshed (epoch : Nat) (x : Pass) (k : SessionKey) (s : OptimizedClientState) :
    Prop where
  recent : s.lastEpoch = epoch
  epoch : k.clientId ≠ 0 → s.sessionEpoch = k.sessionEpoch
  fenced : k.Admitted → x.topic.cxl.sessions.fenced k = true → s.fenced = true
  next : k.Admitted → x.Live k → s.nextExpected = frontier x.topic.cxl.sessions x.shard k
  unfenced : k.Admitted → x.Live k → s.fenced = false

theorem PassOk.refreshed (h : PassOk P ident i epoch t₀ x) (hshard : k.clientId % P.numShards = i) :
    Refreshed epoch x k (x.topic.reconstructClientState k
      { x.shard.clientState k with sessionEpoch := k.sessionEpoch, lastEpoch := epoch }) := by
  obtain ⟨hl, he, ha⟩ := reconstructClientState_spec (k := k) (t := x.topic)
    { x.shard.clientState k with sessionEpoch := k.sessionEpoch, lastEpoch := epoch } h.table
  refine ⟨hl, fun hc => he hc rfl, fun hk hf => ?_, fun hk _ => (ha hk).1, fun hk hlive => ?_⟩
  · rw [(ha hk).2, hf, Bool.or_true]
  · rw [(ha hk).2, hlive.2, Bool.or_false]
    exact (h.sessions k hk hshard hlive).unfenced

theorem PassOk.refresh (h : PassOk P ident i epoch t₀ x) (hs : Refreshed epoch x k s) :
    Serves P ident i epoch t₀ k { x with shard := x.shard.setState k s } := by
  have hself : (x.shard.setState k s).clientState k = s := setState_self s
  refine ⟨h.setShard (h.shard.setState fun hc => .inr (hs.epoch hc)) h.ready fun k' hk' _ hl hok => ?_, ?_⟩
  · by_cases hkk : k' = k
    · subst hkk
      have hf : frontier x.topic.cxl.sessions (x.shard.setState k' s) k' =
          frontier x.topic.cxl.sessions x.shard k' := by
        rw [frontier, hself, hs.next hk' hl, frontier, Nat.max_assoc, Nat.max_self]
      constructor
      · rw [hself]
        exact hs.unfenced hk' hl
      · rw [hf]
        exact hok.ready
      · rw [hf]
        exact hok.emitted
      · rw [hf]
        exact hok.stored
      · rw [hself]
        exact fun _ => hs.recent
      · rw [hself, hs.next hk' hl]
        exact fun _ => le_max_right _ _
    · exact hok.setState hkk
  · constructor
    · rw [hself]
      exact hs.fenced
    · rw [hself]
      exact fun hk hl => (le_max_right _ _).trans_eq (hs.next hk hl).symm
    · rw [hself]
      exact hs.recent

theorem PassOk.beginSession_eq (h : PassOk P ident i epoch t₀ x) (hshard : k.clientId % P.numShards = i) :
    ∃ s, x.beginSession epoch k = { x with shard := x.shard.setState k s } ∧
      Refreshed epoch x k s := by
  have hr := h.refreshed hshard
  unfold Pass.beginSession
  dsimp only
  split
  next m hm =>
    split
    next hzero =>
      -- The tracker's contiguous prefix lies below the frontier, which is zero here.
      refine ⟨_, rfl, hr.recent, hr.epoch, hr.fenced, fun hk hl => ?_, hr.unfenced⟩
      have hlt := (h.sessions k hk hshard hl).emitted m (by simp [ClientEmitTracker.isEmitted, hm])
      rw [← hr.next hk hl, hzero] at hlt
      exact absurd hlt (Nat.not_lt_zero m)
    · exact ⟨_, rfl, hr⟩
  · exact ⟨_, rfl, hr⟩

theorem PassOk.beginSession (h : PassOk P ident i epoch t₀ x) (hshard : k.clientId % P.numShards = i) :
    Serves P ident i epoch t₀ k (x.beginSession epoch k) := by
  obtain ⟨s, heq, hs⟩ := h.beginSession_eq hshard
  rw [heq]
  exact h.refresh hs

theorem PassOk.select (h : PassOk P ident i epoch t₀ x) (hshard : k.clientId % P.numShards = i)
    {current : Option SessionKey} (hb : current = some k → Begun epoch x k) :
    Serves P ident i epoch t₀ k (if current = some k then x else x.beginSession epoch k) := by
  split
  next hcurrent => exact ⟨h, hb hcurrent⟩
  · exact h.beginSession hshard

theorem PassOk.classifyGroups (clock : PassClock) (hp : ∀ p ∈ batches, Classifiable ident P.numShards i p) :
    ∀ (current : Option SessionKey) {x : Pass}, PassOk P ident i epoch t₀ x →
      (∀ k, current = some k → Begun epoch x k) →
      PassOk P ident i epoch t₀ (Pass.classifyGroups clock epoch current batches x) := by
  induction batches with
  | nil => exact fun _ _ h _ => h
  | cons p rest ih =>
    intro current x h hb
    obtain ⟨h', hb'⟩ := (h.select (hp p (.head _)).shard (hb p.key)).classifyOne (hp p (.head _))
      (clock.classifyNs p)
    exact ih (fun q hq => hp q (.tail _ hq)) _ h' fun k hk => Option.some.inj hk ▸ hb'

def Topic.Retired (t t' : Topic) : Prop :=
  t' = { t with cxl := { t.cxl with
    ring := t'.cxl.ring, consumedThrough := t'.cxl.consumedThrough } }

theorem Topic.Retired.trans {t t' t'' : Topic} (h : t.Retired t') (h' : t'.Retired t'') : t.Retired t'' := by
  unfold Topic.Retired at *
  exact h'.trans (by rw [h])

theorem retired_retireHeldSlotAndAdvance (P : Platform) (t : Topic) (hdr : Option SlotAddr)
    (b slot : Nat) : t.Retired (t.retireHeldSlotAndAdvance P hdr b slot) := by
  unfold Topic.retireHeldSlotAndAdvance CxlMemory.retireHeldSlotAndAdvance
  split
  · exact rfl
  · dsimp only
    split <;> cases hdr <;> exact rfl

theorem retired_foldl (P : Platform) (held : List HoldEntry5) :
    ∀ t : Topic, t.Retired (held.foldl (fun t he =>
      t.retireHeldSlotAndAdvance P he.batch.hdr he.holdMeta.brokerId he.holdMeta.slotOffset) t) := by
  induction held with
  | nil => exact fun t => rfl
  | cons he rest ih => exact fun t => (retired_retireHeldSlotAndAdvance P t _ _ _).trans (ih _)

theorem retired_purge (P : Platform) (k : SessionKey) (x : Pass) : x.topic.Retired (x.purgeFencedSession P k).topic :=
  retired_foldl P _ x.topic

theorem PassOk.retire (h : PassOk P ident i epoch t₀ x) {t : Topic} (ht : x.topic.Retired t) :
    PassOk P ident i epoch t₀ { x with topic := t } := by
  rw [Topic.Retired] at ht
  generalize t.cxl.ring = ring, t.cxl.consumedThrough = consumedThrough at ht
  subst ht
  exact { h with
    classified := h.classified.trans ⟨rfl, fun _ => rfl, fun _ _ => rfl, fun _ => id, id, prefix_rfl⟩ }

theorem PassOk.stop (h : PassOk P ident i epoch t₀ x) {sh : Level5ShardState}
    (hsh : ShardOk ident P.numShards i sh) :
    PassOk P ident i epoch t₀
      { x with topic := x.topic.stopForCapacityExhaustion, shard := sh } where
  classified := h.classified.trans ⟨rfl, fun _ => rfl, fun _ _ => rfl, fun _ => id, fun _ => rfl, prefix_rfl⟩
  shard := hsh
  ready := h.ready
  table := h.table
  notes := h.notes
  pending := h.pending
  sessions _ _ _ hl := absurd hl.1 (by simp [Topic.stopForCapacityExhaustion])

structure FencedTable (table table' : SessionTable) (k : SessionKey) : Prop where
  self : table'.expected k = table.expected k ∧
    (table'.get k).committedHwm = (table.get k).committedHwm ∧ (table'.get k).active = true ∧
    table'.fenced k = true ∧ (table'.get k).epoch = k.sessionEpoch
  other : ∀ k', k' ≠ k → table'.get k' = table.get k'
  keys : table.KeysOk → table'.KeysOk

theorem FencedTable.expected (h : FencedTable table table' k) (k' : SessionKey) :
    table'.expected k' = table.expected k' := by
  by_cases hk : k' = k
  · rw [hk, h.self.1]
  · rw [SessionTable.expected, h.other k' hk, SessionTable.expected]

theorem FencedTable.fenced (h : FencedTable table table' k) (hf : table.fenced k' = true) :
    table'.fenced k' = true := by
  by_cases hk : k' = k
  · rw [hk, h.self.2.2.2.1]
  · rw [SessionTable.fenced, h.other k' hk]
    exact hf

theorem FencedTable.tableOk {table table' : SessionTable} {recovered : SessionKey → Nat}
    (h : FencedTable table table' k) (hT : TableOk table recovered) : TableOk table' recovered where
  active_of_expected k' hk' he := by
    by_cases hk : k' = k
    · rw [hk, h.self.2.2.1]
    · rw [h.other k' hk]
      exact hT.active_of_expected k' hk' (h.expected k' ▸ he)
  active_of_fenced k' hk' hf := by
    by_cases hk : k' = k
    · rw [hk, h.self.2.2.1]
    · rw [h.other k' hk]
      exact hT.active_of_fenced k' hk' (by rwa [SessionTable.fenced, h.other k' hk] at hf)
  hwm k' hk' := by
    rw [h.expected k', ← hT.hwm k' hk']
    by_cases hk : k' = k
    · rw [hk, h.self.2.1]
    · rw [h.other k' hk]
  epoch k' hc := by
    by_cases hk : k' = k
    · rw [hk]
      exact .inr h.self.2.2.2.2
    · rw [h.other k' hk]
      exact hT.epoch k' hc
  recovered k' hk' := by
    rw [h.expected k']
    exact hT.recovered k' hk'
  keys := h.keys hT.keys

theorem FencedTable.noteOk {table table' : SessionTable} (h : FencedTable table table' k)
    {m : SessionFenceNotification} (hm : NoteOk table m) : NoteOk table' m where
  admitted := hm.admitted
  fenced := h.fenced hm.fenced
  isPrefix := by
    rw [h.expected]
    exact hm.isPrefix
  hwm := by
    rw [h.expected]
    exact hm.hwm

theorem fencedTable_publish {table₁ : SessionTable} {epoch' highest : Nat} (hepoch : epoch' = k.sessionEpoch)
    (hpos : epoch' ≠ 0) (hf : table.findOrCreate k = some table₁)
    (hp : table₁.publish k ⟨epoch', (table₁.get k).expectedSeq, (table₁.get k).committedHwm, highest,
      true⟩ = some table') : FencedTable table table' k := by
  obtain ⟨hget, -, -⟩ := SessionTable.findOrCreate_eq_some hf
  obtain ⟨hself, hne, hkeys⟩ := SessionTable.publish_eq_some hpos hp
  refine ⟨?_, fun k' hk' => by rw [hne k' hk', hget], fun hk => hkeys (hk.findOrCreate hf)⟩
  rw [SessionTable.expected, SessionTable.fenced, hself, SessionTable.expected, hget]
  simp [hepoch]

structure Topic.Fences (t : Topic) (table : SessionTable) (t' : Topic) : Prop where
  shape : t' = { t with
    cxl := { t.cxl with sessions := table }
    pendingSessionFences := t'.pendingSessionFences
    fenceNotes := t'.fenceNotes }
  notes : t.fenceNotes <+: t'.fenceNotes
  new : ∀ m ∈ t'.fenceNotes, m ∈ t.fenceNotes ∨ NoteOk table m
  pending : t'.PendingOk

theorem PassOk.fence (h : PassOk P ident i epoch t₀ x) (hshard : k.clientId % P.numShards = i)
    (ht : FencedTable x.topic.cxl.sessions table k) {sh : Level5ShardState} (hf : x.topic.Fences table topic)
    (hsh : ShardOk ident P.numShards i sh) (hun : ∀ k', k' ≠ k → Untouched ident k' x.shard sh x.ready x.ready) :
    PassOk P ident i epoch t₀ { x with topic := topic, shard := sh } := by
  obtain ⟨hshape, hnotes, hnew, hpending⟩ := hf
  generalize topic.pendingSessionFences = pending, topic.fenceNotes = notes at hshape hnotes hnew
  subst hshape
  refine ⟨h.classified.trans ⟨rfl, ht.expected, ?_, fun _ => ht.fenced, id, hnotes⟩, hsh, h.ready, ht.tableOk h.table,
    fun m hm => (hnew m hm).elim (fun hold => ht.noteOk (h.notes m hold)) id, hpending, fun k' hk' hi hl => ?_⟩
  · exact fun k' hk' => ht.other k' fun hkk => hk' (hkk ▸ hshard)
  · have hlive : table.fenced k' = false := hl.2
    have hne : k' ≠ k := by
      rintro rfl
      rw [ht.self.2.2.2.1] at hlive
      cases hlive
    rw [SessionTable.fenced, ht.other k' hne] at hlive
    exact ((h.sessions k' hk' hi ⟨hl.1, hlive⟩).untouched (hun k' hne)).sameTable (ht.expected k')

theorem ShardOk.purge {n : Nat} {sh : Level5ShardState} (h : ShardOk ident n i sh) (k : SessionKey)
    (size : Nat) (tracker : SessionKey → ClientEmitTracker) :
    ShardOk ident n i { sh with
      holdBuffer := update sh.holdBuffer k []
      holdBufferSize := size
      clientsWithHeldBatches := sh.clientsWithHeldBatches.filter (· ≠ k)
      clientEmittedTracker := tracker
      deferredLevel5 := sh.deferredLevel5.filter (·.key ≠ k) } where
  held k' s he hm := by
    by_cases hk : k' = k
    · simp [hk] at hm
    · exact h.held k' s he (by simpa [hk] using hm)
  deferred p hp := h.deferred p (mem_of_mem_filter hp)
  clients k' hk' := h.clients k' (mem_of_mem_filter hk')
  epoch := h.epoch

theorem PendingOk.publish {t : Topic} (h : t.PendingOk) (m : SessionFenceNotification) :
    (t.publishSessionFenceNotification m).PendingOk := by
  intro c m' hm'
  simp only [Topic.publishSessionFenceNotification] at hm' ⊢
  by_cases hc : c = m.clientId
  · rw [hc, update_self, Option.some.injEq] at hm'
    exact ⟨by simp [hm'], by rw [← hm', hc]⟩
  · rw [update_of_ne hc] at hm'
    exact ⟨by simp [(h c m' hm').1], (h c m' hm').2⟩

theorem PassOk.fenceAndPurge (h : PassOk P ident i epoch t₀ x) (hshard : k.clientId % P.numShards = i)
    (ht : FencedTable x.topic.cxl.sessions table k) (hsh : ShardOk ident P.numShards i (x.shard.setState k s))
    (hf : x.topic.Fences table topic) : PassOk P ident i epoch t₀
      (Pass.purgeFencedSession P k { x with topic := topic, shard := x.shard.setState k s }) := by
  refine PassOk.retire (x := { x with topic := topic, shard := _, holdSizeDelta := _ }) ?_ (retired_purge P k _)
  refine { h.fence hshard ht hf (hsh.purge k _ _) fun k' hne => ?_ with }
  exact ⟨setState_of_ne hne _, update_of_ne hne _ _, update_of_ne hne _ _, fun _ hs => .inl hs, rfl⟩

theorem PassOk.recordFence (h : PassOk P ident i epoch t₀ x) (hc : k.clientId ≠ 0)
    (hshard : k.clientId % P.numShards = i) : PassOk P ident i epoch t₀ (x.recordFence P k) := by
  unfold Pass.recordFence
  dsimp only
  split
  · exact h
  rename_i hcan
  have hpos : (x.shard.clientState k).sessionEpoch ≠ 0 := by simpa [canFenceSessionEpoch] using hcan
  have hepoch := (h.shard.epoch k hc).resolve_left hpos
  have hk : k.Admitted := ⟨hc, hepoch ▸ hpos⟩
  split
  · exact h.stop h.shard
  rename_i table₁ hfind
  have hsh : ShardOk ident P.numShards i (x.shard.setState k
      { (x.shard.clientState k).fence with committedHwm := (table₁.get k).committedHwm }) :=
    h.shard.setState fun _ => .inr (by simpa using hepoch)
  split
  · exact h.stop hsh
  rename_i table hpub
  have ht := fencedTable_publish hepoch hpos hfind hpub
  obtain ⟨hget, -, -⟩ := SessionTable.findOrCreate_eq_some hfind
  -- The note states the entry as it was read under the gate.
  have hnote : NoteOk table (Pass.fenceNote x.topic k (table₁.get k) (x.shard.clientState k).sessionEpoch) := by
    have hkey : (Pass.fenceNote x.topic k (table₁.get k) (x.shard.clientState k).sessionEpoch).key = k := by
      rw [Pass.fenceNote, SessionFenceNotification.key, hepoch]
    refine ⟨by rwa [hkey], by rw [hkey, ht.self.2.2.2.1], ?_, ?_⟩
    · rw [hkey, ht.expected, Pass.fenceNote, hget]
      rfl
    · rw [hkey, ht.expected, Pass.fenceNote, hget]
      exact h.table.hwm k hk
  split
  · exact h.fenceAndPurge hshard ht hsh ⟨rfl, prefix_rfl, fun _ => .inl, h.pending⟩
  · refine h.fenceAndPurge hshard ht hsh ⟨rfl, prefix_append _ _, fun m hm => ?_, PendingOk.publish h.pending _⟩
    rcases mem_append.mp hm with hm | hm
    · exact .inl hm
    · rw [mem_singleton.mp hm]
      exact .inr hnote

theorem PassOk.pushMarker (h : PassOk P ident i epoch t₀ x) (hp : p.isMarker = true) :
    PassOk P ident i epoch t₀ { x with ready := x.ready ++ [p] } :=
  h.setShard h.shard (h.ready_append (by simp [hp])) fun _ _ _ _ hok =>
    hok.untouched ⟨rfl, rfl, rfl, fun _ hs => .inl hs, seqsOf_append_marker hp⟩

theorem PassOk.targetedSkip (h : PassOk P ident i epoch t₀ x) (hc : p.clientId ≠ 0)
    (hshard : p.clientId % P.numShards = i) : PassOk P ident i epoch t₀ (x.targetedSkip P epoch p) := by
  have hr := h.refreshed (k := p.key) hshard
  unfold Pass.targetedSkip
  dsimp only
  split
  · exact (h.refresh hr).toPassOk.recordFence hc hshard
  next hcan =>
    -- Only a session without an epoch moves past the marker, and such a session is not admitted.
    have hzero : p.key.sessionEpoch = 0 := by
      rw [← hr.epoch hc]
      simpa [canFenceSessionEpoch] using hcan
    refine h.setShard (h.shard.setState fun _ => .inr (by simpa using hr.epoch hc)) h.ready fun k hk _ _ hok => ?_
    have hne : k ≠ p.key := by
      rintro rfl
      exact hk.2 hzero
    exact hok.setState hne

theorem PassOk.skipOne (h : PassOk P ident i epoch t₀ x) (hskip : p.skipped = true) (hc : p.clientId ≠ 0)
    (hshard : p.clientId % P.numShards = i) : PassOk P ident i epoch t₀ (x.skipOne P epoch p) := by
  unfold Pass.skipOne
  have hp : p.isMarker = true := by simp [PendingBatch5.isMarker, hskip]
  dsimp only
  split
  · exact (h.targetedSkip hc hshard).pushMarker hp
  · exact h.pushMarker hp

theorem PassOk.release (h : PassOk P ident i epoch t₀ x) (k : SessionKey) (next size : Nat) (delta : Int) :
    PassOk P ident i epoch t₀ { x with
      shard := { x.shard with
        holdBuffer := update x.shard.holdBuffer k ((x.shard.holdBuffer k).filter (·.1 ≠ next))
        holdBufferSize := size }
      holdSizeDelta := delta } := by
  refine h.setShard ⟨fun k' s he hm => ?_, h.shard.deferred, h.shard.clients, h.shard.epoch⟩ h.ready
    fun k' _ _ _ hok => ?_
  · by_cases hk : k' = k
    · subst hk
      simp only [update_self] at hm
      exact h.shard.held k' s he (mem_of_mem_filter hm)
    · exact h.shard.held k' s he (by simpa [hk] using hm)
  · refine hok.sameState rfl rfl rfl (.inl rfl) rfl (fun hne => ?_) (fun _ hs _ => .inl hs)
    by_cases hk : k' = k
    · subst hk
      refine hok.held fun hnil => hne ?_
      simp [hnil]
    · exact hok.held (by simpa [hk] using hne)

theorem PassOk.drainOne (h : PassOk P ident i epoch t₀ x) (hshard : k.clientId % P.numShards = i)
    (hrecent : (x.shard.clientState k).lastEpoch = epoch)
    (hhe : (x.shard.holdBuffer k).lookup (x.shard.clientState k).nextExpected = some he) :
    PassOk P ident i epoch t₀ (x.drainOne P k he) ∧ ((x.drainOne P k he).shard.clientState k).lastEpoch = epoch := by
  have hmem := Assoc.mem_of_lookup hhe
  have hheld := h.shard.held k _ he hmem
  have hle : k.Admitted → x.Live k →
      x.topic.cxl.sessions.expected k ≤ (x.shard.clientState k).nextExpected := fun hk hl =>
    (h.sessions k hk hshard hl).held (ne_nil_of_mem hmem)
  have hrel := h.release k (x.shard.clientState k).nextExpected (x.shard.holdBufferSize - 1) (x.holdSizeDelta - 1)
  unfold Pass.drainOne
  dsimp only
  rw [hheld.seq]
  split
  next hem =>
    refine ⟨PassOk.retire (x := { x with shard := _, holdSizeDelta := _ }) ?_
      (retired_retireHeldSlotAndAdvance P x.topic _ _ _), ?_⟩
    · have hid : ident he.holdMeta.batchId = (k, (x.shard.clientState k).nextExpected) := by
        rw [hheld.copied]
        exact hheld.identified
      refine hrel.drop hid (fun hk hl hok => ?_) (ShardOk.terminalize (hrel.shard.setState_same (by simp)) _) rfl rfl
        rfl (fun _ hs => stored_checkAndInsertBatchId hs)
      have hlt : _ < frontier x.topic.cxl.sessions x.shard k := hok.emitted _ hem
      rw [frontier_of_le (hle hk hl)] at hlt
      exact absurd hlt (lt_irrefl _)
    · exact (congrArg _ (setState_self _)).trans (by simpa using hrecent)
  · refine ⟨hrel.emitNext (k := k) hle hrecent hshard hheld.batch ?_ ?_ ?_ ?_, ?_⟩
    · exact (congrArg HoldBatchMetadata.key hheld.copied).trans hheld.key
    · exact (congrArg HoldBatchMetadata.batchSeq hheld.copied).trans hheld.seq
    · intro _
      exact congrArg HoldBatchMetadata.numMsg hheld.copied
    · rw [hheld.copied]
      exact hheld.identified
    · rw [(emitNext_state _ _ _).1]
      simpa using hrecent

theorem PassOk.drainLoop (hshard : k.clientId % P.numShards = i) (fuel : Nat) :
    ∀ {x : Pass}, PassOk P ident i epoch t₀ x → (x.shard.clientState k).lastEpoch = epoch →
      PassOk P ident i epoch t₀ (Pass.drainLoop P k fuel x) := by
  induction fuel with
  | zero => exact fun h _ => h
  | succ fuel ih =>
    intro x h hrecent
    rw [Pass.drainLoop]
    split
    · exact h
    next he hhe =>
      obtain ⟨h', hrecent'⟩ := h.drainOne hshard hrecent hhe
      exact ih h' hrecent'

theorem PassOk.forget (h : PassOk P ident i epoch t₀ x) (q : SessionKey → Bool) :
    PassOk P ident i epoch t₀ { x with shard := { x.shard with
      clientsWithHeldBatches := x.shard.clientsWithHeldBatches.filter q } } :=
  h.setShard ⟨h.shard.held, h.shard.deferred,
    fun k hk => h.shard.clients k (mem_of_mem_filter hk), h.shard.epoch⟩ h.ready
    fun _ _ _ _ hok => hok.untouched ⟨rfl, rfl, rfl, fun _ hs => .inl hs, rfl⟩

theorem PassOk.keep (h : PassOk P ident i epoch t₀ x) (k : SessionKey) {s : OptimizedClientState}
    (hepoch : s.sessionEpoch = (x.shard.clientState k).sessionEpoch)
    (hfenced : s.fenced = (x.shard.clientState k).fenced)
    (hnext : s.nextExpected = (x.shard.clientState k).nextExpected)
    (hlast : s.lastEpoch = (x.shard.clientState k).lastEpoch ∨ s.lastEpoch = epoch) :
    PassOk P ident i epoch t₀ { x with shard := x.shard.setState k s } := by
  refine h.setShard (h.shard.setState_same hepoch) h.ready fun k' _ _ _ hok => ?_
  by_cases hk : k' = k
  · subst hk
    exact hok.sameState (setState_self s) hfenced hnext hlast rfl hok.held fun _ hs _ => .inl hs
  · exact hok.setState hk

theorem PassOk.touch (h : PassOk P ident i epoch t₀ x) (k : SessionKey) :
    PassOk P ident i epoch t₀ { x with
      shard := x.shard.setState k { x.shard.clientState k with lastEpoch := epoch } } :=
  h.keep k rfl rfl rfl (.inr rfl)

theorem PassOk.drainSession (h : PassOk P ident i epoch t₀ x) (hshard : k.clientId % P.numShards = i) :
    PassOk P ident i epoch t₀ (x.drainSession P epoch k) := by
  unfold Pass.drainSession
  split
  · exact h.forget _
  · have hloop := PassOk.drainLoop hshard (x.shard.holdBuffer k).length (h.touch k) (congrArg _ (setState_self _))
    dsimp only
    split
    · exact hloop.forget _
    · exact hloop

theorem PassOk.drainHeld (h : PassOk P ident i epoch t₀ x) : PassOk P ident i epoch t₀ (x.drainHeld P epoch) := by
  unfold Pass.drainHeld
  apply List.foldlRecOn (motive := PassOk P ident i epoch t₀)
  · exact h
  · intro x' h' k hk
    exact h'.drainSession (h.shard.clients k ((P.iterate_perm _).mem_iff.mp hk)).2

end Embarcadero
