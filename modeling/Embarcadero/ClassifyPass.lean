import Embarcadero.Classify

namespace Embarcadero

open Function (update update_of_ne update_self)
open List

variable {P : Platform} {ident : Nat → SessionKey × Nat} {i epoch : Nat} {t₀ : Topic} {x : Pass}
  {k : SessionKey}

theorem sweepSession_frame (nowNs leaseNs : Nat) (sh : Level5ShardState) (k : SessionKey) :
    ∃ gap, (Pass.sweepSession nowNs leaseNs sh k).1 =
      { sh.clientState k with gapSinceNs := gap } := by
  have hgap : ∃ gap, (sh.clientState k).noteGap nowNs =
      { sh.clientState k with gapSinceNs := gap } := by
    unfold OptimizedClientState.noteGap
    split
    · exact ⟨_, rfl⟩
    · exact ⟨_, rfl⟩
  unfold Pass.sweepSession
  dsimp only
  split
  · exact ⟨_, rfl⟩
  split
  · exact ⟨_, rfl⟩
  split
  · exact ⟨_, rfl⟩
  split
  · exact ⟨_, rfl⟩
  split
  · exact ⟨_, rfl⟩
  · exact hgap

theorem PassOk.sweepOne (h : PassOk P ident i epoch t₀ x) (nowNs leaseNs : Nat) (k : SessionKey) :
    PassOk P ident i epoch t₀ { x with
      shard := x.shard.setState k (Pass.sweepSession nowNs leaseNs x.shard k).1 } := by
  obtain ⟨gap, hgap⟩ := sweepSession_frame nowNs leaseNs x.shard k
  rw [hgap]
  exact h.keep k rfl rfl rfl (.inl rfl)

theorem PassOk.sweep (nowNs leaseNs : Nat) (keys : List SessionKey) :
    ∀ {x : Pass}, PassOk P ident i epoch t₀ x →
      PassOk P ident i epoch t₀ { x with shard := (Pass.sweep nowNs leaseNs keys x.shard).1 } ∧
        ∀ k ∈ (Pass.sweep nowNs leaseNs keys x.shard).2, k ∈ keys := by
  induction keys with
  | nil => exact fun h => ⟨h, fun _ hk => hk⟩
  | cons k rest ih =>
    intro x h
    obtain ⟨h', hsub⟩ := ih (h.sweepOne nowNs leaseNs k)
    refine ⟨h', fun k' hk' => ?_⟩
    rw [Pass.sweep] at hk'
    dsimp only at hk'
    split at hk'
    · rcases mem_cons.mp hk' with rfl | hk'
      · exact .head _
      · exact .tail _ (hsub k' hk')
    · exact .tail _ (hsub k' hk')

theorem PassOk.expireHeld (h : PassOk P ident i epoch t₀ x) (clock : PassClock) :
    PassOk P ident i epoch t₀ (x.expireHeld P clock epoch) := by
  obtain ⟨hs, hsub⟩ := h.sweep clock.sweepNs
    (effectiveOrder5SessionFenceLeaseNs P.sessionLeaseNs clock.forceExpireActive)
    (P.iterate x.shard.clientsWithHeldBatches)
  unfold Pass.expireHeld
  dsimp only
  apply List.foldlRecOn (motive := PassOk P ident i epoch t₀)
  · exact hs
  · intro x' h' k hk
    obtain ⟨hc, hi⟩ := h.shard.clients k ((P.iterate_perm _).mem_iff.mp (hsub k hk))
    exact (h'.touch k).recordFence hc hi

theorem PassOk.creditTerminalized (h : PassOk P ident i epoch t₀ x) :
    PassOk P ident i epoch t₀ x.creditTerminalized where
  classified := h.classified.trans ⟨rfl, fun _ => rfl, fun _ _ => rfl, fun _ => id, id, prefix_rfl⟩
  shard := h.shard
  ready := h.ready
  table := h.table
  notes := h.notes
  pending := h.pending
  sessions := h.sessions

theorem PassOk.clientGc (h : PassOk P ident i epoch t₀ x) :
    PassOk P ident i epoch t₀ { x with shard := x.shard.clientGc epoch } := by
  unfold Level5ShardState.clientGc
  split
  · exact h
  refine h.setShard ⟨h.shard.held, h.shard.deferred, h.shard.clients, fun k hk => ?_⟩ h.ready fun k _ _ _ hok => ?_
  · dsimp only
    split
    · exact .inl rfl
    · exact h.shard.epoch k hk
  · by_cases he : x.shard.evictable epoch k = true
    · -- A session with uncommitted emissions was used in this epoch, so GC does not drop it.
      have hold : (x.shard.clientState k).lastEpoch < epoch := by
        simp only [Level5ShardState.evictable, Bool.and_eq_true, decide_eq_true_eq] at he
        exact he.1.2
      have hne : (x.shard.clientState k).nextExpected ≤ x.topic.cxl.sessions.expected k := by
        by_contra hlt
        exact absurd (hok.recent (Nat.lt_of_not_le hlt)) (Nat.ne_of_lt hold)
      have hf : frontier x.topic.cxl.sessions x.shard k = x.topic.cxl.sessions.expected k :=
        Nat.max_eq_right hne
      have hf' : ∀ sh : Level5ShardState, sh.clientState k = {} →
          frontier x.topic.cxl.sessions sh k = x.topic.cxl.sessions.expected k := by
        intro sh hsh
        rw [frontier, hsh]
        exact Nat.zero_max _
      constructor
      · simp [he]
      · rw [hok.ready, hf, hf' _ (by simp [he])]
      · simp [he]
      · rw [hf' _ (by simp [he]), ← hf]
        exact hok.stored
      · simp [he]
      · intro hheld
        simp only [Level5ShardState.evictable, Bool.and_eq_true, List.isEmpty_iff] at he
        exact absurd he.1.1.1.1 hheld
    · exact hok.untouched ⟨by simp [he], by simp [he], rfl, fun _ hs => .inl hs, rfl⟩

variable {sh : Level5ShardState} {batches input level5 ready : List PendingBatch5} {j n : Nat} {p : PendingBatch5}
  {t : Topic}

theorem PassOk.classifySorted (h : PassOk P ident i epoch t₀ x) (clock : PassClock)
    (hp : ∀ p ∈ batches, Classifiable ident P.numShards i p) (lt : PendingBatch5 → PendingBatch5 → Bool) :
    PassOk P ident i epoch t₀ (x.classifyGroups clock epoch none (P.sort lt batches)) :=
  h.classifyGroups clock (fun p hm => hp p ((P.sort_perm _ batches).mem_iff.mp hm)) none nofun

theorem PassOk.generalPath (h : PassOk P ident i epoch t₀ x) (clock : PassClock)
    (hp : ∀ p ∈ batches, Classifiable ident P.numShards i p) :
    PassOk P ident i epoch t₀ (x.generalPath P clock epoch batches) := by
  have hdone := ((h.classifySorted clock hp Pass.sessionOrder).drainHeld.expireHeld clock).drainHeld
  unfold Pass.generalPath
  dsimp only
  split
  · exact hdone
  · exact hdone.creditTerminalized.clientGc

structure InputOk (ident : Nat → SessionKey × Nat) (n i : Nat) (p : PendingBatch5) : Prop where
  scanned : p.fromHold = false ∧ p.isHeldMarker = false
  identified : p.skipped = false → ident p.cachedBatchId = (p.key, p.batchSeq)
  client : p.clientId ≠ 0
  shard : p.clientId % n = i

theorem InputOk.classifiable (h : InputOk ident n i p) (hs : p.skipped = false) : Classifiable ident n i p :=
  ⟨by simp [PendingBatch5.isMarker, hs, h.scanned.2], h.scanned.1, h.identified hs, h.client, h.shard⟩

theorem Classifiable.inputOk (h : Classifiable ident n i p) : InputOk ident n i p := by
  have hm := h.batch
  simp only [PendingBatch5.isMarker, Bool.or_eq_false_iff] at hm
  exact ⟨⟨h.scanned, hm.2⟩, fun _ => h.identified, h.client, h.shard⟩

theorem PassOk.start (h : PassOk P ident i epoch t { topic := t, shard := sh }) (level5 : List PendingBatch5) :
    PassOk P ident i epoch t (Pass.start t sh level5) :=
  h.setShard ⟨h.shard.held, by simp, h.shard.clients, h.shard.epoch⟩ h.ready
    fun _ _ _ _ hok => hok.untouched ⟨rfl, rfl, rfl, fun _ hs => .inl hs, rfl⟩

theorem PassOk.skipAll (h : PassOk P ident i epoch t₀ x) (hp : ∀ p ∈ level5, InputOk ident P.numShards i p) :
    PassOk P ident i epoch t₀ (x.skipAll P epoch level5) := by
  unfold Pass.skipAll
  refine List.foldlRecOn (motive := PassOk P ident i epoch t₀) _ _ h fun x' h' p hm => ?_
  obtain ⟨hm, hs⟩ := mem_filter.mp hm
  exact h'.skipOne hs (hp p hm).client (hp p hm).shard

theorem ShardOk.inputOk (h : ShardOk ident n i sh) (hp : ∀ p ∈ input, InputOk ident n i p) :
    ∀ p ∈ input ++ sh.deferredLevel5, InputOk ident n i p := by
  intro p hm
  rcases mem_append.mp hm with hm | hm
  · exact hp p hm
  · exact (h.deferred p hm).inputOk

theorem passOk_shard (clock : PassClock) (t : Topic)
    (h : PassOk P ident i t.currentEpochForHold t { topic := t, shard := sh })
    (hp : ∀ p ∈ input, InputOk ident P.numShards i p) :
    PassOk P ident i t.currentEpochForHold t (processLevel5BatchesShard P clock t sh input) := by
  have hall := h.shard.inputOk hp
  have hclass : ∀ p ∈ (input ++ sh.deferredLevel5).filter (!·.skipped), Classifiable ident P.numShards i p := by
    intro p hm
    obtain ⟨hm, hs⟩ := mem_filter.mp hm
    exact (hall p hm).classifiable (by simpa using hs)
  have hskipped := (h.start (input ++ sh.deferredLevel5)).skipAll hall
  rcases processLevel5BatchesShard_cases P clock t sh input with heq | ⟨_, _, heq⟩
  · rw [heq]
    exact hskipped.generalPath clock hclass
  · rw [heq]
    exact (hskipped.classifySorted clock hclass _).clientGc

def Topic.Live (t : Topic) (k : SessionKey) : Prop :=
  t.capacityExhausted = false ∧ t.cxl.sessions.fenced k = false

structure ClassifierOk (P : Platform) (ident : Nat → SessionKey × Nat) (t : Topic)
    (ready : List PendingBatch5) : Prop where
  shards : ∀ i, ShardOk ident P.numShards i (t.shards i)
  table : TableOk t.cxl.sessions t.recoveredNextExpected
  notes : ∀ m ∈ t.fenceNotes, NoteOk t.cxl.sessions m
  pending : t.PendingOk
  consistent : ∀ p ∈ ready, p.isMarker = false → p.HoldConsistent
  sessions : ∀ k : SessionKey, k.Admitted → t.Live k →
    SessionOk ident t.currentEpochForHold t.cxl.sessions (t.shards (k.clientId % P.numShards)) ready k

structure Topic.Processed (t t' : Topic) : Prop where
  shape : t' = { t with
    cxl := { t.cxl with
      ring := t'.cxl.ring
      consumedThrough := t'.cxl.consumedThrough
      sessions := t'.cxl.sessions }
    shards := t'.shards
    order5TotalHoldSize := t'.order5TotalHoldSize
    capacityExhausted := t'.capacityExhausted
    pendingSessionFences := t'.pendingSessionFences
    fenceNotes := t'.fenceNotes
    perClientOrdered := t'.perClientOrdered
    perClientOrderedEpoch := t'.perClientOrderedEpoch }
  expected : ∀ k, t'.cxl.sessions.expected k = t.cxl.sessions.expected k
  fenced : ∀ k, t.cxl.sessions.fenced k = true → t'.cxl.sessions.fenced k = true
  exhausted : t.capacityExhausted = true → t'.capacityExhausted = true
  notes : t.fenceNotes <+: t'.fenceNotes

theorem Topic.Processed.refl (t : Topic) : t.Processed t :=
  ⟨rfl, fun _ => rfl, fun _ => id, id, prefix_rfl⟩

theorem Topic.Processed.trans {t t' t'' : Topic} (h : t.Processed t') (h' : t'.Processed t'') :
    t.Processed t'' where
  shape := h'.shape.trans (by rw [h.shape])
  expected k := (h'.expected k).trans (h.expected k)
  fenced k hk := h'.fenced k (h.fenced k hk)
  exhausted hx := h'.exhausted (h.exhausted hx)
  notes := h.notes.trans h'.notes

theorem Topic.Processed.live {t' : Topic} (h : t.Processed t') (hl : t'.Live k) : t.Live k := by
  refine ⟨?_, ?_⟩
  · rw [← Bool.not_eq_true]
    exact fun hx => Bool.noConfusion (hl.1.symm.trans (h.exhausted hx))
  · rw [← Bool.not_eq_true]
    exact fun hf => Bool.noConfusion (hl.2.symm.trans (h.fenced k hf))

def FromShards (n j : Nat) (ready : List PendingBatch5) : Prop :=
  ∀ p ∈ ready, p.isMarker = false → p.commitMeta.clientId % n < j

theorem seqsOf_eq_nil (h : ∀ p ∈ ready, p.isMarker = false → p.commitMeta.key ≠ k) : seqsOf k ready = [] := by
  simp only [seqsOf, Commit.committed, Commit.batches, map_eq_nil_iff, filter_eq_nil_iff,
    mem_map, mem_filter, decide_eq_true_eq]
  rintro m ⟨p, ⟨hp, hm⟩, rfl⟩
  exact h p hp (by simpa using hm)

theorem FromShards.seqsOf (h : FromShards n j ready) (hk : j ≤ k.clientId % n) : seqsOf k ready = [] := by
  refine seqsOf_eq_nil fun p hp hm hkey => ?_
  have := h p hp hm
  rw [← hkey] at hk
  exact absurd this (Nat.not_lt.mpr hk)

def processShard (P : Platform) (clock : PassClock) (level5 : List PendingBatch5)
    (s : Topic × List PendingBatch5) (i : Nat) : Topic × List PendingBatch5 :=
  let x := processLevel5BatchesShard P clock s.1 (s.1.shards i) (level5.filter (·.clientId % P.numShards = i))
  ({ x.topic with
    shards := update x.topic.shards i x.shard
    order5TotalHoldSize := x.topic.order5TotalHoldSize + x.holdSizeDelta }, s.2 ++ x.ready)

theorem processLevel5Batches_eq (P : Platform) (clock : PassClock) (t : Topic)
    (level5 : List PendingBatch5) : processLevel5Batches P clock t level5 =
      if t.capacityExhausted then (t, [])
      else (List.range P.numShards).foldl (processShard P clock level5) (t, []) := rfl

theorem processLevel5Batches_induction {P : Platform} {clock : PassClock} {I : Topic × List PendingBatch5 → Prop}
    (hstart : I (t, [])) (hshard : ∀ i s, I s → I (processShard P clock level5 s i)) :
    I (processLevel5Batches P clock t level5) := by
  rw [processLevel5Batches_eq]
  split
  · exact hstart
  · induction P.numShards with
    | zero => exact hstart
    | succ n ih =>
      rw [range_succ, foldl_append, foldl_cons, foldl_nil]
      exact hshard n _ ih

theorem ClassifierOk.passOk {t : Topic} {ready : List PendingBatch5} (h : ClassifierOk P ident t ready)
    {j : Nat} (hfrom : FromShards P.numShards j ready) :
    PassOk P ident j t.currentEpochForHold t { topic := t, shard := t.shards j } where
  classified := .refl t
  shard := h.shards j
  ready := by simp
  table := h.table
  notes := h.notes
  pending := h.pending
  sessions k hk hj hl := by
    have hok := h.sessions k hk hl
    rw [hj] at hok
    exact hok.untouched ⟨rfl, rfl, rfl, fun _ hs => .inl hs, by rw [hfrom.seqsOf hj.ge, seqsOf_nil]⟩

theorem ClassifierOk.putBack (h : ClassifierOk P ident t ready) (hfrom : FromShards P.numShards j ready) {x : Pass}
    (hx : PassOk P ident j t.currentEpochForHold t x) {size : Int} :
    ClassifierOk P ident
        { x.topic with shards := update x.topic.shards j x.shard, order5TotalHoldSize := size }
        (ready ++ x.ready) ∧
      FromShards P.numShards (j + 1) (ready ++ x.ready) ∧
      t.Processed
        { x.topic with shards := update x.topic.shards j x.shard, order5TotalHoldSize := size } := by
  have hshards : x.topic.shards = t.shards := by rw [hx.classified.shape]
  have hepoch : x.topic.currentEpochForHold = t.currentEpochForHold := by rw [hx.classified.shape]
  refine ⟨⟨fun i => ?_, hx.table, hx.notes, hx.pending, fun p hp hm => ?_, fun k hk hl => ?_⟩,
    fun p hp hm => ?_, ⟨by rw [hx.classified.shape], hx.classified.expected, hx.classified.fenced,
      hx.classified.exhausted, hx.classified.notes⟩⟩
  · dsimp only
    rw [hshards]
    by_cases hi : i = j
    · rw [hi, update_self]
      exact hx.shard
    · rw [update_of_ne hi]
      exact h.shards i
  · rcases mem_append.mp hp with hp | hp
    · exact h.consistent p hp hm
    · exact (hx.ready p hp hm).consistent
  · dsimp only
    rw [hepoch, hshards]
    by_cases hi : k.clientId % P.numShards = j
    · rw [hi, update_self]
      refine (hx.sessions k hk hi hl).untouched ⟨rfl, rfl, rfl, fun _ hs => .inl hs, ?_⟩
      rw [seqsOf_append, hfrom.seqsOf hi.ge, nil_append]
    · rw [update_of_ne hi]
      -- The pass over shard `j` has not touched the entry of `k`.
      have hget := hx.classified.outside k hi
      have hlive : t.Live k := by
        refine ⟨?_, ?_⟩
        · cases hc : t.capacityExhausted with
          | false => rfl
          | true => exact absurd (hx.classified.exhausted hc) (by simpa using hl.1)
        · have hf : x.topic.cxl.sessions.fenced k = false := hl.2
          rwa [SessionTable.fenced, hget] at hf
      have hnone : seqsOf k x.ready = [] := by
        refine seqsOf_eq_nil fun p hp hm hkey => hi ?_
        rw [← (hx.ready p hp hm).shard, ← hkey]
        rfl
      refine ((h.sessions k hk hlive).sameTable (hx.classified.expected k)).untouched
        ⟨rfl, rfl, rfl, fun _ hs => .inl hs, ?_⟩
      rw [seqsOf_append, hnone, append_nil]
  · rcases mem_append.mp hp with hp | hp
    · exact Nat.lt_succ_of_lt (hfrom p hp hm)
    · exact Nat.lt_succ_of_le (hx.ready p hp hm).shard.le

theorem inputOk_of_shard {m : Nat} (hp : ∀ p ∈ level5, InputOk ident m (p.clientId % m) p) (n : Nat) :
    ∀ p ∈ level5.filter (·.clientId % m = n), InputOk ident m n p := by
  intro p hm
  obtain ⟨hm, hn⟩ := mem_filter.mp hm
  exact of_decide_eq_true hn ▸ hp p hm

theorem ClassifierOk.process_range (h : ClassifierOk P ident t []) (clock : PassClock)
    (hp : ∀ p ∈ level5, InputOk ident P.numShards (p.clientId % P.numShards) p) (n : Nat) :
    ClassifierOk P ident ((List.range n).foldl (processShard P clock level5) (t, [])).1
        ((List.range n).foldl (processShard P clock level5) (t, [])).2 ∧
      FromShards P.numShards n ((List.range n).foldl (processShard P clock level5) (t, [])).2 ∧
      t.Processed ((List.range n).foldl (processShard P clock level5) (t, [])).1 := by
  induction n with
  | zero => exact ⟨h, by simp [FromShards], .refl t⟩
  | succ n ih =>
    obtain ⟨hok, hfrom, hproc⟩ := ih
    rw [range_succ, foldl_append, foldl_cons, foldl_nil]
    have hx := passOk_shard clock _ (hok.passOk hfrom) (inputOk_of_shard hp n)
    obtain ⟨hok', hfrom', hproc'⟩ := hok.putBack hfrom hx
    exact ⟨hok', hfrom', hproc.trans hproc'⟩

theorem ClassifierOk.process (h : ClassifierOk P ident t []) (clock : PassClock)
    (hp : ∀ p ∈ level5, InputOk ident P.numShards (p.clientId % P.numShards) p) :
    ClassifierOk P ident (processLevel5Batches P clock t level5).1
        (processLevel5Batches P clock t level5).2 ∧
      t.Processed (processLevel5Batches P clock t level5).1 := by
  rw [processLevel5Batches_eq]
  split
  · exact ⟨h, .refl t⟩
  · obtain ⟨hok, -, hproc⟩ := h.process_range clock hp P.numShards
    exact ⟨hok, hproc⟩

end Embarcadero
