import Embarcadero.HoldBuffer

namespace Embarcadero

open List
open Function (update)

def Platform.SortsByComparison (P : Platform) : Prop :=
  ∀ {α : Type} (lt lt' : α → α → Bool) (l : List α), (∀ a ∈ l, ∀ b ∈ l, lt a b = lt' a b) → P.sort lt l = P.sort lt' l

structure Level5ShardState.Idle (sh : Level5ShardState) : Prop where
  size : sh.holdBufferSize = 0
  hold : ∀ k, sh.holdBuffer k = []
  clients : sh.clientsWithHeldBatches = []
  deferred : sh.deferredLevel5 = []

def Level5ShardState.Tells (sh : Level5ShardState) (l : List PendingBatch5) : Prop :=
  (l.map (·.batchSeq)).Nodup ∨ (l.map (·.cachedBatchId)).Nodup ∧ ∀ p ∈ l, ¬sh.dedup.Stored p.cachedBatchId

namespace Pass

def reconstructed (epoch : Nat) (k : SessionKey) (x : Pass) : OptimizedClientState :=
  x.topic.reconstructClientState k
    { x.shard.clientState k with sessionEpoch := k.sessionEpoch, lastEpoch := epoch }

def expires (P : Platform) (clock : PassClock) (s : OptimizedClientState) (since : Nat) : Bool :=
  shouldFenceSessionGap { s with gapSinceNs := since } clock.sweepNs
    (effectiveOrder5SessionFenceLeaseNs P.sessionLeaseNs clock.forceExpireActive)

structure Uneventful (P : Platform) (clock : PassClock) (epoch : Nat) (k : SessionKey) (l : List PendingBatch5)
    (x : Pass) : Prop where
  running : x.topic.capacityExhausted = false
  emitted : ∀ s, (x.shard.clientEmittedTracker k).isEmitted s = true → s < (x.reconstructed epoch k).nextExpected
  told : x.shard.Tells l
  timely : (x.reconstructed epoch k).fenced = false → ∀ p ∈ l,
    (x.shard.clientEmittedTracker k).isEmitted p.batchSeq = true ∨
      (x.reconstructed epoch k).nextExpected ≤ p.batchSeq
  ticking : ∀ p ∈ l, clock.classifyNs p ≠ 0
  gap : expires P clock (x.reconstructed epoch k) (x.reconstructed epoch k).gapSinceNs = false
  noted : ∀ p ∈ l, expires P clock (x.reconstructed epoch k) (clock.classifyNs p) = false

structure Attends (epoch : Nat) (k : SessionKey) (x : Pass) : Prop where
  recent : (x.shard.clientState k).lastEpoch = epoch
  clients : x.shard.clientsWithHeldBatches = if x.shard.holdBuffer k = [] then [] else [k]

structure Settled (P : Platform) (clock : PassClock) (k : SessionKey) (s₀ : OptimizedClientState)
    (t : Topic) (l : List PendingBatch5) (x : Pass) : Prop where
  topic : x.topic = t
  credits : x.terminalizedDelta = []
  session : (x.shard.clientState k).sessionEpoch = s₀.sessionEpoch
  fenced : (x.shard.clientState k).fenced = s₀.fenced
  above : ∀ e ∈ x.shard.holdBuffer k, (x.shard.clientState k).nextExpected < e.1 ∧ ∀ q ∈ l, e.1 ≤ q.batchSeq
  open_ : x.shard.holdBuffer k ≠ [] → (x.shard.clientState k).fenced = false ∧
    (x.shard.clientState k).gapSinceNs ≠ 0
  gap : expires P clock (x.shard.clientState k) (x.shard.clientState k).gapSinceNs = false
  emitted : ∀ s, (x.shard.clientEmittedTracker k).isEmitted s = true → s < (x.shard.clientState k).nextExpected
  told : x.shard.Tells l
  timely : (x.shard.clientState k).fenced = false → ∀ p ∈ l,
    (x.shard.clientEmittedTracker k).isEmitted p.batchSeq = true ∨
      (x.shard.clientState k).nextExpected ≤ p.batchSeq

def classified (P : Platform) (clock : PassClock) (epoch : Nat) (k : SessionKey) (l : List PendingBatch5) (x : Pass) :
    Pass :=
  (P.sort (fun a b => decide (a.batchSeq < b.batchSeq)) l).foldl
    (fun x p => classifyOne (clock.classifyNs p) k p x) (beginSession epoch k x)

/-- What only one of the paths does has nothing to do after the classification; with the capacity exhausted it is the
general path that leaves out `ClientGc`. -/
structure NothingOmitted (P : Platform) (clock : PassClock) (epoch : Nat) (k : SessionKey) (x : Pass) : Prop where
  drained : (x.shard.holdBuffer k).lookup (x.shard.clientState k).nextExpected = none
  swept : Pass.expireHeld P clock epoch x = x
  credited : x.topic.capacityExhausted = false → creditTerminalized x = x
  collected : x.topic.capacityExhausted = true → x.shard.clientGc epoch = x.shard

end Pass

variable {P : Platform} {clock : PassClock} {epoch : Nat} {k : SessionKey} {s₀ : OptimizedClientState} {t : Topic}
  {l rest : List PendingBatch5} {p : PendingBatch5} {x y : Pass}

theorem OptimizedClientState.skipPast_of_lt {s : OptimizedClientState} {seq : Nat} (h : seq < s.nextExpected) :
    s.skipPast seq = s.markSequenced seq := by
  rw [skipPast, if_neg]
  rw [markSequenced_nextExpected]
  exact Nat.not_le.mpr h

@[simp] theorem OptimizedClientState.markSequenced_gapSinceNs (s : OptimizedClientState) (seq : Nat) :
    (s.markSequenced seq).gapSinceNs = s.gapSinceNs := by
  obtain ⟨_, _, _, h⟩ := markSequenced_frame s seq
  rw [h]

theorem Topic.lastEpoch_reconstruct (t : Topic) (k : SessionKey) (s : OptimizedClientState) :
    (t.reconstructClientState k s).lastEpoch = s.lastEpoch := by
  have hrecovered := (s.applyRecovered_frame (t.recoveredNextExpected k)).2.2.2
  rw [Topic.reconstructClientState]
  split
  · rw [(OptimizedClientState.applyRecovered_frame _ _).2.2.2, (OptimizedClientState.applyEntry_frame _ _).2.2.2,
      hrecovered]
  · exact hrecovered

namespace Level5ShardState

theorem setState_clientState (sh : Level5ShardState) (k : SessionKey) : sh.setState k (sh.clientState k) = sh := by
  rw [setState, Function.update_eq_self]

theorem setState_setState (sh : Level5ShardState) (k : SessionKey) (s s' : OptimizedClientState) :
    (sh.setState k s).setState k s' = sh.setState k s' := by
  rw [setState, setState, setState, Function.update_idem]

theorem Tells.perm {sh : Level5ShardState} {l l' : List PendingBatch5} (h : sh.Tells l) (hperm : l'.Perm l) :
    sh.Tells l' := by
  refine h.imp (fun hseq => ((hperm.map _).nodup_iff).mpr hseq) fun hid => ⟨((hperm.map _).nodup_iff).mpr hid.1, ?_⟩
  exact fun p hp => hid.2 p (hperm.mem_iff.mp hp)

theorem Tells.tail {sh sh' : Level5ShardState} (h : sh.Tells (p :: rest))
    (hstored : ∀ id, sh'.dedup.Stored id → id = p.cachedBatchId ∨ sh.dedup.Stored id) : sh'.Tells rest := by
  cases h with
  | inl hseq => exact .inl (nodup_cons.mp hseq).2
  | inr hid =>
    obtain ⟨hnot, hnodup⟩ := nodup_cons.mp hid.1
    refine .inr ⟨hnodup, fun q hq hq' => ?_⟩
    cases hstored _ hq' with
    | inl heq => exact hnot (mem_map.mpr ⟨q, hq, heq⟩)
    | inr hold => exact hid.2 q (mem_cons_of_mem _ hq) hold

theorem Tells.unique {sh : Level5ShardState} (h : sh.Tells (p :: rest)) (hstored : sh.dedup.Stored p.cachedBatchId)
    {q : PendingBatch5} (hq : q ∈ rest) : q.batchSeq ≠ p.batchSeq := by
  cases h with
  | inl hseq =>
    intro heq
    exact (nodup_cons.mp hseq).1 (mem_map.mpr ⟨q, hq, heq⟩)
  | inr hid => exact absurd hstored (hid.2 p mem_cons_self)

end Level5ShardState

namespace Pass

namespace Attends

theorem touch (h : x.Attends epoch k) (hhold : y.shard.holdBuffer = x.shard.holdBuffer)
    (hclients : y.shard.clientsWithHeldBatches = x.shard.clientsWithHeldBatches)
    (hlast : (y.shard.clientState k).lastEpoch = (x.shard.clientState k).lastEpoch) : y.Attends epoch k where
  recent := hlast.trans h.recent
  clients := by rw [hclients, hhold, h.clients]

theorem park (h : x.Attends epoch k) (nowNs : Nat) (p : PendingBatch5) : (Pass.park nowNs k p x).Attends epoch k := by
  have hlast : ((x.shard.setState k ((x.shard.clientState k).noteGap nowNs)).clientState k).lastEpoch =
      (x.shard.clientState k).lastEpoch := by simp
  rw [Pass.park]
  split
  · split
    · exact h.touch rfl rfl hlast
    · split
      · exact h.touch rfl rfl hlast
      · exact h.touch rfl rfl hlast
  · split
    · exact h.touch rfl rfl hlast
    · refine ⟨hlast.trans h.recent, ?_⟩
      have hclients := h.clients
      have hne : insertHeld p.batchSeq ⟨p, p.cachedMeta, nowNs⟩ (x.shard.holdBuffer k) ≠ [] := by
        intro hnil
        have hlen := (perm_insertHeld p.batchSeq ⟨p, p.cachedMeta, nowNs⟩ (x.shard.holdBuffer k)).length_eq
        rw [hnil] at hlen
        cases hlen
      by_cases hnil : x.shard.holdBuffer k = []
      · rw [if_pos hnil] at hclients
        simp [Level5ShardState.setState, hne, hclients]
      · rw [if_neg hnil] at hclients
        simp [Level5ShardState.setState, hne, hclients]

theorem classifyOne (h : x.Attends epoch k) (nowNs : Nat) (p : PendingBatch5) :
    (Pass.classifyOne nowNs k p x).Attends epoch k := by
  rw [Pass.classifyOne]
  split
  · exact h.touch rfl rfl rfl
  split
  · exact h.touch rfl rfl rfl
  split
  · exact h.touch rfl rfl (by
      simp [Level5ShardState.terminalizeAlreadyEmitted, Level5ShardState.accumulateLogicalOnly,
        Level5ShardState.checkAndInsertBatchId])
  split
  · rw [Pass.emitNext]
    split
    · exact h.touch rfl rfl (by simp [Level5ShardState.checkAndInsertBatchId])
    · exact h.touch rfl rfl (by simp [Level5ShardState.checkAndInsertBatchId, Level5ShardState.markEmitted])
  split
  · rw [Pass.dropLate]
    split
    · exact h.touch rfl rfl (by simp [Level5ShardState.checkAndInsertBatchId])
    · exact h.touch rfl rfl (by simp [Level5ShardState.checkAndInsertBatchId, Level5ShardState.accumulateLogicalOnly])
  · exact h.park nowNs p

theorem iterate_clients (h : x.Attends epoch k) :
    P.iterate x.shard.clientsWithHeldBatches = if x.shard.holdBuffer k = [] then [] else [k] := by
  have hperm := P.iterate_perm x.shard.clientsWithHeldBatches
  rw [h.clients] at hperm ⊢
  split at hperm
  next hnil =>
    rw [if_pos hnil]
    exact hperm.eq_nil
  next hne =>
    rw [if_neg hne]
    exact perm_singleton.mp hperm

theorem setState_recent (h : x.Attends epoch k) :
    x.shard.setState k { x.shard.clientState k with lastEpoch := epoch } = x.shard := by
  rw [← h.recent]
  exact x.shard.setState_clientState k

theorem drainHeld_cons (h : x.Attends epoch k) (hne : x.shard.holdBuffer k ≠ []) : Pass.drainHeld P epoch x =
    let z := Pass.drainLoop P k (x.shard.holdBuffer k).length x
    if (z.shard.holdBuffer k).isEmpty then
      { z with shard := { z.shard with clientsWithHeldBatches := z.shard.clientsWithHeldBatches.filter (· ≠ k) } }
    else z := by
  have hempty : ¬(x.shard.holdBuffer k).isEmpty = true := fun hnil => hne (List.isEmpty_iff.mp hnil)
  rw [Pass.drainHeld, h.iterate_clients, if_neg hne, foldl_cons, foldl_nil, Pass.drainSession, if_neg hempty,
    h.setState_recent]

theorem drainHeld_eq (h : x.Attends epoch k)
    (hnone : (x.shard.holdBuffer k).lookup (x.shard.clientState k).nextExpected = none) :
    Pass.drainHeld P epoch x = x := by
  by_cases hnil : x.shard.holdBuffer k = []
  · rw [Pass.drainHeld, h.iterate_clients, if_pos hnil, foldl_nil]
  have hloop : ∀ fuel, Pass.drainLoop P k fuel x = x := by
    intro fuel
    cases fuel with
    | zero => rfl
    | succ fuel => rw [Pass.drainLoop, hnone]
  rw [h.drainHeld_cons hnil, hloop]
  exact if_neg fun hempty => hnil (List.isEmpty_iff.mp hempty)

end Attends

namespace Settled

theorem touch (h : x.Settled P clock k s₀ t (p :: rest)) {s : OptimizedClientState}
    (htopic : y.topic = x.topic) (hcredits : y.terminalizedDelta = x.terminalizedDelta)
    (hhold : y.shard.holdBuffer = x.shard.holdBuffer) (hstate : y.shard.clientState k = s)
    (hsession : s.sessionEpoch = (x.shard.clientState k).sessionEpoch)
    (hfenced : s.fenced = (x.shard.clientState k).fenced)
    (hnext : x.shard.holdBuffer k ≠ [] → s.nextExpected = (x.shard.clientState k).nextExpected ∧ s.gapSinceNs ≠ 0)
    (hgap : expires P clock s s.gapSinceNs = false)
    (hemitted : ∀ j, (y.shard.clientEmittedTracker k).isEmitted j = true → j < s.nextExpected)
    (hstored : ∀ id, y.shard.dedup.Stored id → id = p.cachedBatchId ∨ x.shard.dedup.Stored id)
    (htimely : s.fenced = false → ∀ q ∈ rest, (y.shard.clientEmittedTracker k).isEmitted q.batchSeq = true ∨
      s.nextExpected ≤ q.batchSeq) : y.Settled P clock k s₀ t rest where
  topic := htopic.trans h.topic
  credits := hcredits.trans h.credits
  session := by rw [hstate, hsession, h.session]
  fenced := by rw [hstate, hfenced, h.fenced]
  above e he := by
    rw [hhold] at he
    rw [hstate, (hnext (ne_nil_of_mem he)).1]
    exact ⟨(h.above e he).1, fun q hq => (h.above e he).2 q (mem_cons_of_mem _ hq)⟩
  open_ hne := by
    rw [hhold] at hne
    rw [hstate, hfenced]
    exact ⟨(h.open_ hne).1, (hnext hne).2⟩
  gap := hstate ▸ hgap
  emitted := hstate ▸ hemitted
  told := h.told.tail hstored
  timely := hstate ▸ htimely

theorem touch_same (h : x.Settled P clock k s₀ t (p :: rest)) {s : OptimizedClientState}
    (htopic : y.topic = x.topic) (hcredits : y.terminalizedDelta = x.terminalizedDelta)
    (hhold : y.shard.holdBuffer = x.shard.holdBuffer)
    (htracker : y.shard.clientEmittedTracker = x.shard.clientEmittedTracker) (hstate : y.shard.clientState k = s)
    (hsame : s.sessionEpoch = (x.shard.clientState k).sessionEpoch ∧ s.fenced = (x.shard.clientState k).fenced ∧
      s.nextExpected = (x.shard.clientState k).nextExpected) (hopen : x.shard.holdBuffer k ≠ [] → s.gapSinceNs ≠ 0)
    (hgap : expires P clock s s.gapSinceNs = false)
    (hstored : ∀ id, y.shard.dedup.Stored id → id = p.cachedBatchId ∨ x.shard.dedup.Stored id) :
    y.Settled P clock k s₀ t rest := by
  obtain ⟨hsession, hfenced, hnext⟩ := hsame
  refine h.touch htopic hcredits hhold hstate hsession hfenced (fun hne => ⟨hnext, hopen hne⟩) hgap
    (fun j hj => ?_) hstored fun hf q hq => ?_
  · rw [htracker] at hj
    rw [hnext]
    exact h.emitted j hj
  · rw [htracker, hnext]
    exact h.timely (hfenced ▸ hf) q (mem_cons_of_mem _ hq)

theorem expires_congr {s s' : OptimizedClientState} (hsession : s'.sessionEpoch = s.sessionEpoch)
    (hfenced : s'.fenced = s.fenced) (since : Nat) : expires P clock s' since = expires P clock s since := by
  simp [expires, shouldFenceSessionGap, hsession, hfenced]

theorem expires_zero (s : OptimizedClientState) : expires P clock s 0 = false := by
  simp [expires, shouldFenceSessionGap]

theorem emitNext (h : x.Settled P clock k s₀ t (p :: rest))
    (hsorted : ∀ q ∈ rest, p.batchSeq ≤ q.batchSeq) (hseq : p.batchSeq = (x.shard.clientState k).nextExpected) :
    (Pass.emitNext k p.batchSeq p.cachedBatchId p x).Settled P clock k s₀ t rest := by
  have hnil : ∀ {Q : Prop}, x.shard.holdBuffer k ≠ [] → Q := by
    intro Q hne
    obtain ⟨e, he⟩ := exists_mem_of_ne_nil _ hne
    obtain ⟨hlt, hle⟩ := h.above e he
    exact absurd (hle p mem_cons_self) (by omega)
  have hnext : ((x.shard.clientState k).markSequenced p.batchSeq).advanceNextExpected.nextExpected =
      p.batchSeq + 1 := by simp [hseq]
  have hlate : ∀ q ∈ rest, q.batchSeq ≠ p.batchSeq →
      ((x.shard.clientState k).markSequenced p.batchSeq).advanceNextExpected.nextExpected ≤ q.batchSeq := by
    intro q hq hne
    have hle := hsorted q hq
    omega
  rw [Pass.emitNext]
  split
  next hseen =>
    refine h.touch rfl rfl rfl (setState_self _) (by simp) (by simp) hnil (expires_zero _)
      (fun j hj => ?_) (fun _ => stored_checkAndInsertBatchId) fun _ q hq => .inr (hlate q hq ?_)
    · exact (h.emitted j hj).trans (by omega)
    · exact h.told.unique (stored_of_seen hseen) hq
  · refine h.touch rfl rfl rfl (setState_self _) (by simp) (by simp) hnil (expires_zero _)
      (fun j hj => ?_) (fun _ => stored_checkAndInsertBatchId) fun _ q hq => ?_
    · rw [markEmitted_self] at hj
      cases (ClientEmitTracker.isEmitted_markEmitted.mp hj) with
      | inl hnew => omega
      | inr hold => exact (h.emitted j hold).trans (by omega)
    · by_cases hne : q.batchSeq = p.batchSeq
      · left
        rw [markEmitted_self]
        exact ClientEmitTracker.isEmitted_markEmitted.mpr (.inl hne)
      · exact .inr (hlate q hq hne)

theorem insert (h : x.Settled P clock k s₀ t rest) (he : HoldEntry5)
    (hsorted : ∀ q ∈ rest, p.batchSeq ≤ q.batchSeq) (hgt : (x.shard.clientState k).nextExpected < p.batchSeq)
    (hopen : (x.shard.clientState k).fenced = false ∧ (x.shard.clientState k).gapSinceNs ≠ 0)
    (ready : List PendingBatch5) (size : Nat) (delta : Int) :
    Settled P clock k s₀ t rest { x with
      shard := { x.shard with
        holdBuffer := update x.shard.holdBuffer k (insertHeld p.batchSeq he (x.shard.holdBuffer k))
        holdBufferSize := size
        clientsWithHeldBatches :=
          if x.shard.clientsWithHeldBatches.contains k then x.shard.clientsWithHeldBatches
          else x.shard.clientsWithHeldBatches ++ [k] }
      ready := ready
      holdSizeDelta := delta } := by
  refine { h with above := fun e hmem => ?_, open_ := fun _ => hopen }
  dsimp only at hmem
  rw [Function.update_self] at hmem
  cases mem_insertHeld hmem with
  | inl heq =>
    rw [heq]
    exact ⟨hgt, hsorted⟩
  | inr hold => exact h.above e hold

theorem park (h : x.Settled P clock k s₀ t (p :: rest)) (hsorted : ∀ q ∈ rest, p.batchSeq ≤ q.batchSeq)
    (hgt : (x.shard.clientState k).nextExpected < p.batchSeq) (hopen : (x.shard.clientState k).fenced = false)
    (hclock : clock.classifyNs p ≠ 0) (hnoted : expires P clock s₀ (clock.classifyNs p) = false) :
    (Pass.park (clock.classifyNs p) k p x).Settled P clock k s₀ t rest := by
  let s := (x.shard.clientState k).noteGap (clock.classifyNs p)
  have hsame : s.sessionEpoch = (x.shard.clientState k).sessionEpoch ∧ s.fenced = (x.shard.clientState k).fenced ∧
      s.nextExpected = (x.shard.clientState k).nextExpected := by simp [s]
  have hgap : s.gapSinceNs ≠ 0 ∧ expires P clock s s.gapSinceNs = false := by
    rw [expires_congr hsame.1 hsame.2.1]
    by_cases hzero : (x.shard.clientState k).gapSinceNs = 0
    · have hs : s.gapSinceNs = clock.classifyNs p := by simp [s, OptimizedClientState.noteGap, hopen, hzero]
      rw [hs, expires_congr h.session h.fenced]
      exact ⟨hclock, hnoted⟩
    · have hs : s.gapSinceNs = (x.shard.clientState k).gapSinceNs := by
        simp [s, OptimizedClientState.noteGap, hzero]
      rw [hs]
      exact ⟨hzero, h.gap⟩
  have hmoved := h.touch_same (y := { x with shard := x.shard.setState k s }) rfl rfl rfl rfl
    (setState_self s) hsame (fun _ => hgap.1) hgap.2 fun _ => .inr
  rw [Pass.park]
  split
  · split
    · exact { hmoved with }
    · split
      · exact { hmoved with }
      · exact { hmoved with }
  · split
    · exact { hmoved with }
    · refine hmoved.insert ⟨p, p.cachedMeta, clock.classifyNs p⟩ hsorted ?_ ?_ _ _ _
      · rw [setState_self, hsame.2.2]
        exact hgt
      · rw [setState_self, hsame.2.1]
        exact ⟨hopen, hgap.1⟩

theorem classifyOne (h : x.Settled P clock k s₀ t (p :: rest)) (hsorted : ∀ q ∈ rest, p.batchSeq ≤ q.batchSeq)
    (hclock : clock.classifyNs p ≠ 0) (hnoted : expires P clock s₀ (clock.classifyNs p) = false) :
    (Pass.classifyOne (clock.classifyNs p) k p x).Settled P clock k s₀ t rest := by
  have hopen : x.shard.holdBuffer k ≠ [] → (x.shard.clientState k).gapSinceNs ≠ 0 := fun hne => (h.open_ hne).2
  rw [Pass.classifyOne]
  split
  · exact h.touch_same rfl rfl rfl rfl rfl ⟨rfl, rfl, rfl⟩ hopen h.gap fun _ => .inr
  rename_i hfenced
  split
  · exact h.touch_same rfl rfl rfl rfl rfl ⟨rfl, rfl, rfl⟩ hopen h.gap fun _ => stored_checkAndInsertBatchId
  split
  next hemitted =>
    rw [OptimizedClientState.skipPast_of_lt (h.emitted _ hemitted)]
    refine h.touch_same rfl rfl rfl rfl (setState_self _) (by simp) (by simpa using hopen) ?_
      fun _ => stored_checkAndInsertBatchId
    rw [OptimizedClientState.markSequenced_gapSinceNs, expires_congr (s := x.shard.clientState k) (by simp) (by simp)]
    exact h.gap
  rename_i hemitted
  have hlive : (x.shard.clientState k).fenced = false := Bool.eq_false_iff.mpr hfenced
  have hnext := (h.timely hlive p mem_cons_self).resolve_left hemitted
  split
  · exact h.emitNext hsorted ‹_›
  rename_i hseq
  split
  next hlate => exact absurd hlate (Nat.not_lt.mpr hnext)
  · exact h.park hsorted (hnext.lt_of_ne' hseq) hlive hclock hnoted

theorem classifySession {batches : List PendingBatch5} (hclock : ∀ p ∈ batches, clock.classifyNs p ≠ 0)
    (hnoted : ∀ p ∈ batches, expires P clock s₀ (clock.classifyNs p) = false)
    (hsorted : batches.Pairwise fun p q => p.batchSeq ≤ q.batchSeq) :
    ∀ {x : Pass}, x.Settled P clock k s₀ t batches →
      (batches.foldl (fun x p => Pass.classifyOne (clock.classifyNs p) k p x) x).Settled P clock k s₀ t [] := by
  induction batches with
  | nil => exact fun h => h
  | cons p rest ih =>
    intro x h
    rw [pairwise_cons] at hsorted
    exact ih (fun q hq => hclock q (.tail p hq)) (fun q hq => hnoted q (.tail p hq)) hsorted.2
      (h.classifyOne hsorted.1 (hclock p (.head rest)) (hnoted p (.head rest)))

theorem lookup_eq_none (h : x.Settled P clock k s₀ t l) :
    (x.shard.holdBuffer k).lookup (x.shard.clientState k).nextExpected = none := by
  cases hlookup : (x.shard.holdBuffer k).lookup (x.shard.clientState k).nextExpected with
  | none => rfl
  | some he => exact absurd (h.above _ (Assoc.mem_of_lookup hlookup)).1 (lt_irrefl _)

theorem sweepSession_eq (h : x.Settled P clock k s₀ t l) :
    Pass.sweepSession clock.sweepNs (effectiveOrder5SessionFenceLeaseNs P.sessionLeaseNs clock.forceExpireActive)
      x.shard k = (x.shard.clientState k, false) := by
  rw [Pass.sweepSession]
  split
  · rfl
  rename_i maxHeld he hlast
  have hmem := mem_of_getLast? hlast
  obtain ⟨hfenced, hgap⟩ := h.open_ (ne_nil_of_mem hmem)
  have hnote : (x.shard.clientState k).noteGap clock.sweepNs = x.shard.clientState k := by
    simp [OptimizedClientState.noteGap, hgap]
  have hclear : shouldClearSessionGapFromHeldMax (x.shard.clientState k).nextExpected maxHeld = false :=
    decide_eq_false (Nat.not_le.mpr (h.above _ hmem).1)
  split
  · rfl
  rw [hfenced, h.lookup_eq_none, hclear, hnote]
  exact Prod.ext rfl h.gap

theorem expireHeld_eq (h : x.Settled P clock k s₀ t l) (hattends : x.Attends epoch k) :
    Pass.expireHeld P clock epoch x = x := by
  have hself := x.shard.setState_clientState k
  rw [Pass.expireHeld, hattends.iterate_clients]
  by_cases hnil : x.shard.holdBuffer k = []
  · simp only [if_pos hnil, Pass.sweep, foldl_nil]
  · simp only [if_neg hnil, Pass.sweep, h.sweepSession_eq, hself]
    rfl

end Settled

theorem creditTerminalized_eq (h : x.terminalizedDelta = []) : creditTerminalized x = x := by
  cases x
  cases h
  rfl

theorem settled_beginSession (hidle : x.shard.Idle) (hcredits : x.terminalizedDelta = [])
    (h : x.Uneventful P clock epoch k l) :
    (Pass.beginSession epoch k x).Settled P clock k (x.reconstructed epoch k) x.topic l := by
  -- what the tracker knows is below the frontier, so it never raises it
  have hstart : Pass.beginSession epoch k x = { x with shard := x.shard.setState k (x.reconstructed epoch k) } := by
    rw [Pass.beginSession]
    split
    next m hm =>
      have hlt := h.emitted m (by simp [ClientEmitTracker.isEmitted, hm])
      have hne : (x.reconstructed epoch k).nextExpected ≠ 0 := Nat.ne_of_gt (Nat.zero_lt_of_lt hlt)
      exact congrArg (fun s => { x with shard := x.shard.setState k s }) (if_neg hne)
    · rfl
  have hstate : (x.shard.setState k (x.reconstructed epoch k)).clientState k = x.reconstructed epoch k :=
    setState_self _
  have hnil : x.shard.holdBuffer k = [] := hidle.hold k
  rw [hstart]
  exact {
    topic := rfl
    credits := hcredits
    session := by rw [hstate]
    fenced := by rw [hstate]
    above := fun e he => by
      change e ∈ x.shard.holdBuffer k at he
      rw [hnil] at he
      cases he
    open_ := fun hne => absurd hnil hne
    gap := by rw [hstate]; exact h.gap
    emitted := by rw [hstate]; exact h.emitted
    told := h.told
    timely := by rw [hstate]; exact h.timely }

theorem attends_beginSession (hidle : x.shard.Idle) : (Pass.beginSession epoch k x).Attends epoch k := by
  refine ⟨?_, hidle.clients.trans (if_pos (hidle.hold k)).symm⟩
  have hlast := x.topic.lastEpoch_reconstruct k
    { x.shard.clientState k with sessionEpoch := k.sessionEpoch, lastEpoch := epoch }
  rw [Pass.beginSession, setState_self]
  split
  · split
    · exact hlast
    · exact hlast
  · exact hlast

theorem attends_classified (P : Platform) (clock : PassClock) (epoch : Nat) (k : SessionKey) (l : List PendingBatch5)
    (hidle : x.shard.Idle) : (classified P clock epoch k l x).Attends epoch k :=
  foldlRecOn _ _ (attends_beginSession hidle) fun _ h p _ => h.classifyOne (clock.classifyNs p) p

section Omitted

variable {he : HoldEntry5}

theorem drainOne_frame (P : Platform) (k : SessionKey) (he : HoldEntry5) (x : Pass) :
    (Pass.drainOne P k he x).shard.holdBuffer k =
        (x.shard.holdBuffer k).filter (·.1 ≠ (x.shard.clientState k).nextExpected) ∧
      (Pass.drainOne P k he x).shard.clientsWithHeldBatches = x.shard.clientsWithHeldBatches ∧
      ((Pass.drainOne P k he x).shard.clientState k).lastEpoch = (x.shard.clientState k).lastEpoch := by
  rw [Pass.drainOne]
  split
  · exact ⟨Function.update_self _ _ _, rfl, congrArg _ (setState_self _) |>.trans (by simp)⟩
  · rw [Pass.emitNext]
    split
    · exact ⟨Function.update_self _ _ _, rfl, congrArg _ (setState_self _) |>.trans (by simp)⟩
    · exact ⟨Function.update_self _ _ _, rfl, congrArg _ (setState_self _) |>.trans (by simp)⟩

theorem length_drainOne (h : (x.shard.holdBuffer k).lookup (x.shard.clientState k).nextExpected = some he) :
    ((Pass.drainOne P k he x).shard.holdBuffer k).length < (x.shard.holdBuffer k).length := by
  rw [(drainOne_frame P k he x).1]
  exact length_filter_lt_length_iff_exists.mpr ⟨_, Assoc.mem_of_lookup h, by simp⟩

theorem drainLoop_frame (fuel : Nat) : ∀ x : Pass,
    ((Pass.drainLoop P k fuel x).shard.holdBuffer k).length ≤ (x.shard.holdBuffer k).length ∧
      (Pass.drainLoop P k fuel x).shard.clientsWithHeldBatches = x.shard.clientsWithHeldBatches ∧
      ((Pass.drainLoop P k fuel x).shard.clientState k).lastEpoch = (x.shard.clientState k).lastEpoch := by
  induction fuel with
  | zero => exact fun _ => ⟨Nat.le_refl _, rfl, rfl⟩
  | succ fuel ih =>
    intro x
    rw [Pass.drainLoop]
    split
    · exact ⟨Nat.le_refl _, rfl, rfl⟩
    next he hlookup =>
      obtain ⟨hlen, hclients, hlast⟩ := ih (Pass.drainOne P k he x)
      obtain ⟨-, hclients', hlast'⟩ := drainOne_frame P k he x
      exact ⟨hlen.trans (length_drainOne hlookup).le, hclients.trans hclients', hlast.trans hlast'⟩

theorem Attends.drainHeld (h : x.Attends epoch k) : (Pass.drainHeld P epoch x).Attends epoch k ∧
    ((Pass.drainHeld P epoch x).shard.holdBuffer k).length ≤ (x.shard.holdBuffer k).length := by
  by_cases hnil : x.shard.holdBuffer k = []
  · rw [h.drainHeld_eq (by rw [hnil]; rfl)]
    exact ⟨h, Nat.le_refl _⟩
  obtain ⟨hlen, hclients, hlast⟩ := drainLoop_frame (P := P) (k := k) (x.shard.holdBuffer k).length x
  have hheld := h.clients
  rw [if_neg hnil] at hheld
  rw [h.drainHeld_cons hnil]
  dsimp only
  split
  next hempty =>
    refine ⟨⟨hlast.trans h.recent, ?_⟩, hlen⟩
    dsimp only
    rw [hclients, hheld, if_pos (List.isEmpty_iff.mp hempty)]
    simp
  next hempty =>
    refine ⟨⟨hlast.trans h.recent, ?_⟩, hlen⟩
    rw [hclients, hheld, if_neg fun hnil => hempty (List.isEmpty_iff.mpr hnil)]

theorem Attends.length_drainHeld (h : x.Attends epoch k)
    (hsome : (x.shard.holdBuffer k).lookup (x.shard.clientState k).nextExpected = some he) :
    ((Pass.drainHeld P epoch x).shard.holdBuffer k).length < (x.shard.holdBuffer k).length := by
  have hmem := Assoc.mem_of_lookup hsome
  obtain ⟨n, hn⟩ := Nat.exists_eq_succ_of_ne_zero (length_pos_of_mem hmem).ne'
  have hlen := ((drainLoop_frame (P := P) (k := k) n (Pass.drainOne P k he x)).1).trans_lt (length_drainOne hsome)
  rw [h.drainHeld_cons (ne_nil_of_mem hmem), hn, Pass.drainLoop, hsome]
  dsimp only
  rw [← hn]
  split
  · exact hlen
  · exact hlen

theorem sweepSession_frame (nowNs leaseNs : Nat) (sh : Level5ShardState) (k : SessionKey) :
    (Pass.sweepSession nowNs leaseNs sh k).1.nextExpected = (sh.clientState k).nextExpected ∧
      (Pass.sweepSession nowNs leaseNs sh k).1.lastEpoch = (sh.clientState k).lastEpoch := by
  rw [Pass.sweepSession]
  split
  · exact ⟨rfl, rfl⟩
  split
  · exact ⟨rfl, rfl⟩
  split
  · exact ⟨rfl, rfl⟩
  split
  · exact ⟨rfl, rfl⟩
  split
  · exact ⟨rfl, rfl⟩
  · exact ⟨by simp, by simp⟩

def Swept (k : SessionKey) (x y : Pass) : Prop :=
  (y.shard.holdBuffer k = [] ∧ y.shard.clientsWithHeldBatches = x.shard.clientsWithHeldBatches.filter (· ≠ k)) ∨
    ∃ (s : OptimizedClientState) (t : Topic), y = { x with topic := t, shard := x.shard.setState k s } ∧
      s.nextExpected = (x.shard.clientState k).nextExpected ∧ s.lastEpoch = (x.shard.clientState k).lastEpoch ∧
      (t = x.topic ∨ t = x.topic.stopForCapacityExhaustion)

theorem swept_recordFence (P : Platform) (k : SessionKey) (x : Pass) : Swept k x (Pass.recordFence P k x) := by
  have hself := x.shard.setState_clientState k
  rw [Pass.recordFence]
  split
  · exact .inr ⟨_, x.topic, by rw [hself], rfl, rfl, .inl rfl⟩
  split
  · exact .inr ⟨_, _, by rw [hself], rfl, rfl, .inr rfl⟩
  dsimp only
  split
  · refine .inr ⟨_, _, rfl, OptimizedClientState.fence_nextExpected _, ?_, .inr rfl⟩
    rw [OptimizedClientState.fence]
    split <;> rfl
  · exact .inl ⟨Function.update_self _ _ _, rfl⟩

theorem Attends.swept_expireHeld (h : x.Attends epoch k) (P : Platform) (clock : PassClock) :
    Swept k x (Pass.expireHeld P clock epoch x) := by
  obtain ⟨hnext, hlast⟩ := sweepSession_frame clock.sweepNs
    (effectiveOrder5SessionFenceLeaseNs P.sessionLeaseNs clock.forceExpireActive) x.shard k
  have hself := x.shard.setState_clientState k
  rw [Pass.expireHeld, h.iterate_clients]
  by_cases hnil : x.shard.holdBuffer k = []
  · simp only [if_pos hnil, Pass.sweep, foldl_nil]
    exact .inr ⟨_, x.topic, by rw [hself], rfl, rfl, .inl rfl⟩
  simp only [if_neg hnil, Pass.sweep]
  generalize Pass.sweepSession _ _ x.shard k = swept at hnext hlast ⊢
  obtain ⟨s, expired⟩ := swept
  cases expired with
  | false => exact .inr ⟨s, x.topic, rfl, hnext, hlast, .inl rfl⟩
  | true =>
    have hrecent : (x.shard.setState k s).setState k { (x.shard.setState k s).clientState k with lastEpoch := epoch } =
        x.shard.setState k s := by
      have hs : { s with lastEpoch := epoch } = s := by rw [← h.recent, ← show s.lastEpoch = _ from hlast]
      rw [setState_self, hs, Level5ShardState.setState_setState]
    change Swept k x (Pass.fenceExpired P epoch { x with shard := x.shard.setState k s } k)
    rw [Pass.fenceExpired, hrecent]
    cases swept_recordFence P k { x with shard := x.shard.setState k s } with
    | inl hpurged => exact .inl hpurged
    | inr hstate =>
      obtain ⟨s', t, heq, hnext', hlast', ht⟩ := hstate
      rw [setState_self] at hnext' hlast'
      refine .inr ⟨s', t, heq.trans ?_, hnext'.trans hnext, hlast'.trans hlast, ht⟩
      rw [Level5ShardState.setState_setState]

theorem drainHeld_of_clients (h : x.shard.clientsWithHeldBatches = []) : Pass.drainHeld P epoch x = x := by
  have hperm := P.iterate_perm x.shard.clientsWithHeldBatches
  rw [h] at hperm
  rw [Pass.drainHeld, h, hperm.eq_nil, foldl_nil]

theorem Attends.clients_filter (h : x.Attends epoch k) : x.shard.clientsWithHeldBatches.filter (· ≠ k) = [] := by
  rw [h.clients]
  split <;> simp

theorem Attends.state (h : x.Attends epoch k) {s : OptimizedClientState}
    (hlast : s.lastEpoch = (x.shard.clientState k).lastEpoch) (t : Topic) :
    ({ x with topic := t, shard := x.shard.setState k s } : Pass).Attends epoch k :=
  h.touch rfl rfl ((congrArg _ (setState_self s)).trans hlast)

theorem Attends.length_expired (h : x.Attends epoch k) (P : Platform) (clock : PassClock) :
    ((Pass.drainHeld P epoch (Pass.expireHeld P clock epoch x)).shard.holdBuffer k).length ≤
      (x.shard.holdBuffer k).length := by
  cases h.swept_expireHeld P clock with
  | inl hpurged =>
    rw [drainHeld_of_clients (hpurged.2.trans h.clients_filter), hpurged.1]
    exact Nat.zero_le _
  | inr hstate =>
    obtain ⟨s, t, heq, -, hlast, -⟩ := hstate
    rw [heq]
    exact (h.state hlast t).drainHeld.2

def finish (epoch : Nat) (x : Pass) : Pass :=
  if x.topic.capacityExhausted then x else { creditTerminalized x with shard := x.shard.clientGc epoch }

theorem clientGc_holdBuffer (sh : Level5ShardState) (epoch : Nat) : (sh.clientGc epoch).holdBuffer = sh.holdBuffer := by
  rw [Level5ShardState.clientGc]
  split <;> rfl

theorem clientGc_recent {sh : Level5ShardState} (h : (sh.clientState k).lastEpoch = epoch) :
    (sh.clientGc epoch).clientState k = sh.clientState k := by
  rw [Level5ShardState.clientGc]
  split
  · rfl
  · exact if_neg (by simp [Level5ShardState.evictable, h])

theorem finish_holdBuffer (epoch : Nat) (x : Pass) : (finish epoch x).shard.holdBuffer = x.shard.holdBuffer := by
  rw [finish]
  split
  · rfl
  · exact clientGc_holdBuffer _ _

theorem finish_recent (h : (x.shard.clientState k).lastEpoch = epoch) :
    (finish epoch x).shard.clientState k = x.shard.clientState k := by
  rw [finish]
  split
  · rfl
  · exact clientGc_recent h

section Equal

variable {z : Pass} (heq : { x with shard := x.shard.clientGc epoch } = finish epoch z)

include heq

theorem holdBuffer_of_finish : z.shard.holdBuffer = x.shard.holdBuffer := by
  rw [← finish_holdBuffer epoch z, ← heq]
  exact clientGc_holdBuffer _ _

-- A drain that finds something leaves fewer held batches, and no later step of the general path adds one.
theorem Attends.drained_of_finish (h : x.Attends epoch k)
    (hz : z = Pass.drainHeld P epoch (Pass.expireHeld P clock epoch (Pass.drainHeld P epoch x))) :
    (x.shard.holdBuffer k).lookup (x.shard.clientState k).nextExpected = none := by
  cases hlookup : (x.shard.holdBuffer k).lookup (x.shard.clientState k).nextExpected with
  | none => rfl
  | some he =>
    have hlt := ((h.drainHeld (P := P)).1.length_expired P clock).trans_lt (h.length_drainHeld hlookup)
    rw [← hz, holdBuffer_of_finish heq] at hlt
    exact absurd hlt (Nat.lt_irrefl _)

theorem Attends.swept_of_finish (h : x.Attends epoch k)
    (hdrained : (x.shard.holdBuffer k).lookup (x.shard.clientState k).nextExpected = none)
    (hz : z = Pass.drainHeld P epoch (Pass.expireHeld P clock epoch x)) : Pass.expireHeld P clock epoch x = x := by
  cases h.swept_expireHeld P clock with
  | inl hpurged =>
    rw [drainHeld_of_clients (hpurged.2.trans h.clients_filter)] at hz
    have hnil : x.shard.holdBuffer k = [] := holdBuffer_of_finish heq ▸ hz ▸ hpurged.1
    rw [Pass.expireHeld, h.iterate_clients, if_pos hnil]
    rfl
  | inr hstate =>
    obtain ⟨s, t, hexpired, hnext, hlast, ht⟩ := hstate
    have hattends := h.state hlast t
    rw [hexpired, hattends.drainHeld_eq (by rw [setState_self, hnext]; exact hdrained)] at hz
    subst hz
    have hs : x.shard.clientState k = s := by
      have hstate := congrArg (fun z : Pass => z.shard.clientState k) heq
      dsimp only at hstate
      rw [finish_recent hattends.recent, setState_self, clientGc_recent h.recent] at hstate
      exact hstate
    have htopic : t = x.topic := by
      cases ht with
      | inl ht => exact ht
      | inr ht =>
        rw [finish, if_pos (by rw [ht]; rfl)] at heq
        exact (congrArg Pass.topic heq).symm
    rw [hexpired, htopic, ← hs, x.shard.setState_clientState]

end Equal

theorem Attends.nothingOmitted (h : x.Attends epoch k)
    (heq : { x with shard := x.shard.clientGc epoch } =
      finish epoch (Pass.drainHeld P epoch (Pass.expireHeld P clock epoch (Pass.drainHeld P epoch x)))) :
    x.NothingOmitted P clock epoch k := by
  have hdrained := h.drained_of_finish heq rfl
  rw [h.drainHeld_eq hdrained] at heq
  have hswept := h.swept_of_finish heq hdrained rfl
  rw [hswept, h.drainHeld_eq hdrained, finish] at heq
  refine ⟨hdrained, hswept, fun hrunning => ?_, fun hexhausted => ?_⟩
  · rw [if_neg (by rw [hrunning]; exact Bool.false_ne_true)] at heq
    injection heq with htopic
    rw [show creditTerminalized x = { x with topic := (creditTerminalized x).topic } from rfl, ← htopic]
  · rw [if_pos hexhausted] at heq
    exact congrArg Pass.shard heq

theorem NothingOmitted.finish_eq (h : x.NothingOmitted P clock epoch k) :
    { x with shard := x.shard.clientGc epoch } = finish epoch x := by
  rw [finish]
  split
  next hexhausted => rw [h.collected hexhausted]
  next hrunning => rw [h.credited (Bool.eq_false_iff.mpr hrunning)]

end Omitted

theorem sort_sessionOrder (hcompare : P.SortsByComparison) (hkey : ∀ q ∈ l, q.key = k) :
    P.sort sessionOrder l = P.sort (fun a b => decide (a.batchSeq < b.batchSeq)) l := by
  refine hcompare _ _ l fun a ha b hb => ?_
  have hab : a.key = b.key := (hkey a ha).trans (hkey b hb).symm
  have hclient : a.clientId = b.clientId := congrArg SessionKey.clientId hab
  have hepoch : a.sessionEpoch = b.sessionEpoch := congrArg SessionKey.sessionEpoch hab
  simp [sessionOrder, hclient, hepoch]

end Pass

theorem Platform.small_sortsByComparison : Platform.small.SortsByComparison := by
  intro α lt lt' l h
  have hinsert : ∀ (a : α) (l : List α), (∀ b ∈ l, lt b a = lt' b a) →
      l.orderedInsert (fun a b => !lt b a) a = l.orderedInsert (fun a b => !lt' b a) a := by
    intro a l hl
    induction l with
    | nil => rfl
    | cons b l ih =>
      rw [orderedInsert_cons, orderedInsert_cons, hl b mem_cons_self, ih fun c hc => hl c (mem_cons_of_mem _ hc)]
  change l.insertionSort _ = l.insertionSort _
  induction l with
  | nil => rfl
  | cons a l ih =>
    have htail := ih fun b hb c hc => h b (mem_cons_of_mem _ hb) c (mem_cons_of_mem _ hc)
    rw [insertionSort_cons, insertionSort_cons, htail]
    refine hinsert a _ fun b hb => h b (mem_cons_of_mem _ ?_) a mem_cons_self
    exact (perm_insertionSort _ l).mem_iff.mp hb

def copiedInput : List PendingBatch5 := [scanSlot 0 1 2, scanSlot 0 0 0, scanSlot 1 0 0]

def firstBatchRun : List Event :=
  [.epoch [scanSlot 0 0 0] (scenarioClock 1), .commit, .tail, .updateCommittedSeq 1]

end Embarcadero
