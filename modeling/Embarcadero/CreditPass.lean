import Embarcadero.ClassifyPass

namespace Embarcadero

open Function (update)

variable {P : Platform} {ident : Nat → SessionKey × Nat} {i epoch : Nat} {t₀ : Topic} {x x' : Pass}
  {k : SessionKey} {S : SessionKey → Nat → Prop}

structure Remembers (P : Platform) (i : Nat) (S : SessionKey → Nat → Prop) (x : Pass) : Prop where
  delta : x.topic.capacityExhausted = false → x.terminalizedDelta = []
  known : ∀ k : SessionKey, k.Admitted → k.clientId % P.numShards = i → x.Live k →
    ∀ s, S k s → s < frontier x.topic.cxl.sessions x.shard k →
      (x.shard.clientEmittedTracker k).isEmitted s = true

theorem remembers_of_exhausted (h : x.topic.capacityExhausted = true) : Remembers P i S x where
  delta hx := absurd (h.symm.trans hx) Bool.noConfusion
  known _ _ _ hl := absurd (h.symm.trans hl.1) Bool.noConfusion

theorem Remembers.setShard (h : Remembers P i S x) {sh : Level5ShardState}
    {ready : List PendingBatch5} {size : Int}
    (hs : ∀ k : SessionKey, k.Admitted → k.clientId % P.numShards = i → x.Live k →
      frontier x.topic.cxl.sessions sh k = frontier x.topic.cxl.sessions x.shard k ∧
        sh.clientEmittedTracker k = x.shard.clientEmittedTracker k) :
    Remembers P i S { x with shard := sh, ready := ready, holdSizeDelta := size } where
  delta := h.delta
  known k hk hi hl s hS hlt := by
    obtain ⟨hf, ht⟩ := hs k hk hi hl
    dsimp only at hlt ⊢
    rw [ht]
    exact h.known k hk hi hl s hS (hf ▸ hlt)

variable {size : Int} {sh : Level5ShardState} {batches : List PendingBatch5} {s : OptimizedClientState}
  {p : PendingBatch5} {t topic : Topic}

theorem Remembers.setState (h : Remembers P i S x) {ready : List PendingBatch5}
    (hstate : sh.clientState = update x.shard.clientState k s)
    (htracker : sh.clientEmittedTracker = x.shard.clientEmittedTracker)
    (hs : k.Admitted → k.clientId % P.numShards = i → x.Live k →
      max s.nextExpected (x.topic.cxl.sessions.expected k) = frontier x.topic.cxl.sessions x.shard k) :
    Remembers P i S { x with shard := sh, ready := ready, holdSizeDelta := size } := by
  refine h.setShard fun k' hk' hi hl => ⟨?_, by rw [htracker]⟩
  by_cases hkk : k' = k
  · subst hkk
    rw [frontier, hstate, Function.update_self]
    exact hs hk' hi hl
  · rw [frontier, hstate, Function.update_of_ne hkk, frontier]

theorem Remembers.emitNext (h : Remembers P i S x) (hok : Serves P ident i epoch t₀ k x) {id : Nat}
    (hid : ident id = (k, (x.shard.clientState k).nextExpected)) :
    Remembers P i S (x.emitNext k (x.shard.clientState k).nextExpected id p) := by
  unfold Pass.emitNext
  dsimp only
  split
  next hseen =>
    refine h.setState rfl rfl fun hk hi hl => ?_
    -- The id of the next batch of a live session has not been seen.
    have hstored := (hok.sessions k hk hi hl).stored id (stored_of_seen hseen) (by rw [hid])
    rw [frontier_of_le (hok.frontier hk hl), hid] at hstored
    exact absurd hstored (lt_irrefl _)
  · refine ⟨h.delta, fun k' hk' hi hl s hS hlt => ?_⟩
    have hl : x.Live k' := hl
    have hknown := h.known k' hk' hi hl s hS
    by_cases hkk : k' = k
    · subst hkk
      have hle := hok.frontier hk' hl
      have hnext : ((x.shard.setState k' (((x.shard.clientState k').markSequenced
          (x.shard.clientState k').nextExpected).advanceNextExpected)).clientState
            k').nextExpected = (x.shard.clientState k').nextExpected + 1 := by simp
      change s < max ((x.shard.setState k' _).clientState k').nextExpected (x.topic.cxl.sessions.expected k') at hlt
      rw [hnext] at hlt
      change ((Level5ShardState.markEmitted _ k' _).clientEmittedTracker k').isEmitted s = true
      rw [markEmitted_self]
      refine ClientEmitTracker.isEmitted_markEmitted.mpr ?_
      by_cases hs : s = (x.shard.clientState k').nextExpected
      · exact .inl hs
      · refine .inr (hknown ?_)
        rw [frontier]
        omega
    · change s < max ((x.shard.setState k _).clientState k').nextExpected _ at hlt
      rw [setState_of_ne hkk] at hlt
      change ((Level5ShardState.markEmitted _ k _).clientEmittedTracker k').isEmitted s = true
      rw [markEmitted_of_ne hkk]
      exact hknown hlt

theorem Remembers.park (h : Remembers P i S x) (nowNs : Nat) (p : PendingBatch5) :
    Remembers P i S (x.park nowNs k p) := by
  have hnext : k.Admitted → k.clientId % P.numShards = i → x.Live k →
      max ((x.shard.clientState k).noteGap nowNs).nextExpected (x.topic.cxl.sessions.expected k) =
        frontier x.topic.cxl.sessions x.shard k := by
    intros
    simp [frontier]
  unfold Pass.park
  dsimp only
  split
  · split
    · exact h.setState rfl rfl hnext
    · split <;> exact h.setState rfl rfl hnext
  · split <;> exact h.setState rfl rfl hnext

theorem Remembers.classifyOne (h : Remembers P i S x) (hok : Serves P ident i epoch t₀ p.key x)
    (hp : Classifiable ident P.numShards i p) (hk : p.key.Admitted) (hS : S p.key p.batchSeq) (nowNs : Nat) :
    Remembers P i S (x.classifyOne nowNs p.key p) := by
  unfold Pass.classifyOne
  dsimp only
  split
  · exact h.setShard fun _ _ _ _ => ⟨rfl, rfl⟩
  rename_i hfenced
  split
  · exact h.setShard fun _ _ _ _ => ⟨rfl, rfl⟩
  split
  next hem =>
    refine h.setState rfl rfl fun _ hi hl => ?_
    have hlt := (hok.sessions _ hk hi hl).emitted _ hem
    rw [OptimizedClientState.skipPast_nextExpected, frontier]
    rw [frontier] at hlt
    omega
  rename_i hem
  split
  next hseq =>
    rw [hseq]
    exact h.emitNext hok (by rw [hp.identified, hseq])
  split
  next hlt =>
    cases hx : x.topic.capacityExhausted with
    | true =>
      unfold Pass.dropLate
      dsimp only
      split <;> exact remembers_of_exhausted hx
    | false =>
      have hopen : x.topic.cxl.sessions.fenced p.key = false := by
        rw [← Bool.not_eq_true]
        exact fun hf => hfenced (hok.fenced hk hf)
      exact absurd (h.known _ hk hp.shard ⟨hx, hopen⟩ _ hS (hlt.trans_le (le_max_left _ _))) hem
  · exact h.park nowNs p

theorem Remembers.beginSession (h : Remembers P i S x) (hok : PassOk P ident i epoch t₀ x)
    (hshard : k.clientId % P.numShards = i) : Remembers P i S (x.beginSession epoch k) := by
  obtain ⟨s, heq, hs⟩ := hok.beginSession_eq hshard
  rw [heq]
  refine h.setState rfl rfl fun hk _ hl => ?_
  rw [hs.next hk hl, frontier, Nat.max_assoc, Nat.max_self]

def Expects (P : Platform) (ident : Nat → SessionKey × Nat) (i : Nat) (S : SessionKey → Nat → Prop)
    (batches : List PendingBatch5) : Prop :=
  ∀ p ∈ batches, Classifiable ident P.numShards i p ∧ p.key.Admitted ∧ S p.key p.batchSeq

theorem Remembers.classifyGroups (clock : PassClock) (hp : Expects P ident i S batches) :
    ∀ (current : Option SessionKey) {x : Pass}, Remembers P i S x → PassOk P ident i epoch t₀ x →
      (∀ k, current = some k → Begun epoch x k) →
      Remembers P i S (Pass.classifyGroups clock epoch current batches x) := by
  induction batches with
  | nil => exact fun _ _ h _ _ => h
  | cons p rest ih =>
    intro current x h hok hb
    obtain ⟨hhead, hk, hS⟩ := hp p (.head _)
    have hsel := hok.select hhead.shard (hb p.key)
    have h₁ : Remembers P i S (if current = some p.key then x else x.beginSession epoch p.key) := by
      split
      · exact h
      · exact h.beginSession hok hhead.shard
    obtain ⟨hok', hb'⟩ := hsel.classifyOne hhead (clock.classifyNs p)
    exact ih (fun q hq => hp q (.tail _ hq)) _ (h₁.classifyOne hsel hhead hk hS _) hok' fun k hk =>
      Option.some.inj hk ▸ hb'

structure SameCredit (x x' : Pass) : Prop where
  ordered : x'.topic.perClientOrdered = x.topic.perClientOrdered
  delta : x'.terminalizedDelta = x.terminalizedDelta
  exhausted : x.topic.capacityExhausted = true → x'.topic.capacityExhausted = true

theorem SameCredit.refl (x : Pass) : SameCredit x x := ⟨rfl, rfl, id⟩

theorem SameCredit.trans {x'' : Pass} (h : SameCredit x x') (h' : SameCredit x' x'') : SameCredit x x'' :=
  ⟨h'.ordered.trans h.ordered, h'.delta.trans h.delta, fun hx => h'.exhausted (h.exhausted hx)⟩

theorem SameCredit.of_shard (h : SameCredit { x with shard := sh, holdSizeDelta := size } x') :
    SameCredit x x' := ⟨h.ordered, h.delta, h.exhausted⟩

theorem sameCredit_foldl {β : Type} {f : Pass → β → Pass} (hf : ∀ x b, SameCredit x (f x b))
    (bs : List β) : ∀ x, SameCredit x (bs.foldl f x) := by
  induction bs with
  | nil => exact SameCredit.refl
  | cons b bs ih => exact fun x => (hf x b).trans (ih (f x b))

theorem sameCredit_of_retired (h : x.topic.Retired t) (sh : Level5ShardState) (size : Int) :
    SameCredit x { x with topic := t, shard := sh, holdSizeDelta := size } := by
  have ho : t.perClientOrdered = x.topic.perClientOrdered := by rw [h]
  have hx : t.capacityExhausted = x.topic.capacityExhausted := by rw [h]
  exact ⟨ho, rfl, hx.trans⟩

theorem sameCredit_purge (ho : topic.perClientOrdered = x.topic.perClientOrdered)
    (hx : topic.capacityExhausted = x.topic.capacityExhausted) (k : SessionKey) :
    SameCredit x (Pass.purgeFencedSession P k { x with topic := topic, shard := sh }) := by
  have hret := retired_purge P k { x with topic := topic, shard := sh }
  exact ⟨(congrArg (·.perClientOrdered) hret).trans ho, rfl,
    fun h => (congrArg (·.capacityExhausted) hret).trans (hx.trans h)⟩

theorem sameCredit_recordFence (P : Platform) (k : SessionKey) (x : Pass) : SameCredit x (x.recordFence P k) := by
  unfold Pass.recordFence
  dsimp only
  split
  · exact .refl x
  split
  · exact ⟨rfl, rfl, fun _ => rfl⟩
  split
  · exact ⟨rfl, rfl, fun _ => rfl⟩
  split
  · exact sameCredit_purge (by simp) (by simp) k
  · exact sameCredit_purge (by simp [Topic.publishSessionFenceNotification])
      (by simp [Topic.publishSessionFenceNotification]) k

theorem sameCredit_skipOne (P : Platform) (epoch : Nat) (x : Pass) (p : PendingBatch5) :
    SameCredit x (Pass.skipOne P epoch p x) := by
  have hskip : SameCredit x (Pass.targetedSkip P epoch p x) := by
    unfold Pass.targetedSkip
    dsimp only
    split
    · exact (sameCredit_recordFence P p.key _).of_shard
    · exact ⟨rfl, rfl, id⟩
  unfold Pass.skipOne
  dsimp only
  split
  · exact ⟨hskip.ordered, hskip.delta, hskip.exhausted⟩
  · exact ⟨rfl, rfl, id⟩

theorem sameCredit_emitNext (seq batchId : Nat) (p : PendingBatch5) (x : Pass) :
    SameCredit x (x.emitNext k seq batchId p) := by
  unfold Pass.emitNext
  dsimp only
  split <;> exact ⟨rfl, rfl, id⟩

theorem sameCredit_drainOne (P : Platform) (he : HoldEntry5) (x : Pass) : SameCredit x (x.drainOne P k he) := by
  unfold Pass.drainOne
  dsimp only
  split
  · exact sameCredit_of_retired (retired_retireHeldSlotAndAdvance P x.topic _ _ _) _ _
  · exact (sameCredit_emitNext _ _ _ _).of_shard

theorem sameCredit_drainLoop (P : Platform) (k : SessionKey) (fuel : Nat) :
    ∀ x : Pass, SameCredit x (Pass.drainLoop P k fuel x) := by
  induction fuel with
  | zero => exact SameCredit.refl
  | succ fuel ih =>
    intro x
    rw [Pass.drainLoop]
    split
    · exact .refl x
    · exact (sameCredit_drainOne P _ x).trans (ih _)

theorem sameCredit_drainSession (P : Platform) (epoch : Nat) (x : Pass) (k : SessionKey) :
    SameCredit x (x.drainSession P epoch k) := by
  unfold Pass.drainSession
  split
  · exact ⟨rfl, rfl, id⟩
  · have hloop := sameCredit_drainLoop P k (x.shard.holdBuffer k).length
      { x with shard := x.shard.setState k { x.shard.clientState k with lastEpoch := epoch } }
    dsimp only
    split <;> exact ⟨hloop.ordered, hloop.delta, hloop.exhausted⟩

theorem sameCredit_drainHeld (P : Platform) (epoch : Nat) (x : Pass) : SameCredit x (x.drainHeld P epoch) :=
  sameCredit_foldl (fun x k => sameCredit_drainSession P epoch x k) _ x

theorem sameCredit_expireHeld (P : Platform) (clock : PassClock) (epoch : Nat) (x : Pass) :
    SameCredit x (x.expireHeld P clock epoch) := by
  unfold Pass.expireHeld
  dsimp only
  exact (sameCredit_foldl (fun x k => (sameCredit_recordFence P k _).of_shard) _ _).of_shard

theorem topic_classifyOne (nowNs : Nat) (p : PendingBatch5) (x : Pass) : (x.classifyOne nowNs k p).topic = x.topic := by
  unfold Pass.classifyOne Pass.emitNext Pass.dropLate Pass.park
  dsimp only
  split_ifs <;> rfl

theorem topic_classifyGroups (clock : PassClock) (epoch : Nat) (batches : List PendingBatch5) :
    ∀ (current : Option SessionKey) (x : Pass),
      (Pass.classifyGroups clock epoch current batches x).topic = x.topic := by
  induction batches with
  | nil => exact fun _ _ => rfl
  | cons p rest ih =>
    intro current x
    rw [Pass.classifyGroups, ih, topic_classifyOne]
    split <;> rfl

structure FenceFrame (k : SessionKey) (x x' : Pass) : Prop where
  live : ∀ k', x'.Live k' → x.Live k' ∧ k' ≠ k
  other : ∀ k', k' ≠ k → x'.shard.clientState k' = x.shard.clientState k' ∧
    x'.shard.clientEmittedTracker k' = x.shard.clientEmittedTracker k' ∧
    x'.topic.cxl.sessions.expected k' = x.topic.cxl.sessions.expected k'

theorem fenceFrame_stop {sh : Level5ShardState}
    (hs : ∀ k', k' ≠ k → sh.clientState k' = x.shard.clientState k')
    (ht : sh.clientEmittedTracker = x.shard.clientEmittedTracker) :
    FenceFrame k x { x with topic := x.topic.stopForCapacityExhaustion, shard := sh } where
  live k' hl := absurd hl.1 (by simp [Topic.stopForCapacityExhaustion])
  other k' hne := ⟨hs k' hne, congrFun ht k', rfl⟩

theorem fenceFrame_purge {table : SessionTable} (ht : FencedTable x.topic.cxl.sessions table k)
    (hsess : topic.cxl.sessions = table) (hx : topic.capacityExhausted = x.topic.capacityExhausted) :
    FenceFrame k x (Pass.purgeFencedSession P k
      { x with topic := topic, shard := x.shard.setState k s }) := by
  have hret := retired_purge P k { x with topic := topic, shard := x.shard.setState k s }
  have hsess' := (congrArg (·.cxl.sessions) hret).trans hsess
  refine ⟨fun k' hl => ?_, fun k' hne => ⟨setState_of_ne hne s, Function.update_of_ne hne .., ?_⟩⟩
  · have hopen := hl.2
    rw [hsess'] at hopen
    have hne : k' ≠ k := by
      rintro rfl
      rw [ht.self.2.2.2.1] at hopen
      cases hopen
    refine ⟨⟨((congrArg (·.capacityExhausted) hret).trans hx).symm.trans hl.1, ?_⟩, hne⟩
    rwa [SessionTable.fenced, ht.other k' hne] at hopen
  · rw [hsess', ht.expected]

theorem fenceFrame_recordFence (hcan : canFenceSessionEpoch (x.shard.clientState k).sessionEpoch = true)
    (hepoch : (x.shard.clientState k).sessionEpoch = k.sessionEpoch) : FenceFrame k x (x.recordFence P k) := by
  have hpos : (x.shard.clientState k).sessionEpoch ≠ 0 := by simpa [canFenceSessionEpoch] using hcan
  unfold Pass.recordFence
  dsimp only
  rw [hcan, if_neg (by decide)]
  split
  · exact fenceFrame_stop (fun _ _ => rfl) rfl
  rename_i table₁ hfind
  split
  · exact fenceFrame_stop (fun _ hne => setState_of_ne hne _) rfl
  rename_i table hpub
  have ht := fencedTable_publish hepoch hpos hfind hpub
  split
  · exact fenceFrame_purge ht rfl rfl
  · exact fenceFrame_purge ht rfl rfl

theorem Remembers.fenceFrame (h : Remembers P i S x) (hf : FenceFrame k x x')
    (hc : SameCredit x x') : Remembers P i S x' where
  delta hx' := by
    refine hc.delta.trans (h.delta ?_)
    rw [← Bool.not_eq_true] at hx' ⊢
    exact fun hx => hx' (hc.exhausted hx)
  known k' hk' hi hl s hS hlt := by
    obtain ⟨hl', hne⟩ := hf.live k' hl
    obtain ⟨hs, ht, he⟩ := hf.other k' hne
    rw [ht]
    refine h.known k' hk' hi hl' s hS ?_
    rwa [frontier, hs, he] at hlt

theorem Remembers.skipOne (h : Remembers P i S x) (hok : PassOk P ident i epoch t₀ x) (hc : p.clientId ≠ 0)
    (hshard : p.clientId % P.numShards = i) : Remembers P i S (x.skipOne P epoch p) := by
  have hr := hok.refreshed (k := p.key) hshard
  have hstart : Remembers P i S { x with
      shard := x.shard.setState p.key (x.topic.reconstructClientState p.key
        { x.shard.clientState p.key with
          sessionEpoch := p.key.sessionEpoch, lastEpoch := epoch }) } :=
    h.setState rfl rfl fun hk _ hl => by
      rw [hr.next hk hl, frontier, Nat.max_assoc, Nat.max_self]
  have hskip : Remembers P i S (x.targetedSkip P epoch p) := by
    unfold Pass.targetedSkip
    dsimp only
    split
    next hcan =>
      refine hstart.fenceFrame (fenceFrame_recordFence (k := p.key) ?_ ?_) (sameCredit_recordFence P p.key _)
      · simpa using hcan
      · simpa using hr.epoch hc
    next hcan =>
      have hzero : p.key.sessionEpoch = 0 := by
        rw [← hr.epoch hc]
        simpa [canFenceSessionEpoch] using hcan
      exact h.setState (k := p.key) rfl rfl fun hk _ _ => absurd hzero hk.2
  unfold Pass.skipOne
  dsimp only
  split
  · exact hskip.setShard fun _ _ _ _ => ⟨rfl, rfl⟩
  · exact h.setShard fun _ _ _ _ => ⟨rfl, rfl⟩

theorem Remembers.start (h : Remembers P i S { topic := t, shard := sh }) (level5 : List PendingBatch5) :
    Remembers P i S (Pass.start t sh level5) := h.setShard fun _ _ _ _ => ⟨rfl, rfl⟩

theorem Remembers.skipAll (h : Remembers P i S x) (hok : PassOk P ident i epoch t₀ x) {level5 : List PendingBatch5}
    (hp : ∀ p ∈ level5, InputOk ident P.numShards i p) : Remembers P i S (x.skipAll P epoch level5) := by
  have hboth : Remembers P i S (x.skipAll P epoch level5) ∧ PassOk P ident i epoch t₀ (x.skipAll P epoch level5) := by
    unfold Pass.skipAll
    refine List.foldlRecOn (motive := fun x => Remembers P i S x ∧ PassOk P ident i epoch t₀ x) _ _
      ⟨h, hok⟩ fun x' h' p hm => ?_
    obtain ⟨hm, hs⟩ := List.mem_filter.mp hm
    exact ⟨h'.1.skipOne h'.2 (hp p hm).client (hp p hm).shard, h'.2.skipOne hs (hp p hm).client (hp p hm).shard⟩
  exact hboth.1

theorem sameCredit_skipAll (P : Platform) (epoch : Nat) (level5 : List PendingBatch5) (x : Pass) :
    SameCredit x (x.skipAll P epoch level5) :=
  sameCredit_foldl (fun x p => sameCredit_skipOne P epoch x p) _ x

theorem ordered_generalPath (h : Remembers P i S x) (hok : PassOk P ident i epoch t₀ x) (clock : PassClock)
    (hp : Expects P ident i S batches) :
    (x.generalPath P clock epoch batches).topic.perClientOrdered = x.topic.perClientOrdered := by
  have hsorted : Expects P ident i S (P.sort Pass.sessionOrder batches) :=
    fun p hm => hp p ((P.sort_perm _ batches).mem_iff.mp hm)
  have hgroups := Remembers.classifyGroups clock hsorted none h hok fun _ hk => nomatch hk
  have htopic := topic_classifyGroups clock epoch (P.sort Pass.sessionOrder batches) none x
  unfold Pass.generalPath
  dsimp only
  generalize Pass.classifyGroups clock epoch none (P.sort Pass.sessionOrder batches) x = y at *
  have hsame : SameCredit y _ := ((sameCredit_drainHeld P epoch y).trans
    (sameCredit_expireHeld P clock epoch _)).trans (sameCredit_drainHeld P epoch _)
  split
  · rw [hsame.ordered, htopic]
  next hx =>
    have hdelta : y.terminalizedDelta = [] := by
      refine hgroups.delta ?_
      rw [← Bool.not_eq_true]
      exact fun h => hx (hsame.exhausted h)
    funext c
    simp [Pass.creditTerminalized, hsame.delta, hdelta, hsame.ordered, htopic]

theorem ordered_shard (clock : PassClock) (t : Topic) {input : List PendingBatch5}
    (hok : PassOk P ident i t.currentEpochForHold t { topic := t, shard := sh })
    (hp : ∀ p ∈ input, InputOk ident P.numShards i p) (h : Remembers P i S { topic := t, shard := sh })
    (hS : ∀ p ∈ input ++ sh.deferredLevel5, p.skipped = false → p.key.Admitted ∧ S p.key p.batchSeq) :
    (processLevel5BatchesShard P clock t sh input).topic.perClientOrdered = t.perClientOrdered := by
  have hall := hok.shard.inputOk hp
  have hexpects : Expects P ident i S ((input ++ sh.deferredLevel5).filter (!·.skipped)) := by
    intro p hm
    obtain ⟨hm, hs⟩ := List.mem_filter.mp hm
    have hs : p.skipped = false := by simpa using hs
    exact ⟨(hall p hm).classifiable hs, hS p hm hs⟩
  have hok' := (hok.start (input ++ sh.deferredLevel5)).skipAll hall
  have h' := (h.start (input ++ sh.deferredLevel5)).skipAll (hok.start (input ++ sh.deferredLevel5)) hall
  have hsame := sameCredit_skipAll P t.currentEpochForHold (input ++ sh.deferredLevel5)
    (Pass.start t sh (input ++ sh.deferredLevel5))
  rcases processLevel5BatchesShard_cases P clock t sh input with heq | ⟨_, _, heq⟩
  · rw [heq]
    exact (ordered_generalPath h' hok' clock hexpects).trans hsame.ordered
  · rw [heq]
    exact (congrArg Topic.perClientOrdered (topic_classifyGroups clock _ _ none _)).trans hsame.ordered

end Embarcadero
