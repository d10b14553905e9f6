import Embarcadero.Sessions

namespace Embarcadero

open Function (update)

def Topic.frame (t : Topic) : Topic :=
  { t with
    cxl := { t.cxl with ring := fun _ _ => {}, consumedThrough := fun _ => 0, sessions := {} }
    perClientOrdered := fun _ => 0
    perClientOrderedEpoch := fun _ => 0
    pendingSessionFences := fun _ => none
    fenceNotes := []
    capacityExhausted := false }

def CxlMemory.sessionless (c : CxlMemory) : CxlMemory := { c with sessions := {} }

structure Shelf where
  pending : List PendingBatch5
  held : SessionKey → List (Nat × HoldEntry5)
  deferred : List PendingBatch5
  backpressured : List Order5SlotIdentity
  ready : List PendingBatch5
  cxl : CxlMemory
  frame : Topic

def Pass.shelf (pending : List PendingBatch5) (x : Pass) : Shelf where
  pending := pending
  held := x.shard.holdBuffer
  deferred := x.shard.deferredLevel5
  backpressured := x.shard.backpressuredLevel5Slots
  ready := x.ready
  cxl := x.topic.cxl.sessionless
  frame := x.topic.frame

def HoldEntry5.released (he : HoldEntry5) : PendingBatch5 :=
  { he.batch with fromHold := true, holdMeta := he.holdMeta }

def CxlMemory.retireHeld (slots : Nat) (c : CxlMemory) (he : HoldEntry5) : CxlMemory :=
  c.retireHeldSlotAndAdvance slots he.batch.hdr he.holdMeta.brokerId he.holdMeta.slotOffset

namespace Shelf

inductive Move (P : Platform) : Shelf → Shelf → Prop
  | reorder {v : Shelf} {l : List PendingBatch5} (h : l.Perm v.pending) :
      Move P v { v with pending := l }
  | drop {v : Shelf} {p : PendingBatch5} {rest : List PendingBatch5} (h : v.pending = p :: rest) :
      Move P v { v with pending := rest }
  | emit {v : Shelf} {p : PendingBatch5} {rest : List PendingBatch5} (h : v.pending = p :: rest) :
      Move P v { v with pending := rest, ready := v.ready ++ [p] }
  | hold {v : Shelf} {p : PendingBatch5} {rest : List PendingBatch5} (nowNs : Nat)
      (h : v.pending = p :: rest) (hnew : (v.held p.key).lookup p.batchSeq = none) :
      Move P v { v with
        pending := rest
        held := update v.held p.key (Pass.insertHeld p.batchSeq ⟨p, p.cachedMeta, nowNs⟩ (v.held p.key))
        ready := v.ready ++ [Pass.heldMarker p] }
  | defer {v : Shelf} {p : PendingBatch5} {rest : List PendingBatch5} (h : v.pending = p :: rest) :
      Move P v { v with pending := rest, deferred := v.deferred ++ [p] }
  | block {v : Shelf} {p : PendingBatch5} {rest : List PendingBatch5} (h : v.pending = p :: rest) :
      Move P v { v with pending := rest, backpressured := v.backpressured ++ [p.slotIdentity] }
  | release {v : Shelf} {k : SessionKey} {s : Nat} {he : HoldEntry5}
      (h : (v.held k).lookup s = some he) :
      Move P v { v with
        held := update v.held k ((v.held k).filter (·.1 ≠ s)), ready := v.ready ++ [he.released] }
  | discard {v : Shelf} {k : SessionKey} {s : Nat} {he : HoldEntry5}
      (h : (v.held k).lookup s = some he) :
      Move P v { v with held := update v.held k ((v.held k).filter (·.1 ≠ s)) }
  | retire {v : Shelf} {k : SessionKey} {s : Nat} {he : HoldEntry5}
      (h : (v.held k).lookup s = some he) :
      Move P v { v with
        held := update v.held k ((v.held k).filter (·.1 ≠ s))
        cxl := v.cxl.retireHeld P.slots he }
  | purge {v : Shelf} {k : SessionKey} (retired : List HoldEntry5)
      (h : retired = [] ∨ retired.Perm ((v.held k).map Prod.snd)) :
      Move P v { v with
        held := update v.held k []
        deferred := v.deferred.filter (·.key ≠ k)
        cxl := retired.foldl (CxlMemory.retireHeld P.slots) v.cxl }

def Moves (P : Platform) : Shelf → Shelf → Prop := Relation.ReflTransGen (Move P)

end Shelf

open Embarcadero.Shelf

variable {P : Platform} {x y : Pass} {k : SessionKey} {p : PendingBatch5}
  {l rest : List PendingBatch5}

theorem Shelf.Moves.trans {u v w : Shelf} (h : Moves P u v) (h' : Moves P v w) : Moves P u w :=
  Relation.ReflTransGen.trans h h'

theorem Shelf.Move.moves {v w : Shelf} (h : Move P v w) : Moves P v w := .single h

theorem Shelf.Moves.invariant {I : Shelf → Prop} {v w : Shelf} (h : Moves P v w)
    (hmove : ∀ v w, Move P v w → I v → I w) (hv : I v) : I w := by
  induction h with
  | refl => exact hv
  | tail _ hm ih => exact hmove _ _ hm ih

theorem Shelf.Moves.frame {v w : Shelf} (h : Moves P v w) : w.frame = v.frame :=
  h.invariant (I := fun u => u.frame = v.frame) (fun _ _ hm hf => by cases hm <;> exact hf) rfl

namespace Pass

theorem shelf_emitNext (seq id : Nat) (p : PendingBatch5) :
    (emitNext k seq id p x).shelf l = x.shelf l ∨
      (emitNext k seq id p x).shelf l = { x.shelf l with ready := x.ready ++ [p] } := by
  rw [emitNext]
  split
  · exact .inl rfl
  · exact .inr rfl

theorem shelf_dropLate : (dropLate k p x).shelf l = x.shelf l := by
  rw [dropLate]
  split
  · rfl
  · rfl

theorem move_park (nowNs : Nat) (hk : p.key = k) : Move P (x.shelf (p :: rest)) ((park nowNs k p x).shelf rest) := by
  subst hk
  rw [park]
  split
  · split
    · exact .defer rfl
    · split
      · exact .drop rfl
      · exact .block rfl
  · split
    · exact .drop rfl
    · exact .hold nowNs rfl (Option.not_isSome_iff_eq_none.mp ‹_›)

theorem move_classifyOne (nowNs : Nat) (hk : p.key = k) :
    Move P (x.shelf (p :: rest)) ((classifyOne nowNs k p x).shelf rest) := by
  rw [classifyOne]
  split
  · exact .drop rfl
  · split
    · exact .drop rfl
    · split
      · exact .drop rfl
      · split
        · cases shelf_emitNext (k := k) (x := x) (l := rest) p.batchSeq p.cachedBatchId p with
          | inl h =>
            rw [h]
            exact .drop rfl
          | inr h =>
            rw [h]
            exact .emit rfl
        · split
          · rw [shelf_dropLate]
            exact .drop rfl
          · exact move_park nowNs hk

theorem moves_classifyGroups (clock : PassClock) (epoch : Nat) (batches : List PendingBatch5) :
    ∀ (current : Option SessionKey) (x : Pass),
      Moves P (x.shelf batches) ((classifyGroups clock epoch current batches x).shelf []) := by
  induction batches with
  | nil => exact fun _ _ => .refl
  | cons p rest ih =>
    intro current x
    rw [classifyGroups]
    apply Moves.trans _ (ih _ _)
    apply Move.moves
    split
    · exact move_classifyOne _ rfl
    · exact move_classifyOne (x := beginSession epoch p.key x) _ rfl

theorem sessionless_retireHeld (slots : Nat) (c : CxlMemory) (he : HoldEntry5) :
    (c.retireHeld slots he).sessionless = c.sessionless.retireHeld slots he := by
  rw [CxlMemory.retireHeld, CxlMemory.retireHeld]
  cases he.batch.hdr with
  | none => exact apply_ite CxlMemory.sessionless _ _ _
  | some a => exact apply_ite CxlMemory.sessionless _ _ _

theorem frame_retire (t : Topic) (hdr : Option SlotAddr) (b s : Nat) :
    (t.retireHeldSlotAndAdvance P hdr b s).frame = t.frame := by
  rw [Topic.retireHeldSlotAndAdvance]
  split
  · rfl
  · rw [CxlMemory.retireHeldSlotAndAdvance]
    cases hdr with
    | none => split <;> rfl
    | some a => split <;> rfl

theorem cxl_retire (t : Topic) (he : HoldEntry5) :
    (t.retireHeldSlotAndAdvance P he.batch.hdr he.holdMeta.brokerId
        he.holdMeta.slotOffset).cxl.sessionless =
      if t.capacityExhausted then t.cxl.sessionless
      else t.cxl.sessionless.retireHeld P.slots he := by
  rw [Topic.retireHeldSlotAndAdvance]
  split
  · rfl
  · exact sessionless_retireHeld _ _ _

theorem exhausted_retire (t : Topic) (hdr : Option SlotAddr) (b s : Nat) :
    (t.retireHeldSlotAndAdvance P hdr b s).capacityExhausted = t.capacityExhausted := by
  rw [Topic.retireHeldSlotAndAdvance]
  split
  · rfl
  · rfl

theorem frame_retireAll (held : List HoldEntry5) : ∀ t : Topic,
    (held.foldl (fun t he => t.retireHeldSlotAndAdvance P he.batch.hdr he.holdMeta.brokerId
      he.holdMeta.slotOffset) t).frame = t.frame := by
  induction held with
  | nil => exact fun _ => rfl
  | cons he rest ih => exact fun t => (ih _).trans (frame_retire t _ _ _)

theorem cxl_retireAll (held : List HoldEntry5) : ∀ t : Topic,
    (held.foldl (fun t he => t.retireHeldSlotAndAdvance P he.batch.hdr he.holdMeta.brokerId
        he.holdMeta.slotOffset) t).cxl.sessionless =
      (if t.capacityExhausted then [] else held).foldl (CxlMemory.retireHeld P.slots)
        t.cxl.sessionless := by
  induction held with
  | nil =>
    intro t
    rw [ite_self]
    rfl
  | cons he rest ih =>
    intro t
    rw [List.foldl_cons, ih, exhausted_retire, cxl_retire]
    split
    · rfl
    · rfl

theorem move_purgeFencedSession : Move P (x.shelf l) ((purgeFencedSession P k x).shelf l) := by
  have hsort := P.sort_perm (retireBefore P.slots (x.topic.cxl.consumedSlot P.slots))
    ((x.shard.holdBuffer k).map Prod.snd)
  have hmove := Move.purge (P := P) (v := x.shelf l) (k := k)
    (if x.topic.capacityExhausted then [] else P.sort (retireBefore P.slots
      (x.topic.cxl.consumedSlot P.slots)) ((x.shard.holdBuffer k).map Prod.snd)) (by
    split
    · exact .inl rfl
    · exact .inr hsort)
  rw [show (x.shelf l).cxl = x.topic.cxl.sessionless from rfl, ← cxl_retireAll] at hmove
  have hframe := frame_retireAll (P := P) (P.sort (retireBefore P.slots
    (x.topic.cxl.consumedSlot P.slots)) ((x.shard.holdBuffer k).map Prod.snd)) x.topic
  refine Eq.subst (motive := Move P (x.shelf l)) ?_ hmove
  rw [shelf, ← hframe]
  rfl

theorem moves_recordFence : Moves P (x.shelf l) ((recordFence P k x).shelf l) := by
  rw [recordFence]
  dsimp only
  split
  · exact .refl
  · split
    · exact .refl
    · split
      · exact .refl
      · refine Moves.trans ?_ move_purgeFencedSession.moves
        split
        · exact .refl
        · exact .refl

theorem moves_targetedSkip (epoch : Nat) : Moves P (x.shelf l) ((targetedSkip P epoch p x).shelf l) := by
  rw [targetedSkip]
  dsimp only
  split
  · exact moves_recordFence (x := { x with shard := x.shard.setState p.key _ })
  · exact .refl

theorem moves_skipOne (epoch : Nat) : Moves P (x.shelf (p :: rest)) ((skipOne P epoch p x).shelf rest) := by
  rw [skipOne]
  split
  · exact (moves_targetedSkip epoch).trans (Move.emit rfl).moves
  · exact (Move.emit rfl).moves

theorem moves_skipAll (epoch : Nat) (level5 : List PendingBatch5) :
    Moves P (x.shelf (level5.filter (·.skipped) ++ rest)) ((skipAll P epoch level5 x).shelf rest) := by
  rw [skipAll]
  induction level5.filter (·.skipped) generalizing x with
  | nil => exact .refl
  | cons p skips ih => exact (moves_skipOne epoch).trans ih

def unhold (k : SessionKey) (x : Pass) : Pass :=
  { x with
    shard := { x.shard with
      holdBuffer := update x.shard.holdBuffer k
        ((x.shard.holdBuffer k).filter (·.1 ≠ (x.shard.clientState k).nextExpected))
      holdBufferSize := x.shard.holdBufferSize - 1 }
    holdSizeDelta := x.holdSizeDelta - 1 }

theorem shelf_retire (he : HoldEntry5) (sh : Level5ShardState) (ready : List PendingBatch5)
    (delta : List (Nat × Nat)) (size : Int) (t : Topic) :
    (⟨t.retireHeldSlotAndAdvance P he.batch.hdr he.holdMeta.brokerId he.holdMeta.slotOffset,
        sh, ready, delta, size⟩ : Pass).shelf l =
      { (⟨t, sh, ready, delta, size⟩ : Pass).shelf l with
        cxl := if t.capacityExhausted then t.cxl.sessionless
          else t.cxl.sessionless.retireHeld P.slots he } := by
  rw [← cxl_retire, shelf, frame_retire]
  rfl

theorem move_drainOne {he : HoldEntry5}
    (hhe : (x.shard.holdBuffer k).lookup (x.shard.clientState k).nextExpected = some he) :
    Move P (x.shelf l) ((drainOne P k he x).shelf l) := by
  rw [drainOne]
  split
  · rw [shelf_retire]
    dsimp only
    split
    · exact .discard (v := x.shelf l) hhe
    · exact .retire (v := x.shelf l) hhe
  · cases shelf_emitNext (k := k) (x := x.unhold k) (l := l) he.batch.batchSeq he.holdMeta.batchId he.released with
    | inl h =>
      rw [unhold, HoldEntry5.released] at h
      rw [h]
      exact .discard (v := x.shelf l) hhe
    | inr h =>
      rw [unhold, HoldEntry5.released] at h
      rw [h]
      exact .release (v := x.shelf l) hhe

theorem moves_drainLoop (fuel : Nat) : ∀ x : Pass, Moves P (x.shelf l) ((drainLoop P k fuel x).shelf l) := by
  induction fuel with
  | zero => exact fun _ => .refl
  | succ fuel ih =>
    intro x
    rw [drainLoop]
    split
    · exact .refl
    · exact (move_drainOne ‹_›).moves.trans (ih _)

theorem moves_drainSession (epoch : Nat) : Moves P (x.shelf l) ((drainSession P epoch x k).shelf l) := by
  rw [drainSession]
  split
  · exact .refl
  · have hloop := moves_drainLoop (P := P) (k := k) (l := l) (x.shard.holdBuffer k).length
      { x with shard := x.shard.setState k { x.shard.clientState k with lastEpoch := epoch } }
    dsimp only
    split
    · exact hloop
    · exact hloop

theorem moves_foldl {α : Type} {f : Pass → α → Pass} (hf : ∀ x a, Moves P (x.shelf l) ((f x a).shelf l)) (as : List α) :
    ∀ x : Pass, Moves P (x.shelf l) ((as.foldl f x).shelf l) := by
  induction as with
  | nil => exact fun _ => .refl
  | cons a as ih => exact fun x => (hf x a).trans (ih _)

theorem moves_drainHeld (epoch : Nat) : Moves P (x.shelf l) ((drainHeld P epoch x).shelf l) :=
  moves_foldl (fun _ _ => moves_drainSession epoch) _ x

theorem sweep_frame (nowNs leaseNs : Nat) (keys : List SessionKey) : ∀ sh : Level5ShardState,
    (sweep nowNs leaseNs keys sh).1 =
      { sh with clientState := (sweep nowNs leaseNs keys sh).1.clientState } := by
  induction keys with
  | nil => exact fun _ => rfl
  | cons k rest ih =>
    intro sh
    exact ih (sh.setState k (sweepSession nowNs leaseNs sh k).1)

theorem moves_expireHeld (clock : PassClock) (epoch : Nat) :
    Moves P (x.shelf l) ((expireHeld P clock epoch x).shelf l) := by
  have hsweep := sweep_frame clock.sweepNs
    (effectiveOrder5SessionFenceLeaseNs P.sessionLeaseNs clock.forceExpireActive)
    (P.iterate x.shard.clientsWithHeldBatches) x.shard
  have hfence := moves_foldl (P := P) (l := l) (f := fenceExpired P epoch) (fun x k => moves_recordFence (k := k)
      (x := { x with shard := x.shard.setState k { x.shard.clientState k with lastEpoch := epoch } }))
  rw [expireHeld]
  refine Moves.trans ?_ (hfence _ _)
  rw [hsweep]
  exact .refl

theorem shelf_clientGc (epoch : Nat) : ({ x with shard := x.shard.clientGc epoch } : Pass).shelf l = x.shelf l := by
  rw [Level5ShardState.clientGc]
  split
  · rfl
  · rfl

theorem moves_generalPath (clock : PassClock) (epoch : Nat) (level5 : List PendingBatch5) :
    Moves P (x.shelf level5) ((generalPath P clock epoch level5 x).shelf []) := by
  have hsorted : Moves P (x.shelf level5) (x.shelf (P.sort sessionOrder level5)) :=
    (Move.reorder (P.sort_perm _ _)).moves
  have hdrained := ((((hsorted.trans (moves_classifyGroups clock epoch _ none x)).trans
    (moves_drainHeld epoch)).trans (moves_expireHeld clock epoch)).trans (moves_drainHeld epoch))
  rw [generalPath]
  dsimp only
  split
  · exact hdrained
  · rw [shelf_clientGc]
    exact hdrained

theorem moves_oneGroup (clock : PassClock) (epoch : Nat) (level5 : List PendingBatch5) :
    Moves P (x.shelf level5) ((oneGroup P clock epoch level5 x).shelf []) := by
  rw [oneGroup, shelf_clientGc]
  exact (Move.reorder (P.sort_perm _ level5)).moves.trans (moves_classifyGroups clock epoch _ none x)

theorem moves_skipped (t : Topic) (sh : Level5ShardState) (input : List PendingBatch5) :
    Moves P ((start t sh (input ++ sh.deferredLevel5)).shelf (input ++ sh.deferredLevel5))
      ((skipped P t sh input).2.shelf (skipped P t sh input).1) :=
  (Move.reorder (List.filter_append_perm (·.skipped) _)).moves.trans (moves_skipAll t.currentEpochForHold _)

theorem moves_shard (clock : PassClock) (t : Topic) (sh : Level5ShardState) (input : List PendingBatch5) :
    Moves P ((start t sh (input ++ sh.deferredLevel5)).shelf (input ++ sh.deferredLevel5))
      ((processLevel5BatchesShard P clock t sh input).shelf []) := by
  refine (moves_skipped t sh input).trans ?_
  rcases processLevel5BatchesShard_cases P clock t sh input with heq | ⟨_, _, heq⟩
  · rw [heq]
    exact moves_generalPath clock _ _
  · rw [heq]
    exact moves_oneGroup clock _ _

theorem frame_shard (clock : PassClock) (t : Topic) (sh : Level5ShardState) (input : List PendingBatch5) :
    (processLevel5BatchesShard P clock t sh input).topic.frame = t.frame :=
  (moves_shard clock t sh input).frame

end Pass

end Embarcadero
