import Embarcadero.LogicalOnly
import Embarcadero.SessionSafety

namespace Embarcadero

open Function (update update_of_ne update_self)
open List

namespace Commit

structure CvAccumulation where
  tracker : Nat → Option Nat := fun _ => none
  maxCumulative : Nat → Nat := fun _ => 0

def accumulateCV (base : Nat → Nat) (s : CvAccumulation) (m : HoldBatchMetadata) : CvAccumulation :=
  if m.brokerId < numMaxBrokers then
    let cumulative := (s.tracker m.brokerId).getD (base m.brokerId) + m.numMsg
    { tracker := update s.tracker m.brokerId (some cumulative)
      maxCumulative := update s.maxCumulative m.brokerId (max (s.maxCumulative m.brokerId) cumulative) }
  else s

end Commit

def Topic.logicalOnly (numShards : Nat) (t : Topic) (b : Nat) : Nat :=
  ((List.range numShards).map fun i => (t.shards i).cvLogicalOnlyCumulative b).foldr max 0

def Topic.committedMessages (t : Topic) (b : Nat) : Nat :=
  (((Log.upTo t.cxl.goi t.globalBatchSeq).filter (·.brokerId = b)).map (·.messageCount)).sum

structure CvWorld where
  topic : Topic
  sequencerLogicalOffset : Nat → Nat := fun _ => 0
  completedLogicalOffset : Nat → Nat := fun _ => 0
  scanned : Nat → Nat := fun _ => 0
  dropped : Nat → Bool := fun _ => false

namespace CvWorld

def fresh (P : Platform) : CvWorld := { topic := .fresh P }

def cvBase (w : CvWorld) (b : Nat) : Nat :=
  max (w.topic.cxl.ordered b) (max (w.sequencerLogicalOffset b) (w.completedLogicalOffset b))

/-- `FlushAccumulatedCV` for the brokers touched.  Without a second replica the sequencer owns the durable
frontier too. -/
def flushAccumulatedCV (replicationFactor : Nat) (s : Commit.CvAccumulation) (w : CvWorld) : CvWorld :=
  { w with
    sequencerLogicalOffset := fun b => if (s.tracker b).isSome then
        max (w.sequencerLogicalOffset b) (s.maxCumulative b) else w.sequencerLogicalOffset b
    completedLogicalOffset := fun b => if replicationFactor ≤ 1 ∧ (s.tracker b).isSome then
        max (w.completedLogicalOffset b) (s.maxCumulative b) else w.completedLogicalOffset b }

def flushLogicalOnly (replicationFactor : Nat) (cumulative : Nat → Nat) (w : CvWorld) : CvWorld :=
  { w with
    sequencerLogicalOffset := fun b => max (w.sequencerLogicalOffset b) (cumulative b)
    completedLogicalOffset := fun b => if replicationFactor ≤ 1 then
        max (w.completedLogicalOffset b) (cumulative b) else w.completedLogicalOffset b
    dropped := fun b => w.dropped b || decide (0 < cumulative b) }

def commit (P : Platform) (replicationFactor : Nat) (w : CvWorld) (f : EpochInFlight) : CvWorld :=
  if (w.topic.commit P f).capacityExhausted then { w with topic := w.topic.commit P f }
  else
    let s := (Commit.committed (Commit.accepted w.topic f)).foldl (Commit.accumulateCV w.cvBase) {}
    flushLogicalOnly replicationFactor (w.topic.logicalOnly P.numShards)
      (flushAccumulatedCV replicationFactor s { w with topic := w.topic.commit P f })

end CvWorld

inductive CvEvent
  | topic (e : Event)
  /-- The tail replica has GOI entry `j` and advances the durable frontier of its owner. -/
  | complete (j : Nat)

def extend (scanned : Nat → Nat) (p : PendingBatch5) : Nat → Nat :=
  update scanned p.brokerId (p.cachedStartLogicalOffset + p.numMsg)

def InRingOrder : (Nat → Nat) → List PendingBatch5 → Prop
  | _, [] => True
  | scanned, p :: rest =>
    scanned p.brokerId ≤ p.cachedStartLogicalOffset ∧ InRingOrder (extend scanned p) rest

instance decidableInRingOrder : (scanned : Nat → Nat) → (l : List PendingBatch5) →
    Decidable (InRingOrder scanned l)
  | _, [] => isTrue trivial
  | scanned, p :: rest =>
    have := decidableInRingOrder (extend scanned p) rest
    inferInstanceAs (Decidable (_ ∧ _))

namespace CvWorld

def complete (w : CvWorld) (e : GOIEntry) : CvWorld :=
  { w with
    completedLogicalOffset := update w.completedLogicalOffset e.brokerId
      (max (w.completedLogicalOffset e.brokerId) e.cumulativeMessageCount) }

def step (P : Platform) (replicationFactor : Nat) (w : CvWorld) : CvEvent → Option CvWorld
  | .topic .commit => w.topic.inFlight.map (w.commit P replicationFactor)
  | .topic e => (Embarcadero.step P w.topic e).map fun t =>
      { w with topic := t, scanned := e.batchList.foldl extend w.scanned }
  | .complete j =>
    if j < w.topic.globalBatchSeq ∧ (w.topic.cxl.goi j).brokerId < numMaxBrokers then
      some (w.complete (w.topic.cxl.goi j))
    else none

def Scans (w : CvWorld) : CvEvent → Prop
  | .topic (.crash _) => False
  | .topic (.epoch batchList _) => InRingOrder w.scanned batchList
  | _ => True

instance (w : CvWorld) : (e : CvEvent) → Decidable (w.Scans e)
  | .topic (.crash _) => isFalse id
  | .topic (.epoch batchList _) => inferInstanceAs (Decidable (InRingOrder w.scanned batchList))
  | .topic (.slotWrite ..) | .topic (.admitSession _) | .topic (.idleTick _) | .topic (.finalDrain _)
  | .topic .commit | .topic .tail | .topic (.updateCommittedSeq _) | .topic .bumpControlEpoch
  | .topic (.takeFenceNote _) | .topic (.ackEpochCheck ..) | .topic (.ackRelay _)
  | .complete _ => isTrue trivial

def ParksNothing (P : Platform) (w : CvWorld) : CvEvent → Prop
  | .topic e => ∀ t ∈ Embarcadero.step P w.topic e, t.ParksNothing P t.readyVector
  | .complete _ => True

instance (P : Platform) (w : CvWorld) : (e : CvEvent) → Decidable (w.ParksNothing P e)
  | .topic e => inferInstanceAs (Decidable (∀ t ∈ Embarcadero.step P w.topic e, _))
  | .complete _ => isTrue trivial

end CvWorld

def PendingBatch5.Covers (p : PendingBatch5) (b m : Nat) : Prop :=
  p.brokerId = b ∧ p.cachedStartLogicalOffset ≤ m ∧ m < p.cachedStartLogicalOffset + p.numMsg

inductive Topic.Waits (t : Topic) (b m : Nat) : Prop
  | held {i : Nat} {k : SessionKey} {e : Nat × HoldEntry5} (he : e ∈ (t.shards i).holdBuffer k)
      (hc : e.2.batch.Covers b m)
  | deferred {i : Nat} {p : PendingBatch5} (hp : p ∈ (t.shards i).deferredLevel5) (hc : p.Covers b m)
  | backpressured {i : Nat} {s : Order5SlotIdentity} (hs : s ∈ (t.shards i).backpressuredLevel5Slots)
      (hb : s.brokerId = b)
  | ready {p : PendingBatch5} (hp : p ∈ t.readyVector) (hm : p.isHeldMarker = false)
      (hc : p.Covers b m)

structure CvWorld.Truthful (w : CvWorld) : Prop where
  /-- Every message below the logical offset has been extracted and committed or dropped. -/
  final : ∀ b < numMaxBrokers, ∀ m < w.sequencerLogicalOffset b, m < w.scanned b ∧ ¬w.topic.Waits b m
  exact : ∀ b < numMaxBrokers, w.dropped b = false → w.sequencerLogicalOffset b = w.topic.committedMessages b

theorem CxlMemory.ordered_writes {ws : List CxlWrite} (h : ∀ w ∈ ws, w.region ≠ .ordered)
    (c : CxlMemory) : (c.writes ws).ordered = c.ordered := by
  refine writes_frame (·.ordered) (fun c w hw => ?_) h c
  cases w <;> first | rfl | exact absurd rfl hw

namespace Commit

def orderedIncrement (ms : List HoldBatchMetadata) (b : Nat) : Nat :=
  ((ms.filter (·.brokerId = b)).map (·.numMsg)).sum

theorem orderedIncrement_cons (m : HoldBatchMetadata) (ms : List HoldBatchMetadata) (b : Nat) :
    orderedIncrement (m :: ms) b = (if m.brokerId = b then m.numMsg else 0) + orderedIncrement ms b := by
  rw [orderedIncrement, filter_cons]
  by_cases hb : m.brokerId = b
  · rw [if_pos (decide_eq_true hb), if_pos hb, map_cons, sum_cons]
    rfl
  · rw [if_neg (by simpa using hb), if_neg hb, Nat.zero_add]
    rfl

theorem ordered_stores (value : Nat → Nat) {bs : List Nat} (hbs : bs.Nodup) (b : Nat) :
    ∀ c : CxlMemory, (c.writes (bs.map fun b => .ordered b (value b))).ordered b =
      c.ordered b + if b ∈ bs then value b else 0 := by
  induction bs with
  | nil => exact fun _ => rfl
  | cons b' bs ih =>
    intro c
    rw [nodup_cons] at hbs
    rw [map_cons, CxlMemory.writes_cons, ih hbs.2]
    dsimp only [CxlMemory.write]
    by_cases hb : b = b'
    · rw [hb, update_self, if_neg hbs.1, if_pos mem_cons_self, Nat.add_zero]
    · rw [update_of_ne hb]
      simp only [mem_cons, hb, false_or]

variable {b : Nat}

theorem ordered_orderedWrites (c : CxlMemory) (ms : List HoldBatchMetadata) (hb : b < numMaxBrokers) :
    (c.writes (orderedWrites ms)).ordered b = c.ordered b + orderedIncrement ms b := by
  rw [orderedWrites]
  refine (ordered_stores (orderedIncrement ms) (nodup_range.filter _) b c).trans ?_
  split
  · rfl
  next hnot =>
    have hnone : ms.filter (·.brokerId = b) = [] := by
      rw [filter_eq_nil_iff]
      intro m hm heq
      exact hnot (mem_filter.mpr ⟨mem_range.mpr hb, any_eq_true.mpr ⟨m, hm, heq⟩⟩)
    rw [orderedIncrement, hnone]
    rfl

theorem goiEntries_cons {c : CxlMemory} {p : PendingBatch5} (h : ¬p.isMarker) (index order : Nat)
    (cumulative : Nat → Nat) (rest : List PendingBatch5) :
    ∃ count cumulative', goiEntries c index order cumulative (p :: rest) =
        goiEntry c p index order count :: goiEntries c (index + 1) (order + p.commitMeta.numMsg) cumulative' rest ∧
      ∀ b < numMaxBrokers, cumulative' b =
          cumulative b + (if p.commitMeta.brokerId = b then p.commitMeta.numMsg else 0) ∧
        (p.commitMeta.brokerId = b → count = cumulative' b) := by
  refine ⟨if p.commitMeta.brokerId < numMaxBrokers
      then cumulative p.commitMeta.brokerId + p.commitMeta.numMsg else p.commitMeta.numMsg,
    if p.commitMeta.brokerId < numMaxBrokers
      then update cumulative p.commitMeta.brokerId (if p.commitMeta.brokerId < numMaxBrokers
          then cumulative p.commitMeta.brokerId + p.commitMeta.numMsg else p.commitMeta.numMsg)
      else cumulative, ?_, fun b hb => ?_⟩
  · rw [goiEntries, goiWrites, if_neg h, filterMap_append, filterMap_goiEntry?_eq_nil (stamp_ne_goi p order)]
    rfl
  · by_cases hp : p.commitMeta.brokerId = b
    · subst hp
      rw [if_pos hb, if_pos hb, if_pos rfl, update_self]
      exact ⟨rfl, fun _ => rfl⟩
    · refine ⟨?_, fun heq => absurd heq hp⟩
      rw [if_neg hp, Nat.add_zero]
      split
      · exact update_of_ne (Ne.symm hp) ..
      · rfl

theorem owned_goiEntries (c : CxlMemory) (hb : b < numMaxBrokers) (kept : List PendingBatch5) :
    ∀ (index order : Nat) (cumulative : Nat → Nat),
      (((goiEntries c index order cumulative kept).filter (·.brokerId = b)).map (·.messageCount)).sum =
          orderedIncrement (committed kept) b ∧
        ∀ e ∈ goiEntries c index order cumulative kept, e.brokerId = b →
          e.cumulativeMessageCount ≤ cumulative b + orderedIncrement (committed kept) b := by
  induction kept with
  | nil => exact fun _ _ _ => ⟨rfl, nofun⟩
  | cons p rest ih =>
    intro index order cumulative
    by_cases hm : p.isMarker
    · rw [goiEntries_cons_marker hm, committed, batches_cons_marker hm]
      exact ih index order cumulative
    · obtain ⟨count, cumulative', hentries, hcount⟩ := goiEntries_cons (c := c) hm index order cumulative rest
      obtain ⟨hsum, hle⟩ := ih (index + 1) (order + p.commitMeta.numMsg) cumulative'
      obtain ⟨hcum, howner⟩ := hcount b hb
      have hinc : orderedIncrement (committed (p :: rest)) b =
          (if p.commitMeta.brokerId = b then p.commitMeta.numMsg else 0) +
            orderedIncrement (committed rest) b := by
        rw [committed, batches_cons_batch hm]
        exact orderedIncrement_cons ..
      rw [hentries, hinc]
      refine ⟨?_, fun e he heq => ?_⟩
      · rw [filter_cons, ← hsum]
        by_cases hp : p.commitMeta.brokerId = b
        · have hnew : (goiEntry c p index order count).brokerId = b := hp
          rw [if_pos (decide_eq_true hnew), if_pos hp, map_cons, sum_cons]
          rfl
        · have hnew : ¬(goiEntry c p index order count).brokerId = b := hp
          rw [if_neg fun h => hnew (of_decide_eq_true h), if_neg hp, Nat.zero_add]
      · cases mem_cons.mp he with
        | inl hnew =>
          subst hnew
          have hcount := howner heq
          change count ≤ _
          omega
        | inr hrest =>
          have hrest := hle e hrest heq
          omega

theorem foldl_accumulateCV (base : Nat → Nat) (hb : b < numMaxBrokers) (ms : List HoldBatchMetadata) :
    ∀ s : CvAccumulation,
      s.maxCumulative b = (s.tracker b).getD 0 →
      let r := ms.foldl (accumulateCV base) s
      r.maxCumulative b = (r.tracker b).getD 0 ∧
        (r.tracker b).getD (base b) = (s.tracker b).getD (base b) + orderedIncrement ms b := by
  induction ms with
  | nil => exact fun s hs => ⟨hs, rfl⟩
  | cons m ms ih =>
    intro s hs
    have hstep : (accumulateCV base s m).maxCumulative b = ((accumulateCV base s m).tracker b).getD 0 ∧
        ((accumulateCV base s m).tracker b).getD (base b) =
          (s.tracker b).getD (base b) + if m.brokerId = b then m.numMsg else 0 := by
      rw [accumulateCV]
      by_cases hm : m.brokerId = b
      · subst hm
        rw [if_pos hb]
        dsimp only
        rw [update_self, update_self, if_pos rfl, hs]
        refine ⟨max_eq_right ?_, rfl⟩
        cases s.tracker m.brokerId with
        | none => exact Nat.zero_le _
        | some n => exact Nat.le_add_right _ _
      · split
        · dsimp only
          rw [update_of_ne (Ne.symm hm), update_of_ne (Ne.symm hm)]
          exact ⟨hs, rfl⟩
        · exact ⟨hs, rfl⟩
    obtain ⟨hmax, htracker⟩ := ih (accumulateCV base s m) hstep.1
    refine ⟨hmax, htracker.trans ?_⟩
    rw [hstep.2, orderedIncrement_cons, Nat.add_assoc]

theorem accepted_sublist (t : Topic) (f : EpochInFlight) : (accepted t f).Sublist f.ready := by
  cases hx : t.capacityExhausted with
  | true =>
    rw [accepted, hx]
    exact nil_sublist _
  | false =>
    cases accepted_eq_or_stops .small t f hx with
    | inl h =>
      rw [h.1]
      exact nil_sublist _
    | inr h =>
      rw [h.1]
      exact filter_sublist

theorem commitEpoch_ordered (P : Platform) (t : Topic) (f : EpochInFlight) (hb : b < numMaxBrokers) :
    (commitEpoch P t f).cxl.ordered b = t.cxl.ordered b + orderedIncrement (committed (accepted t f)) b := by
  have hguard : ∀ w ∈ (guardAll t f.ready).writes, w.region ≠ .ordered := by
    intro w hw hr
    have := region_guardAll t f.ready w hw
    simp [hr] at this
  cases hx : t.capacityExhausted with
  | true =>
    rw [commitEpoch_of_exhausted P t f hx, accepted, hx]
    rfl
  | false =>
    rw [commitEpoch_of_running P t f hx, accepted, hx]
    dsimp only
    rw [writes]
    cases ho : outcome t (guardAll t f.ready) with
    | stopped =>
      dsimp only
      rw [CxlMemory.ordered_writes hguard]
      rfl
    | nothingReady =>
      dsimp only
      rw [CxlMemory.ordered_writes]
      · rfl
      · intro w hw
        cases mem_append.mp hw with
        | inl hw => exact hguard w hw
        | inr hw =>
          rw [region_advanceConsumedThrough P _ _ _ w hw]
          exact Region.noConfusion
    | committed kept firstGoi n firstMessage msgs =>
      have hbefore : ∀ w ∈ (guardAll t f.ready).writes ++ goiWrites t.cxl firstGoi firstMessage t.cxl.ordered kept ++
          (exportWrites P firstMessage ⟨t.exportCursor, t.exportSequence⟩ kept).1, w.region ≠ .ordered := by
        intro w hw hr
        simp only [mem_append, or_assoc] at hw
        rcases hw with hw | hw | hw
        · exact hguard w hw hr
        · have := region_goiWrites _ _ _ _ _ w hw
          simp [hr] at this
        · rw [region_exportWrites P _ _ _ w hw] at hr
          cases hr
      have hafter : ∀ w ∈ sessionWrites P (committed kept) ++ (advanceConsumedThrough P t.shards f
          (metadataContiguous P f (committed kept))).2, w.region ≠ .ordered := by
        intro w hw hr
        cases mem_append.mp hw with
        | inl hw =>
          rw [region_sessionWrites P _ w hw] at hr
          cases hr
        | inr hw =>
          rw [region_advanceConsumedThrough P _ _ _ w hw] at hr
          cases hr
      dsimp only
      rw [append_assoc _ (sessionWrites P _), CxlMemory.writes_append,
        CxlMemory.ordered_writes hafter, CxlMemory.writes_append, ordered_orderedWrites _ _ hb,
        CxlMemory.ordered_writes hbefore]
      rfl

theorem committedMessages_commit (P : Platform) (t : Topic) (f : EpochInFlight) (hb : b < numMaxBrokers) :
    (t.commit P f).committedMessages b = t.committedMessages b + orderedIncrement (committed (accepted t f)) b := by
  rw [Topic.committedMessages, upTo_commit, filter_append, map_append, sum_append]
  exact congrArg (_ + ·) (owned_goiEntries t.cxl hb (accepted t f) _ _ _).1

end Commit

theorem messagesOf_map_markStale (b epoch : Nat) (l : List PendingBatch5) :
    messagesOf b (l.map (·.markStale epoch)) = messagesOf b l := by
  rw [messagesOf, map_map]
  refine congrArg List.sum (map_congr_left fun p _ => ?_)
  have heq := (p.markStale_eq epoch).1
  have hbroker : (p.markStale epoch).brokerId = p.brokerId := congrArg (·.brokerId) heq
  have hnum : (p.markStale epoch).numMsg = p.numMsg := congrArg (·.numMsg) heq
  simp only [Function.comp_apply, hbroker, hnum]

theorem InRingOrder.spec {l : List PendingBatch5} : ∀ {scanned : Nat → Nat}, InRingOrder scanned l →
    (∀ b, scanned b + messagesOf b l ≤ l.foldl extend scanned b) ∧
      ∀ p ∈ l, scanned p.brokerId ≤ p.cachedStartLogicalOffset ∧
        p.cachedStartLogicalOffset + p.numMsg ≤ l.foldl extend scanned p.brokerId := by
  induction l with
  | nil => exact fun _ => ⟨fun _ => Nat.le_refl _, nofun⟩
  | cons p rest ih =>
    intro scanned h
    obtain ⟨hsum, hmem⟩ := ih h.2
    have hself : extend scanned p p.brokerId = p.cachedStartLogicalOffset + p.numMsg :=
      update_self ..
    have hext : ∀ b, scanned b + messagesOf b [p] ≤ extend scanned p b := by
      intro b
      by_cases hb : p.brokerId = b
      · have hstart := h.1
        rw [← hb, hself]
        simp only [messagesOf, map_cons, map_nil, sum_cons, sum_nil, if_pos]
        omega
      · rw [extend, update_of_ne (Ne.symm hb)]
        simp [messagesOf, hb]
    rw [foldl_cons]
    refine ⟨fun b => ?_, fun q hq => ?_⟩
    · rw [messagesOf_cons]
      have hfirst := hext b
      have hrest := hsum b
      omega
    · cases hq with
      | head =>
        have hrest := hsum p.brokerId
        exact ⟨h.1, by omega⟩
      | tail _ hq =>
        refine ⟨?_, (hmem q hq).2⟩
        exact (Nat.le_of_add_right_le (hext q.brokerId)).trans (hmem q hq).1

theorem messagesOf_levels (t : Topic) (b : Nat) (l : List PendingBatch5) :
    messagesOf b (t.level0 l) + messagesOf b (t.level5 l) = messagesOf b l := by
  have hperm := filter_append_perm (·.clientId = 0) (l.map (·.markStale t.cxl.controlEpoch))
  rw [← messagesOf_append, ← messagesOf_map_markStale b t.cxl.controlEpoch l, ← messagesOf_perm hperm,
    Topic.level0, Topic.level5]
  simp only [ne_eq, decide_not]

structure PendingBatch5.Fits (offset scanned : Nat → Nat) (q : PendingBatch5) : Prop where
  raw : q.fromHold = false
  lower : q.brokerId < numMaxBrokers → offset q.brokerId ≤ q.cachedStartLogicalOffset
  upper : q.Within scanned

structure CvWorld.Ok (w : CvWorld) : Prop where
  quiet : w.topic.Quiet
  ready : ∀ p ∈ w.topic.readyVector, p.isHeldMarker = false →
    ∃ q : PendingBatch5, q.Fits w.sequencerLogicalOffset w.scanned ∧ p.Carries q
  room : ∀ b < numMaxBrokers, w.cvBase b + messagesOf b w.topic.readyVector ≤ w.scanned b
  logical : ∀ i, (w.topic.shards i).Within w.scanned
  counted : ∀ b < numMaxBrokers, w.topic.cxl.ordered b = w.topic.committedMessages b
  cumulative : ∀ e ∈ Log.upTo w.topic.cxl.goi w.topic.globalBatchSeq, e.brokerId < numMaxBrokers →
    e.cumulativeMessageCount ≤ w.topic.cxl.ordered e.brokerId
  exact : ∀ b < numMaxBrokers, w.dropped b = false → w.sequencerLogicalOffset b = w.topic.cxl.ordered b ∧
      w.completedLogicalOffset b ≤ w.topic.cxl.ordered b

variable {P : Platform} {rf : Nat} {w w' : CvWorld} {t t' : Topic} {f : EpochInFlight}

def Topic.cvView (t : Topic) := (t.shards, t.inFlight, t.cxl.ordered, t.cxl.goi, t.globalBatchSeq)

theorem Topic.Idle.readyVector (h : t.Idle) : t.readyVector = [] := by
  rw [Topic.readyVector, Option.isNone_iff_eq_none.mp h.1]
  rfl

theorem Topic.Quiet.kept (h : t.Quiet) (S : PendingBatch5 → Prop) : t.From S [] := by
  refine ⟨fun i k e he => ?_, fun i p hp => ?_, nofun⟩
  · rw [(h i).held] at he
    cases he
  · rw [(h i).deferred] at hp
    cases hp

namespace CvWorld.Ok

theorem fresh (P : Platform) : (CvWorld.fresh P).Ok where
  quiet _ := ⟨fun _ => rfl, rfl, rfl⟩
  ready := nofun
  room _ _ := Nat.zero_le _
  logical _ _ := Nat.zero_le _
  counted _ _ := rfl
  cumulative := nofun
  exact _ _ _ := ⟨rfl, Nat.zero_le _⟩

theorem of_view (h : w.Ok) (hv : t.cvView = w.topic.cvView) : Ok { w with topic := t } := by
  simp only [Topic.cvView, Prod.mk.injEq] at hv
  obtain ⟨hshards, hflight, hordered, hgoi, hgbs⟩ := hv
  have hready : t.readyVector = w.topic.readyVector := by
    rw [Topic.readyVector, hflight, Topic.readyVector]
  constructor
  · intro i
    dsimp only
    rw [hshards]
    exact h.quiet i
  · dsimp only
    rw [hready]
    exact h.ready
  · dsimp only [CvWorld.cvBase]
    rw [hordered, hready]
    exact h.room
  · intro i
    dsimp only
    rw [hshards]
    exact h.logical i
  · dsimp only [Topic.committedMessages]
    rw [hordered, hgoi, hgbs]
    exact h.counted
  · dsimp only
    rw [hordered, hgoi, hgbs]
    exact h.cumulative
  · dsimp only
    rw [hordered]
    exact h.exact

theorem complete (h : w.Ok) {e : GOIEntry} (he : e ∈ Log.upTo w.topic.cxl.goi w.topic.globalBatchSeq)
    (hb : e.brokerId < numMaxBrokers) : (w.complete e).Ok := by
  have hle := h.cumulative e he hb
  have hcompleted : ∀ b, (w.complete e).completedLogicalOffset b ≤
      max (w.completedLogicalOffset b) (w.topic.cxl.ordered b) := by
    intro b
    rw [CvWorld.complete]
    dsimp only
    rw [Function.update_apply]
    split
    next heq =>
      subst heq
      omega
    · exact le_max_left ..
  exact { h with
    room := fun b hb => by
      have hroom := h.room b hb
      have hnew := hcompleted b
      rw [CvWorld.cvBase] at hroom ⊢
      change max (w.topic.cxl.ordered b) (max (w.sequencerLogicalOffset b) _) +
        messagesOf b w.topic.readyVector ≤ w.scanned b
      omega
    exact := fun b hb hd => by
      have hexact := h.exact b hb hd
      have hnew := hcompleted b
      refine ⟨hexact.1, hnew.trans (max_le hexact.2 (Nat.le_refl _))⟩ }

theorem classify (h : w.Ok) {e : Event} (he : e.classifies = true) (hscan : InRingOrder w.scanned e.batchList)
    (hstep : Embarcadero.step P w.topic e = some t) (hpark : t.ParksNothing P t.readyVector) :
    Ok { w with topic := t, scanned := e.batchList.foldl extend w.scanned } := by
  obtain ⟨clock, t₁, f, hx, rfl⟩ := extracts_of_step he hstep
  obtain ⟨hsum, hmem⟩ := hscan.spec
  have hroom : ∀ b < numMaxBrokers, w.cvBase b ≤ w.scanned b := fun b hb => by
    have hroom := h.room b hb
    rwa [hx.idle.readyVector] at hroom
  have hgrow : ∀ b, w.scanned b ≤ e.batchList.foldl extend w.scanned b := fun b =>
    Nat.le_of_add_right_le (hsum b)
  -- What extraction brings lies behind the old frontier of its ring, and before the new one.
  have hfits : ∀ q ∈ e.batchList.map (·.markStale w.topic.cxl.controlEpoch),
      q.Fits w.sequencerLogicalOffset (e.batchList.foldl extend w.scanned) := by
    intro q hq
    obtain ⟨p, hp, rfl⟩ := mem_map.mp hq
    rw [(p.markStale_eq _).1]
    refine ⟨(hx.scanned p hp).1, fun hb => ?_, (hmem p hp).2⟩
    calc w.sequencerLogicalOffset p.brokerId
        _ ≤ w.cvBase p.brokerId := (le_max_left ..).trans (le_max_right ..)
        _ ≤ w.scanned p.brokerId := hroom _ hb
        _ ≤ p.cachedStartLogicalOffset := (hmem p hp).1
  have hfive : ∀ q ∈ w.topic.level5 e.batchList,
      q.Fits w.sequencerLogicalOffset (e.batchList.foldl extend w.scanned) :=
    fun q hq => hfits q (mem_of_mem_filter hq)
  have hquiet : t₁.Quiet := by
    rw [hx.start]
    exact h.quiet
  have hwithin : ∀ i, (t₁.shards i).Within (e.batchList.foldl extend w.scanned) := by
    rw [hx.start]
    exact fun i b => (h.logical i b).trans (hgrow b)
  have hparks : (processLevel5Batches P clock t₁ (w.topic.level5 e.batchList)).1.ParksNothing P
      (processLevel5Batches P clock t₁ (w.topic.level5 e.batchList)).2 := by
    refine ⟨fun p hp => hpark.1 p ?_, hpark.2⟩
    change p ∈ f.ready
    rw [hx.ready]
    exact mem_append_right _ hp
  obtain ⟨hafter, hload⟩ := hquiet.process clock _ hparks
  have hkept := ((hquiet.kept _).process (P := P) clock hfive).1
  have hlogical := (hquiet.kept _).within_process (fun q hq => hq.upper) hwithin (P := P) clock hfive
  have hframe := congrArg (fun t : Topic => (t.cxl.ordered, t.cxl.goi, t.globalBatchSeq))
    (frame_process (P := P) clock t₁ (w.topic.level5 e.batchList))
  have hready := hx.ready
  generalize processLevel5Batches P clock t₁ (w.topic.level5 e.batchList) = r at *
  obtain ⟨hordered, hgoi, hgbs⟩ : r.1.cxl.ordered = w.topic.cxl.ordered ∧
      r.1.cxl.goi = w.topic.cxl.goi ∧ r.1.globalBatchSeq = w.topic.globalBatchSeq := by
    rw [hx.start] at hframe
    simpa only [Prod.mk.injEq, Topic.frame] using hframe
  constructor
  · exact hafter
  · intro p hp hm
    change p ∈ f.ready at hp
    rw [hready] at hp
    cases mem_append.mp hp with
    | inl hzero => exact ⟨p, hfits p (mem_of_mem_filter hzero), .inl rfl⟩
    | inr hfive => exact hkept.ready p hfive hm
  · intro b hb
    change max (r.1.cxl.ordered b) _ + messagesOf b f.ready ≤ _
    rw [hordered, hready, messagesOf_append]
    have hlevels := messagesOf_levels w.topic b e.batchList
    have hnew := hsum b
    have hold := hroom b hb
    have hfive := hload b
    change w.cvBase b + _ ≤ _
    dsimp only
    omega
  · exact hlogical
  · dsimp only [Topic.committedMessages]
    rw [hordered, hgoi, hgbs]
    exact h.counted
  · dsimp only
    rw [hordered, hgoi, hgbs]
    exact h.cumulative
  · dsimp only
    rw [hordered]
    exact h.exact

end CvWorld.Ok

theorem Commit.orderedIncrement_committed_le {kept : List PendingBatch5}
    (h : ∀ p ∈ kept, p.isMarker = false →
      p.commitMeta.brokerId = p.brokerId ∧ p.commitMeta.numMsg = p.numMsg) (b : Nat) :
    orderedIncrement (committed kept) b ≤ messagesOf b kept := by
  induction kept with
  | nil => exact Nat.le_refl _
  | cons p rest ih =>
    have hrest := ih fun q hq => h q (mem_cons_of_mem _ hq)
    rw [messagesOf_cons]
    by_cases hm : p.isMarker
    · rw [committed, batches_cons_marker hm]
      exact hrest.trans (Nat.le_add_left _ _)
    · have hp := h p mem_cons_self (Bool.eq_false_iff.mpr hm)
      rw [committed, batches_cons_batch hm, map_cons, orderedIncrement_cons, hp.1, hp.2]
      exact Nat.add_le_add_left hrest _

namespace CvWorld.Ok

theorem increment_le (h : w.Ok) (hf : w.topic.inFlight = some f) (b : Nat) :
    Commit.orderedIncrement (Commit.committed (Commit.accepted w.topic f)) b ≤ messagesOf b w.topic.readyVector := by
  have hready : f.ready = w.topic.readyVector := by
    rw [Topic.readyVector, hf]
    rfl
  have hsub := hready ▸ Commit.accepted_sublist w.topic f
  refine (Commit.orderedIncrement_committed_le (fun p hp hm => ?_) b).trans (messagesOf_sublist hsub)
  obtain ⟨q, hq, hc⟩ := h.ready p (hsub.subset hp) (Bool.or_eq_false_iff.mp hm).2
  rw [hc.commitMeta hq.raw]
  cases hc with
  | inl heq => exact heq ▸ ⟨rfl, rfl⟩
  | inr heq => exact heq ▸ ⟨rfl, rfl⟩

end CvWorld.Ok

theorem Topic.logicalOnly_le {frontier : Nat → Nat} (h : ∀ i, (t.shards i).Within frontier)
    (n b : Nat) : t.logicalOnly n b ≤ frontier b := by
  refine max_le_of_forall_le (α := Nat) _ _ fun m hm => ?_
  obtain ⟨i, -, rfl⟩ := mem_map.mp hm
  exact h i b

structure CvWorld.Flushed (w w' : CvWorld) (b inc logical : Nat) : Prop where
  offset_le : w'.sequencerLogicalOffset b ≤ max (w.cvBase b + inc) logical
  completed_le : w'.completedLogicalOffset b ≤ max (w.cvBase b + inc) logical
  exact : w'.dropped b = false → w.dropped b = false ∧ w'.completedLogicalOffset b ≤ w.cvBase b + inc ∧
    (w'.sequencerLogicalOffset b = w.cvBase b + inc ∨
      w'.sequencerLogicalOffset b = w.sequencerLogicalOffset b ∧ inc = 0)

theorem CvWorld.flushed_commit (w : CvWorld) (f : EpochInFlight) {b : Nat} (hb : b < numMaxBrokers) :
    w.Flushed (w.commit P rf f) b
      (Commit.orderedIncrement (Commit.committed (Commit.accepted w.topic f)) b)
      (w.topic.logicalOnly P.numShards b) := by
  have hoffset : w.sequencerLogicalOffset b ≤ w.cvBase b := (le_max_left ..).trans (le_max_right ..)
  have hcompleted : w.completedLogicalOffset b ≤ w.cvBase b := (le_max_right ..).trans (le_max_right ..)
  rw [CvWorld.commit]
  split
  next hx =>
    have hnone : Commit.accepted w.topic f = [] := by
      cases h0 : w.topic.capacityExhausted with
      | true =>
        rw [Commit.accepted, h0]
        rfl
      | false =>
        cases Commit.accepted_eq_or_stops P w.topic f h0 with
        | inl h => exact h.1
        | inr h => exact absurd (h.2.symm.trans hx) Bool.noConfusion
    rw [hnone]
    change Flushed w _ b 0 _
    exact ⟨by dsimp only; omega, by dsimp only; omega, fun hd => ⟨hd, hcompleted, .inr ⟨rfl, rfl⟩⟩⟩
  · obtain ⟨hmax, htracker⟩ := Commit.foldl_accumulateCV w.cvBase hb
      (Commit.committed (Commit.accepted w.topic f)) {} rfl
    generalize Commit.orderedIncrement (Commit.committed (Commit.accepted w.topic f)) b = inc at *
    generalize (Commit.committed (Commit.accepted w.topic f)).foldl (Commit.accumulateCV w.cvBase) {} = s at *
    generalize w.topic.logicalOnly P.numShards = logical
    have hseq : (flushAccumulatedCV rf s w).sequencerLogicalOffset b = w.cvBase b + inc ∨
        (flushAccumulatedCV rf s w).sequencerLogicalOffset b = w.sequencerLogicalOffset b ∧ inc = 0 := by
      rw [flushAccumulatedCV]
      dsimp only
      cases htr : s.tracker b with
      | none =>
        rw [htr] at htracker
        exact .inr ⟨rfl, Nat.left_eq_add.mp htracker⟩
      | some n =>
        rw [htr] at hmax htracker
        change s.maxCumulative b = n at hmax
        change n = w.cvBase b + inc at htracker
        left
        rw [if_pos Option.isSome_some, hmax, htracker]
        exact max_eq_right (hoffset.trans (Nat.le_add_right _ _))
    have hcomp : (flushAccumulatedCV rf s w).completedLogicalOffset b ≤ w.cvBase b + inc := by
      rw [flushAccumulatedCV]
      dsimp only
      split
      next hsome =>
        obtain ⟨n, hn⟩ := Option.isSome_iff_exists.mp hsome.2
        rw [hn] at hmax htracker
        rw [hmax]
        exact max_le (hcompleted.trans (Nat.le_add_right _ _)) (Nat.le_of_eq htracker)
      · exact hcompleted.trans (Nat.le_add_right _ _)
    change Flushed w (flushLogicalOnly rf logical (flushAccumulatedCV rf s _)) b inc (logical b)
    constructor
    · change max ((flushAccumulatedCV rf s w).sequencerLogicalOffset b) (logical b) ≤ _
      omega
    · change (if rf ≤ 1 then max ((flushAccumulatedCV rf s w).completedLogicalOffset b) (logical b)
        else (flushAccumulatedCV rf s w).completedLogicalOffset b) ≤ _
      split <;> omega
    · intro hd
      have hd : (w.dropped b || decide (0 < logical b)) = false := hd
      rw [Bool.or_eq_false_iff, decide_eq_false_iff_not] at hd
      change _ ∧ (if rf ≤ 1 then max ((flushAccumulatedCV rf s w).completedLogicalOffset b) (logical b)
        else (flushAccumulatedCV rf s w).completedLogicalOffset b) ≤ _ ∧
        (max ((flushAccumulatedCV rf s w).sequencerLogicalOffset b) (logical b) = _ ∨
          max ((flushAccumulatedCV rf s w).sequencerLogicalOffset b) (logical b) = _ ∧ _)
      rw [Nat.eq_zero_of_not_pos hd.2, Nat.max_zero, Nat.max_zero, ite_self]
      exact ⟨hd.1, hcomp, hseq⟩

namespace CvWorld.Ok

theorem commit (h : w.Ok) (hf : w.topic.inFlight = some f) : (w.commit P rf f).Ok := by
  have htopic : (w.commit P rf f).topic = w.topic.commit P f := by
    rw [CvWorld.commit]
    split <;> rfl
  have hscanned : (w.commit P rf f).scanned = w.scanned := by
    rw [CvWorld.commit]
    split <;> rfl
  have hshards : (w.topic.commit P f).shards = w.topic.shards := by
    change (commitEpoch P w.topic f).shards = _
    rw [commitEpoch_shape]
  have hordered : ∀ {b}, b < numMaxBrokers → (w.topic.commit P f).cxl.ordered b = w.topic.cxl.ordered b +
        Commit.orderedIncrement (Commit.committed (Commit.accepted w.topic f)) b :=
    fun hb => Commit.commitEpoch_ordered P w.topic f hb
  have hflushed : ∀ {b}, b < numMaxBrokers → w.Flushed (w.commit P rf f) b _ _ :=
    fun hb => w.flushed_commit f hb
  have hinc := h.increment_le hf
  constructor
  · intro i
    rw [htopic, hshards]
    exact h.quiet i
  · rw [htopic]
    nofun
  · intro b hb
    rw [CvWorld.cvBase, htopic, hscanned, hordered hb]
    change max _ (max _ _) ≤ w.scanned b
    have hroom := h.room b hb
    have hflush := hflushed hb
    have hlogical := w.topic.logicalOnly_le h.logical P.numShards b
    have hload := hinc b
    have hbase : w.topic.cxl.ordered b ≤ w.cvBase b := le_max_left ..
    have hoffset := hflush.offset_le
    have hcompleted := hflush.completed_le
    omega
  · rw [htopic, hscanned, hshards]
    exact h.logical
  · intro b hb
    rw [htopic, hordered hb, Commit.committedMessages_commit P w.topic f hb, h.counted b hb]
  · intro e he hb
    rw [htopic] at he ⊢
    rw [hordered hb]
    rw [upTo_commit] at he
    cases mem_append.mp he with
    | inl hold => exact (h.cumulative e hold hb).trans (Nat.le_add_right _ _)
    | inr hnew =>
      exact (Commit.owned_goiEntries w.topic.cxl hb (Commit.accepted w.topic f) _ _ _).2 e hnew rfl
  · intro b hb hd
    obtain ⟨hd, hcompleted, hoffset⟩ := (hflushed hb).exact hd
    have hexact := h.exact b hb hd
    have hbase : w.cvBase b = w.topic.cxl.ordered b := by
      rw [CvWorld.cvBase, hexact.1, max_eq_left hexact.2, max_self]
    rw [htopic, hordered hb]
    omega

theorem step {e : CvEvent} (h : w.Ok) (hscan : w.Scans e) (hpark : w.ParksNothing P e)
    (hstep : CvWorld.step P rf w e = some w') : w'.Ok := by
  cases e with
  | complete j =>
    obtain ⟨hj, rfl⟩ := Runs.of_guard hstep
    exact h.complete (Log.mem_upTo.mpr ⟨j, hj.1, rfl⟩) hj.2
  | topic e =>
    have hring : InRingOrder w.scanned e.batchList := by
      cases e with
      | epoch batchList clock => exact hscan
      | _ => exact trivial
    cases e with
    | epoch _ _ | idleTick _ | finalDrain _ =>
      obtain ⟨t, ht, rfl⟩ := Option.map_eq_some_iff.mp hstep
      exact h.classify rfl hring ht (hpark t ht)
    | commit =>
      obtain ⟨f, hf, rfl⟩ := Option.map_eq_some_iff.mp hstep
      exact h.commit hf
    | crash n => cases hscan
    | takeFenceNote k =>
      obtain ⟨t, ht, rfl⟩ := Option.map_eq_some_iff.mp hstep
      obtain ⟨m, -, rfl⟩ := Option.map_eq_some_iff.mp ht
      exact h.of_view rfl
    | ackEpochCheck k refresh =>
      obtain rfl := Option.some.inj hstep
      cases refresh with
      | true => exact h.of_view rfl
      | false => exact h.of_view rfl
    | ackRelay k =>
      obtain ⟨t, ht, rfl⟩ := Option.map_eq_some_iff.mp hstep
      obtain ⟨-, rfl⟩ := Runs.of_guard ht
      exact h.of_view rfl
    | tail =>
      obtain rfl := Option.some.inj hstep
      have hregion : ∀ r : Region, r ≠ .frontier → ∀ w' ∈ w.topic.tailWrites, w'.region ≠ r := by
        intro r hr w' hw'
        rw [region_tailWrites w.topic w' hw']
        exact hr.symm
      apply h.of_view
      rw [Topic.cvView, Topic.finishTail, CxlMemory.ordered_writes (hregion _ Region.noConfusion),
        CxlMemory.goi_writes (hregion _ Region.noConfusion)]
      rfl
    | updateCommittedSeq n =>
      obtain rfl := Option.some.inj hstep
      obtain ⟨s, hs⟩ := w.topic.committedSeqUpdater_cxl n
      apply h.of_view
      rw [Topic.cvView, hs]
      rfl
    | _ =>
      obtain rfl := Option.some.inj hstep
      exact h.of_view rfl

end CvWorld.Ok

theorem CvWorld.Ok.truthful (h : w.Ok) : w.Truthful := by
  have hquiet := h.quiet
  refine ⟨fun b hb m hm => ⟨?_, fun hwait => ?_⟩, fun b hb hd => ?_⟩
  · have hroom := h.room b hb
    have hbase : w.sequencerLogicalOffset b ≤ w.cvBase b := (le_max_left ..).trans (le_max_right ..)
    omega
  · cases hwait with
    | @held i k e he hc =>
      rw [(hquiet i).held] at he
      cases he
    | @deferred i p hp hc =>
      rw [(hquiet i).deferred] at hp
      cases hp
    | @backpressured i s hs hb =>
      rw [(hquiet i).backpressured] at hs
      cases hs
    | @ready p hp hmarker hc =>
      obtain ⟨q, hq, hcarries⟩ := h.ready p hp hmarker
      have hcover : q.Covers b m := by
        cases hcarries with
        | inl heq => exact heq ▸ hc
        | inr heq =>
          subst heq
          exact hc
      obtain ⟨rfl, hle, -⟩ := hcover
      have hlower := hq.lower hb
      omega
  · rw [(h.exact b hb hd).1, h.counted b hb]

theorem CvWorld.step_topic {e : Event} (he : e ≠ .commit) : CvWorld.step P rf w (.topic e) =
    (Embarcadero.step P w.topic e).map fun t =>
      { w with topic := t, scanned := e.batchList.foldl extend w.scanned } := by
  cases e with
  | commit => exact absurd rfl he
  | _ => rfl

theorem CvWorld.offset_le_step {e : CvEvent} (hstep : CvWorld.step P rf w e = some w') (b : Nat) :
    w.sequencerLogicalOffset b ≤ w'.sequencerLogicalOffset b := by
  cases e with
  | complete j =>
    obtain ⟨-, rfl⟩ := Runs.of_guard hstep
    exact Nat.le_refl _
  | topic e =>
    by_cases he : e = .commit
    · subst he
      obtain ⟨f, -, rfl⟩ := Option.map_eq_some_iff.mp hstep
      rw [CvWorld.commit]
      split
      · exact Nat.le_refl _
      · refine Nat.le_trans ?_ (le_max_left ..)
        dsimp only [flushAccumulatedCV]
        split
        · exact le_max_left ..
        · exact Nat.le_refl _
    · rw [CvWorld.step_topic he] at hstep
      obtain ⟨t, -, rfl⟩ := Option.map_eq_some_iff.mp hstep
      exact Nat.le_refl _

def ringSlot (b l c seq : Nat) : BatchHeader :=
  { publishedSlot b l seq with clientId := c, startLogicalOffset := l }

def publishRing (b l c seq : Nat) : Event := .slotWrite ⟨b, l % 4⟩ (ringSlot b l c seq)

def ringScan (b l c seq : Nat) : PendingBatch5 := .ofSlot b (l % 4) (ringSlot b l c seq)

def overcountRun : List CvEvent :=
  [publishRing 1 0 8 0, .epoch [ringScan 1 0 8 0] (scenarioClock 1), .commit, .tail,
    publishRing 0 0 7 1, publishRing 0 1 8 0,
    .epoch [ringScan 0 0 7 1, ringScan 0 1 8 0] (scenarioClock 2), .commit, .tail,
    publishRing 1 1 7 0, .epoch [ringScan 1 1 7 0] (scenarioClock 3), .commit, .tail].map .topic

def duplicateRun : List CvEvent :=
  [publishRing 1 0 8 0, .epoch [ringScan 1 0 8 0] (scenarioClock 1), .commit, .tail,
    publishRing 0 0 8 0, publishRing 0 1 8 1,
    .epoch [ringScan 0 0 8 0, ringScan 0 1 8 1] (scenarioClock 2)].map .topic

end Embarcadero
