import Embarcadero.SessionSafety
import Embarcadero.Shelf

namespace Embarcadero

open List

open Function (update forall_update_iff)

def PendingBatch5.Carries (p q : PendingBatch5) : Prop :=
  p = q ∨ p = { q with fromHold := true, holdMeta := q.cachedMeta }

variable {P : Platform} {S S' : PendingBatch5 → Prop} {t t' : Topic} {p : PendingBatch5}

variable {q : PendingBatch5}

theorem PendingBatch5.Carries.commitMeta (h : p.Carries q) (hq : q.fromHold = false) : p.commitMeta = q.cachedMeta := by
  cases h with
  | inl heq => rw [heq, PendingBatch5.commitMeta, if_neg (Bool.eq_false_iff.mp hq)]
  | inr heq =>
    rw [heq]
    rfl

section Shelf

open Embarcadero.Shelf

variable {v w : Shelf}

structure Shelf.From (S : PendingBatch5 → Prop) (v : Shelf) : Prop where
  pending : ∀ p ∈ v.pending, S p
  held : ∀ k, ∀ e ∈ v.held k, S e.2.batch ∧ e.2.holdMeta = e.2.batch.cachedMeta
  deferred : ∀ p ∈ v.deferred, S p
  ready : ∀ p ∈ v.ready, p.isHeldMarker = false → ∃ q, S q ∧ p.Carries q

namespace Shelf.From

variable {rest : List PendingBatch5} {k : SessionKey}

theorem head (h : v.From S) (hp : v.pending = p :: rest) : S p :=
  h.pending p (hp ▸ mem_cons_self)

theorem tail (h : v.From S) (hp : v.pending = p :: rest) :
    ∀ q ∈ rest, S q := fun q hq => h.pending q (hp ▸ mem_cons_of_mem _ hq)

theorem push (h : v.From S) {q : PendingBatch5} (hq : q.isHeldMarker = false → ∃ r, S r ∧ q.Carries r) :
    ∀ p ∈ v.ready ++ [q], p.isHeldMarker = false → ∃ r, S r ∧ p.Carries r := by
  intro p hp
  cases mem_append.mp hp with
  | inl hold => exact h.ready p hold
  | inr hnew => exact mem_singleton.mp hnew ▸ hq

theorem sublist (h : v.From S) {entries : List (Nat × HoldEntry5)} (hsub : ∀ e ∈ entries, e ∈ v.held k) :
    ∀ k', ∀ e ∈ update v.held k entries k', S e.2.batch ∧ e.2.holdMeta = e.2.batch.cachedMeta :=
  (forall_update_iff v.held (fun _ l => ∀ e ∈ l, S e.2.batch ∧
    e.2.holdMeta = e.2.batch.cachedMeta)).mpr ⟨fun e he => h.held k e (hsub e he),
      fun k' _ => h.held k'⟩

theorem lookup (h : v.From S) {s : Nat} {he : HoldEntry5} (hhe : (v.held k).lookup s = some he) :
    ∃ q, S q ∧ he.released.Carries q := by
  have hmem := h.held k _ (Assoc.mem_of_lookup hhe)
  refine ⟨he.batch, hmem.1, .inr ?_⟩
  rw [HoldEntry5.released, hmem.2]

theorem move (h : v.From S) (hm : Move P v w) : w.From S := by
  cases hm with
  | reorder hl => exact { h with pending := fun p hp => h.pending p (hl.mem_iff.mp hp) }
  | drop hp => exact { h with pending := h.tail hp }
  | emit hp => exact { h with
      pending := h.tail hp
      ready := h.push fun _ => ⟨_, h.head hp, .inl rfl⟩ }
  | hold nowNs hp hnew => exact { h with
      pending := h.tail hp
      held := by
        apply (forall_update_iff v.held (fun _ l => ∀ e ∈ l, S e.2.batch ∧ e.2.holdMeta = e.2.batch.cachedMeta)).mpr
        refine ⟨fun e he => ?_, fun k' _ => h.held k'⟩
        cases mem_insertHeld he with
        | inl heq =>
          rw [heq]
          exact ⟨h.head hp, rfl⟩
        | inr hmem => exact h.held _ e hmem
      ready := h.push nofun }
  | defer hp => exact { h with
      pending := h.tail hp
      deferred := fun q hq => (mem_append.mp hq).elim (h.deferred q)
        fun hnew => mem_singleton.mp hnew ▸ h.head hp }
  | block hp => exact { h with pending := h.tail hp }
  | release hhe => exact { h with
      held := h.sublist fun _ he => mem_of_mem_filter he
      ready := h.push fun _ => h.lookup hhe }
  | discard hhe => exact { h with held := h.sublist fun _ he => mem_of_mem_filter he }
  | retire hhe => exact { h with held := h.sublist fun _ he => mem_of_mem_filter he }
  | purge retired hretired => exact { h with
      held := h.sublist nofun
      deferred := fun q hq => h.deferred q (mem_of_mem_filter hq) }

end Shelf.From

end Shelf

theorem frame_process (clock : PassClock) (t : Topic) (level5 : List PendingBatch5) :
    (processLevel5Batches P clock t level5).1.frame =
      { t.frame with
        shards := (processLevel5Batches P clock t level5).1.shards
        order5TotalHoldSize := (processLevel5Batches P clock t level5).1.order5TotalHoldSize } := by
  let clean (r : Topic) : Topic := { r with shards := fun _ => {}, order5TotalHoldSize := 0 }
  apply processLevel5Batches_induction (I := fun s => s.1.frame =
    { t.frame with shards := s.1.shards, order5TotalHoldSize := s.1.order5TotalHoldSize })
  · rfl
  · intro i s hs
    have hframe := Pass.frame_shard (P := P) clock s.1 (s.1.shards i) (level5.filter (·.clientId % P.numShards = i))
    have hrest : clean s.1.frame = clean t.frame := by rw [hs]
    have hclean := (congrArg clean hframe).trans hrest
    exact congrArg (fun r : Topic => { r with
      shards := (processShard P clock level5 s i).1.shards
      order5TotalHoldSize := (processShard P clock level5 s i).1.order5TotalHoldSize }) hclean

structure Topic.From (S : PendingBatch5 → Prop) (t : Topic) (ready : List PendingBatch5) :
    Prop where
  held : ∀ i k, ∀ e ∈ (t.shards i).holdBuffer k, S e.2.batch ∧ e.2.holdMeta = e.2.batch.cachedMeta
  deferred : ∀ i, ∀ p ∈ (t.shards i).deferredLevel5, S p
  ready : ∀ p ∈ ready, p.isHeldMarker = false → ∃ q, S q ∧ p.Carries q

namespace Topic.From

theorem mono {ready : List PendingBatch5} (h : t.From S ready) (hS : ∀ p, S p → S' p) :
    t.From S' ready where
  held i k e he := (h.held i k e he).imp_left (hS _)
  deferred i p hp := hS p (h.deferred i p hp)
  ready p hp hm := (h.ready p hp hm).imp fun q hq => hq.imp_left (hS q)

theorem of_shards {ready : List PendingBatch5} (h : t.From S ready) (hs : t'.shards = t.shards) :
    t'.From S ready where
  held := hs ▸ h.held
  deferred := hs ▸ h.deferred
  ready := h.ready

variable {level5 ready : List PendingBatch5}

theorem atRest (h : t.From S ready) : t.From S [] :=
  ⟨h.held, h.deferred, nofun⟩

theorem start (h : t.From S ready) (hl : ∀ p ∈ level5, S p) (i : Nat) :
    ((Pass.start t (t.shards i) (level5.filter (·.clientId % P.numShards = i) ++
      (t.shards i).deferredLevel5)).shelf (level5.filter (·.clientId % P.numShards = i) ++
      (t.shards i).deferredLevel5)).From S := by
  refine ⟨fun p hp => ?_, h.held i, nofun, nofun⟩
  cases mem_append.mp hp with
  | inl hin => exact hl p (mem_of_mem_filter hin)
  | inr hdef => exact h.deferred i p hdef

theorem processShard (h : t.From S ready) (clock : PassClock) (hl : ∀ p ∈ level5, S p) (i : Nat) :
    Topic.From S (Embarcadero.processShard P clock level5 (t, ready) i).1
        (Embarcadero.processShard P clock level5 (t, ready) i).2 ∧
      (Embarcadero.processShard P clock level5 (t, ready) i).1.goiLog = t.goiLog := by
  have hmoves := Pass.moves_shard (P := P) clock t (t.shards i) (level5.filter (·.clientId % P.numShards = i))
  have hend := hmoves.invariant (fun _ _ hm hv => hv.move hm) (h.start hl i)
  have hframe := Pass.frame_shard (P := P) clock t (t.shards i) (level5.filter (·.clientId % P.numShards = i))
  have hshards := congrArg Topic.shards hframe
  have hlog := congrArg Topic.goiLog hframe
  dsimp only [Topic.frame] at hshards hlog
  refine ⟨⟨fun j => ?_, fun j => ?_, fun p hp => ?_⟩, hlog⟩
  · dsimp only [Embarcadero.processShard]
    rw [hshards]
    exact (forall_update_iff t.shards (fun _ sh => ∀ k, ∀ e ∈ sh.holdBuffer k,
      S e.2.batch ∧ e.2.holdMeta = e.2.batch.cachedMeta)).mpr ⟨hend.held, fun j _ => h.held j⟩ j
  · dsimp only [Embarcadero.processShard]
    rw [hshards]
    exact (forall_update_iff t.shards (fun _ sh => ∀ p ∈ sh.deferredLevel5, S p)).mpr
      ⟨hend.deferred, fun j _ => h.deferred j⟩ j
  · cases mem_append.mp hp with
    | inl hold => exact h.ready p hold
    | inr hnew => exact hend.ready p hnew

theorem process (h : t.From S []) (clock : PassClock) (hl : ∀ p ∈ level5, S p) :
    Topic.From S (processLevel5Batches P clock t level5).1
        (processLevel5Batches P clock t level5).2 ∧
      (processLevel5Batches P clock t level5).1.goiLog = t.goiLog := by
  apply processLevel5Batches_induction (I := fun s => s.1.From S s.2 ∧ s.1.goiLog = t.goiLog)
  · exact ⟨h, rfl⟩
  · intro i s hs
    have hshard := hs.1.processShard (P := P) clock hl i
    exact ⟨hshard.1, hshard.2.trans hs.2⟩

end Topic.From

def ScannedIn (es : List Event) (q : PendingBatch5) : Prop :=
  ∃ p ∈ es.flatMap Event.batchList, p.Scanned ∧ ∃ epoch, q = p.markStale epoch

theorem ScannedIn.more {es : List Event} (h : ScannedIn es q) (e : Event) : ScannedIn (es ++ [e]) q := by
  refine h.imp fun p hp => hp.imp_left fun hmem => ?_
  rw [flatMap_append]
  exact mem_append_left _ hmem

theorem scannedIn_extracted {e : Event} {t : Topic} (hscan : ∀ p ∈ e.batchList, p.Scanned) (es : List Event) :
    ∀ q ∈ e.batchList.map (·.markStale t.cxl.controlEpoch), ScannedIn (es ++ [e]) q := by
  intro q hq
  obtain ⟨p, hp, rfl⟩ := mem_map.mp hq
  refine ⟨p, ?_, hscan p hp, _, rfl⟩
  rw [flatMap_append, flatMap_singleton]
  exact mem_append_right _ hp

namespace Topic.From

variable {es : List Event} {f : EpochInFlight}

theorem more {ready : List PendingBatch5} (h : t.From (ScannedIn es) ready) (e : Event) :
    t.From (ScannedIn (es ++ [e])) ready := h.mono fun _ hq => hq.more e

theorem beside (h : t.From S t.readyVector) (hs : t'.shards = t.shards)
    (hf : t'.inFlight = t.inFlight) : t'.From S t'.readyVector := by
  have hready : t'.readyVector = t.readyVector := by rw [Topic.readyVector, hf, Topic.readyVector]
  exact hready ▸ h.of_shards hs

theorem classify {e : Event} (h : t.From (ScannedIn es) t.readyVector) (he : e.classifies = true)
    (hstep : Embarcadero.step P t e = some t') :
    t'.From (ScannedIn (es ++ [e])) t'.readyVector ∧ t'.goiLog = t.goiLog := by
  obtain ⟨clock, t₁, f, hx, rfl⟩ := extracts_of_step he hstep
  have hin := scannedIn_extracted (t := t) hx.scanned es
  have hmore := h.more e
  have hrest : t₁.From (ScannedIn (es ++ [e])) [] := by
    refine ⟨?_, ?_, nofun⟩
    · rw [hx.start]
      exact hmore.held
    · rw [hx.start]
      exact hmore.deferred
  have hlevel : ∀ p ∈ t.level5 e.batchList, ScannedIn (es ++ [e]) p :=
    fun p hp => hin p (mem_of_mem_filter hp)
  have hproc := hrest.process (P := P) clock hlevel
  refine ⟨⟨hproc.1.held, hproc.1.deferred, fun p hp hm => ?_⟩, ?_⟩
  · change p ∈ f.ready at hp
    rw [hx.ready] at hp
    cases mem_append.mp hp with
    | inl hzero => exact ⟨p, hin p (mem_of_mem_filter hzero), .inl rfl⟩
    | inr hfive => exact hproc.1.ready p hfive hm
  · dsimp only
    rw [hproc.2, hx.start]

theorem commit (h : t.From (ScannedIn es) t.readyVector) : (t.commit P f).From (ScannedIn es) [] := by
  have hshards : (commitEpoch P t f).shards = t.shards := by rw [commitEpoch_shape]
  exact h.atRest.of_shards hshards

theorem step {e : Event} (h : t.From (ScannedIn es) t.readyVector) (hstep : Embarcadero.step P t e = some t') :
    t'.From (ScannedIn (es ++ [e])) t'.readyVector := by
  cases e with
  | epoch _ _ | idleTick _ | finalDrain _ => exact (h.classify rfl hstep).1
  | commit =>
    obtain ⟨f, -, rfl⟩ := Option.map_eq_some_iff.mp hstep
    exact h.commit.more _
  | crash n =>
    cases hstep
    exact ⟨nofun, nofun, nofun⟩
  | takeFenceNote _ | ackEpochCheck _ _ | ackRelay _ =>
    obtain ⟨_, _, _, _, rfl⟩ := relays_of_step rfl hstep
    exact (h.more _).beside rfl rfl
  | _ =>
    cases hstep
    exact (h.more _).beside rfl rfl

end Topic.From

def GOIEntry.Records (e : GOIEntry) (p : PendingBatch5) : Prop :=
  e.clientId = p.clientId ∧ e.sessionEpoch = p.sessionEpoch ∧ e.clientSeq = p.batchSeq ∧
    e.brokerId = p.brokerId ∧ e.blogOffset = p.cachedLogIdx ∧ e.payloadSize = p.cachedTotalSize % 2 ^ 32 ∧
    e.messageCount = p.numMsg ∧ e.batchId = p.cachedBatchId ∧ e.pbrIndex = p.cachedPbrAbsoluteIndex

instance (e : GOIEntry) (p : PendingBatch5) : Decidable (e.Records p) :=
  inferInstanceAs (Decidable (_ ∧ _))

def Intact (t : Topic) : Event → Prop
  | .commit | .crash _ => t.Unclobbered
  | _ => True

instance (t : Topic) : (e : Event) → Decidable (Intact t e)
  | .commit | .crash _ => inferInstanceAs (Decidable t.Unclobbered)
  | .epoch .. | .slotWrite .. | .admitSession _ | .idleTick _ | .finalDrain _ | .tail
  | .updateCommittedSeq _ | .bumpControlEpoch | .takeFenceNote _ | .ackEpochCheck ..
  | .ackRelay _ => isTrue trivial

structure Topic.Sourced (es : List Event) (t : Topic) : Prop where
  kept : t.From (ScannedIn es) t.readyVector
  log : ∀ e ∈ t.goiLog, ∃ p ∈ es.flatMap Event.batchList, e.Records p

namespace Commit

variable {f : EpochInFlight}

theorem mem_goiEntries {c : CxlMemory} {e : GOIEntry} (kept : List PendingBatch5) :
    ∀ {index order : Nat} {cumulative : Nat → Nat},
      e ∈ goiEntries c index order cumulative kept → ∃ p ∈ batches kept, ∃ i o n, e = goiEntry c p i o n := by
  induction kept with
  | nil => exact nofun
  | cons p rest ih =>
    intro index order cumulative he
    by_cases hm : p.isMarker
    · rw [goiEntries_cons_marker hm] at he
      rw [batches_cons_marker hm]
      exact ih he
    · obtain ⟨count, cumulative', hentries⟩ := goiEntries_cons_batch (c := c) hm index order cumulative rest
      rw [hentries] at he
      rw [batches_cons_batch hm]
      cases mem_cons.mp he with
      | inl heq => exact ⟨p, mem_cons_self, index, order, count, heq⟩
      | inr hrest => exact (ih hrest).imp fun q hq => hq.imp_left (mem_cons_of_mem _)

end Commit

theorem commitMeta_of_carries {es : List Event} (hq : ScannedIn es q) (hp : p.Carries q) (hskip : p.skipped = false) :
    ∃ r ∈ es.flatMap Event.batchList, r.skipped = false ∧ p.commitMeta = r.cachedMeta := by
  obtain ⟨r, hr, hscan, epoch, rfl⟩ := hq
  have hstale := (r.markStale_eq epoch).1
  have hlive : (r.markStale epoch).skipped = false := by
    cases hp with
    | inl heq => exact heq ▸ hskip
    | inr heq =>
      rw [heq] at hskip
      exact hskip
  refine ⟨r, hr, ?_, ?_⟩
  · rw [PendingBatch5.markStale] at hlive
    split at hlive
    · cases hlive
    · exact hlive
  · have hhold : (r.markStale epoch).fromHold = false := by
      rw [hstale]
      exact hscan.1
    rw [hp.commitMeta hhold, hstale]
    rfl

theorem Topic.From.batches {es : List Event} {f : EpochInFlight}
    (h : t.From (ScannedIn es) t.readyVector) (hf : t.inFlight = some f) :
    ∀ p ∈ Commit.batches (Commit.accepted t f), ∃ r ∈ es.flatMap Event.batchList,
      r.skipped = false ∧ p.commitMeta = r.cachedMeta := by
  intro p hp
  have hmem := mem_filter.mp hp
  have hready : p ∈ t.readyVector := by
    rw [Topic.readyVector, hf]
    exact Commit.accepted_subset t f p hmem.1
  have hmark := hmem.2
  rw [PendingBatch5.isMarker, Bool.not_or, Bool.and_eq_true, Bool.not_eq_true', Bool.not_eq_true'] at hmark
  obtain ⟨q, hq, hcarries⟩ := h.ready p hready hmark.2
  exact commitMeta_of_carries hq hcarries hmark.1

namespace Topic.Sourced

variable {es : List Event} {f : EpochInFlight}

theorem entries (h : t.Sourced es) (hf : t.inFlight = some f) (hu : t.Unclobbered) :
    ∀ e ∈ Commit.entries t f, ∃ p ∈ es.flatMap Event.batchList, e.Records p := by
  intro e he
  obtain ⟨p, hp, i, o, n, rfl⟩ := Commit.mem_goiEntries _ he
  obtain ⟨r, hr, -, hmeta⟩ := h.kept.batches hf p hp
  refine ⟨r, hr, ?_⟩
  rw [Commit.goiEntry, Commit.recordedSeq_eq hf hu p hp, hmeta]
  exact ⟨rfl, rfl, rfl, rfl, rfl, rfl, rfl, rfl, rfl⟩

theorem more (h : t.Sourced es) (e : Event) :
    ∀ entry ∈ t.goiLog, ∃ p ∈ (es ++ [e]).flatMap Event.batchList, entry.Records p := by
  intro entry hentry
  refine (h.log entry hentry).imp fun p hp => hp.imp_left fun hmem => ?_
  rw [flatMap_append]
  exact mem_append_left _ hmem

theorem commit (h : t.Sourced es) (hf : t.inFlight = some f) (hu : t.Unclobbered) : (t.commit P f).Sourced es := by
  refine ⟨h.kept.commit, fun e he => ?_⟩
  change e ∈ (commitEpoch P t f).goiLog at he
  rw [commitEpoch_goiLog] at he
  cases mem_append.mp he with
  | inl hold => exact h.log e hold
  | inr hnew => exact h.entries hf hu e hnew

theorem crash (h : t.Sourced es) (hu : t.Unclobbered) (n : Nat) : (t.crash P n).Sourced es := by
  refine ⟨⟨nofun, nofun, nofun⟩, fun e he => ?_⟩
  cases mem_append.mp he with
  | inl hold => exact h.log e hold
  | inr hnew =>
    have hpend := ((take_sublist n (t.pendingWrites P)).filterMap _).subset hnew
    rw [Topic.pendingWrites] at hpend
    split at hpend
    next f hf =>
      split at hpend
      · cases hpend
      next hx =>
        rw [Commit.filterMap_goiEntry?_writes P t f (by simpa using hx)] at hpend
        exact h.entries hf hu e hpend
    · rw [Topic.tailWrites, filterMap_goiEntry?_eq_nil] at hpend
      · cases hpend
      · intro w hw
        obtain ⟨s, -, rfl⟩ := mem_map.mp hw
        exact Region.noConfusion

theorem step {e : Event} (h : t.Sourced es) (hc : Intact t e)
    (hstep : Embarcadero.step P t e = some t') : t'.Sourced (es ++ [e]) := by
  refine ⟨h.kept.step hstep, ?_⟩
  cases e with
  | epoch _ _ | idleTick _ | finalDrain _ =>
    rw [(h.kept.classify rfl hstep).2]
    exact h.more _
  | commit =>
    obtain ⟨f, hf, rfl⟩ := Option.map_eq_some_iff.mp hstep
    exact (h.commit hf hc).more _
  | crash n =>
    cases hstep
    exact (h.crash hc n).more _
  | takeFenceNote _ | ackEpochCheck _ _ | ackRelay _ =>
    obtain ⟨_, _, _, _, rfl⟩ := relays_of_step rfl hstep
    exact h.more _
  | _ =>
    cases hstep
    exact h.more _

end Topic.Sourced

theorem Topic.sourced_fresh (P : Platform) : (Topic.fresh P).Sourced [] :=
  ⟨⟨nofun, nofun, nofun⟩, nofun⟩

/-- In a run whose commits find the slots intact, every GOI entry records a batch as the scanner
read it. -/
theorem goi_entries_record_scans {es : List Event} (hrun : Runs.Along (step P) Intact (.fresh P) es t) :
    ∀ e ∈ t.goiLog, ∃ p ∈ es.flatMap Event.batchList, e.Records p :=
  (hrun.history (fun _ _ _ _ hc hs h => h.step hc hs) (Topic.sourced_fresh P)).log

theorem goi_entries_record_scans_restartRun :
    ∃ t, Runs.Along (step .small) Intact (.fresh .small) restartRun t ∧
      t.goiLog.map (fun e => (e.clientSeq, e.batchId)) = [(0, 10), (1, 1), (2, 32)] ∧
      ∀ e ∈ t.goiLog, ∃ p ∈ restartRun.flatMap Event.batchList, e.Records p := by
  refine Runs.exists_of_exec (fun t : Topic => t.goiLog.map fun e => (e.clientSeq, e.batchId))
    [(0, 10), (1, 1), (2, 32)] (by decide +kernel) fun t hrun hlog => ?_
  exact ⟨hlog, goi_entries_record_scans hrun⟩

/-- Batch 4 is published at position 4 and scanned; before it commits, an export descriptor is
written into its slot, and its entry records the number of that descriptor. -/
theorem goi_entry_misrecords :
    ∃ t, Runs.Along (step .small) (Fed scenarioIdent) (.fresh .small) clobberRun t ∧
      t.goiLog.map (fun e => (e.clientSeq, e.batchId)) = [(0, 0), (1, 11), (2, 22), (3, 133), (0, 144)] ∧
      ¬∀ e ∈ t.goiLog, ∃ p ∈ clobberRun.flatMap Event.batchList, e.Records p := by
  refine Runs.exists_of_exec (fun t : Topic =>
    (t.goiLog.map (fun e => (e.clientSeq, e.batchId)),
      decide (∀ e ∈ t.goiLog, ∃ p ∈ clobberRun.flatMap Event.batchList, e.Records p)))
    ([(0, 0), (1, 11), (2, 22), (3, 133), (0, 144)], false) (by decide +kernel) fun t hrun ha => ?_
  obtain ⟨hlog, hfalse⟩ := Prod.mk.inj ha
  exact ⟨hlog, of_decide_eq_false hfalse⟩

end Embarcadero
