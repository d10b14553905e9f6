import Embarcadero.Recovery
import Embarcadero.Lib.Log

namespace Embarcadero

open List
open Function (update)

inductive Region
  | sessions
  | goi
  | ring
  | ordered
  | frontier
  deriving DecidableEq

def CxlWrite.region : CxlWrite → Region
  | .claimSession _ | .session _ _ => .sessions
  | .goi _ _ => .goi
  | .stampTotalOrder _ _ | .exportDescriptor _ _ | .clearPublishState _ => .ring
  | .ordered _ _ => .ordered
  | .consumedThrough _ _ => .frontier

namespace CxlMemory

@[simp] theorem writes_nil (c : CxlMemory) : c.writes [] = c := rfl

@[simp] theorem writes_cons (c : CxlMemory) (w : CxlWrite) (ws : List CxlWrite) :
    c.writes (w :: ws) = (c.write w).writes ws := rfl

theorem writes_append (c : CxlMemory) (ws ws' : List CxlWrite) :
    c.writes (ws ++ ws') = (c.writes ws).writes ws' := foldl_append ..

variable {ws : List CxlWrite}

theorem writes_frame {β : Type*} {Q : CxlWrite → Prop} (f : CxlMemory → β) (hf : ∀ c w, Q w → f (c.write w) = f c)
    (h : ∀ w ∈ ws, Q w) (c : CxlMemory) : f (c.writes ws) = f c := by
  induction ws generalizing c with
  | nil => rfl
  | cons w ws ih =>
    rw [writes_cons, ih fun v hv => h v (.tail _ hv), hf c w (h w (.head _))]

theorem goi_writes (h : ∀ w ∈ ws, w.region ≠ .goi) (c : CxlMemory) : (c.writes ws).goi = c.goi := by
  refine writes_frame (·.goi) (fun c w hw => ?_) h c
  cases w <;> first | rfl | exact absurd rfl hw

theorem sessions_writes (h : ∀ w ∈ ws, w.region ≠ .sessions) (c : CxlMemory) : (c.writes ws).sessions = c.sessions := by
  refine writes_frame (·.sessions) (fun c w hw => ?_) h c
  cases w <;> first | rfl | exact absurd rfl hw

theorem consumedThrough_writes (h : ∀ w ∈ ws, w.region ≠ .frontier) (c : CxlMemory) :
    (c.writes ws).consumedThrough = c.consumedThrough := by
  refine writes_frame (·.consumedThrough) (fun c w hw => ?_) h c
  cases w <;> first | rfl | exact absurd rfl hw

@[simp] theorem committedSeq_writes (c : CxlMemory) (ws : List CxlWrite) :
    (c.writes ws).committedSeq = c.committedSeq := by
  refine writes_frame (Q := fun _ => True) (·.committedSeq) (fun c w _ => ?_) (fun _ _ => trivial) c
  cases w <;> rfl

end CxlMemory

theorem CxlWrite.goiEntry?_eq_none {w : CxlWrite} (h : w.region ≠ .goi) : w.goiEntry? = none := by
  cases w <;> first | rfl | exact absurd rfl h

theorem filterMap_goiEntry?_eq_nil {ws : List CxlWrite} (h : ∀ w ∈ ws, w.region ≠ .goi) :
    ws.filterMap CxlWrite.goiEntry? = [] :=
  filterMap_eq_nil_iff.mpr fun w hw => CxlWrite.goiEntry?_eq_none (h w hw)

namespace Commit

variable {c : CxlMemory} {g : Guarded} {kept rest : List PendingBatch5} {p : PendingBatch5}

theorem region_guardOne (hg : ∀ w ∈ g.writes, w.region ∈ [Region.sessions, .ring]) (p : PendingBatch5) :
    ∀ w ∈ (guardOne g p).writes, w.region ∈ [Region.sessions, .ring] := by
  intro w hw
  unfold guardOne at hw
  dsimp only at hw
  split at hw
  · exact hg w hw
  split at hw
  · exact hg w hw
  · split at hw
    · simp only [append_assoc, mem_append, mem_singleton] at hw
      rcases hw with hw | rfl | hw
      · exact hg w hw
      · simp [CxlWrite.region]
      · cases hp : p.hdr with
        | none => simp [hp] at hw
        | some a =>
          simp only [hp, Option.map_some, Option.toList_some, mem_singleton] at hw
          simp [hw, CxlWrite.region]
    · simp only [mem_append, mem_singleton] at hw
      rcases hw with hw | rfl
      · exact hg w hw
      · simp [CxlWrite.region]

theorem region_guardAll (t : Topic) (ready : List PendingBatch5) :
    ∀ w ∈ (guardAll t ready).writes, w.region ∈ [Region.sessions, .ring] :=
  List.foldlRecOn (motive := fun g => ∀ w ∈ g.writes, w.region ∈ [Region.sessions, .ring])
    ready guardOne (by simp) fun _ hg p _ => region_guardOne hg p

theorem region_stamp (p : PendingBatch5) (order : Nat) : ∀ w ∈ stamp p order, w.region = .ring := by
  unfold stamp
  cases p.hdr <;> split <;> simp [CxlWrite.region]

theorem region_goiWrites (c : CxlMemory) (ready : List PendingBatch5) :
    ∀ (index order : Nat) (cumulative : Nat → Nat),
      ∀ w ∈ goiWrites c index order cumulative ready, w.region ∈ [Region.goi, .ring] := by
  induction ready with
  | nil => simp [goiWrites]
  | cons p rest ih =>
    intro index order cumulative w hw
    unfold goiWrites at hw
    split at hw
    · exact ih _ _ _ w hw
    · simp only [mem_append, mem_cons] at hw
      rcases hw with hw | rfl | hw
      · simp [region_stamp p order w hw]
      · simp [CxlWrite.region]
      · exact ih _ _ _ w hw

theorem region_exportWrites (P : Platform) (ready : List PendingBatch5) :
    ∀ (order : Nat) (s : ExportState), ∀ w ∈ (exportWrites P order s ready).1, w.region = .ring := by
  induction ready with
  | nil => simp [exportWrites]
  | cons p rest ih =>
    intro order s w hw
    have hclear : ∀ w ∈ (p.hdr.map CxlWrite.clearPublishState).toList, w.region = .ring := by
      cases p.hdr <;> simp [CxlWrite.region]
    unfold exportWrites at hw
    split at hw
    · exact ih _ _ w hw
    dsimp only at hw
    split at hw
    · simp only [cons_append, mem_cons, mem_append] at hw
      rcases hw with rfl | hw | hw
      · rfl
      · exact hclear w hw
      · exact ih _ _ w hw
    · rcases mem_append.mp hw with hw | hw
      · exact hclear w hw
      · exact ih _ _ w hw

theorem region_orderedWrites (ms : List HoldBatchMetadata) : ∀ w ∈ orderedWrites ms, w.region = .ordered := by
  intro w hw
  obtain ⟨b, -, rfl⟩ := mem_map.mp hw
  rfl

theorem region_sessionWrites (P : Platform) (ms : List HoldBatchMetadata) :
    ∀ w ∈ sessionWrites P ms, w.region = .sessions := by
  intro w hw
  obtain ⟨k, -, hw⟩ := mem_flatMap.mp hw
  obtain ⟨s, -, rfl⟩ := mem_map.mp hw
  rfl

theorem region_advanceConsumedThrough (P : Platform) (shards : Nat → Level5ShardState) (f : EpochInFlight)
    (contiguous : Nat → Nat) : ∀ w ∈ (advanceConsumedThrough P shards f contiguous).2, w.region = .frontier := by
  intro w hw
  unfold advanceConsumedThrough at hw
  split at hw
  · cases hw
  · obtain ⟨b, -, rfl⟩ := mem_map.mp hw
    rfl

@[simp] theorem batches_nil : batches [] = [] := rfl

theorem batches_cons_marker (h : p.isMarker) : batches (p :: rest) = batches rest := by simp [batches, h]

theorem batches_cons_batch (h : ¬p.isMarker) : batches (p :: rest) = p :: batches rest := by simp [batches, h]

def goiEntries (c : CxlMemory) (index order : Nat) (cumulative : Nat → Nat)
    (kept : List PendingBatch5) : List GOIEntry :=
  (goiWrites c index order cumulative kept).filterMap CxlWrite.goiEntry?

theorem goiEntries_cons_marker {c : CxlMemory} {p : PendingBatch5} (h : p.isMarker)
    (index order : Nat) (cumulative : Nat → Nat) (rest : List PendingBatch5) :
    goiEntries c index order cumulative (p :: rest) = goiEntries c index order cumulative rest := by
  simp [goiEntries, goiWrites, h]

theorem stamp_ne_goi (p : PendingBatch5) (order : Nat) : ∀ w ∈ stamp p order, w.region ≠ .goi := by
  intro w hw
  simp [region_stamp p order w hw]

theorem goiWrites_cons_batch {c : CxlMemory} {p : PendingBatch5} (h : ¬p.isMarker)
    (index order : Nat) (cumulative : Nat → Nat) (rest : List PendingBatch5) :
    ∃ count cumulative', goiWrites c index order cumulative (p :: rest) =
      stamp p order ++ .goi index (goiEntry c p index order count) ::
        goiWrites c (index + 1) (order + p.commitMeta.numMsg) cumulative' rest := by
  rw [goiWrites, if_neg h]
  exact ⟨_, _, rfl⟩

theorem goiEntries_cons_batch {c : CxlMemory} {p : PendingBatch5} (h : ¬p.isMarker)
    (index order : Nat) (cumulative : Nat → Nat) (rest : List PendingBatch5) :
    ∃ count cumulative', goiEntries c index order cumulative (p :: rest) =
      goiEntry c p index order count :: goiEntries c (index + 1) (order + p.commitMeta.numMsg) cumulative' rest := by
  obtain ⟨count, cumulative', hw⟩ := goiWrites_cons_batch h index order cumulative rest
  refine ⟨count, cumulative', ?_⟩
  rw [goiEntries, hw, filterMap_append, filterMap_goiEntry?_eq_nil (stamp_ne_goi p order)]
  rfl

def recorded (c : CxlMemory) (p : PendingBatch5) : SessionKey × Nat × Nat :=
  (p.commitMeta.key, recordedSeq c p, p.commitMeta.numMsg)

theorem map_goiEntries (c : CxlMemory) (kept : List PendingBatch5) :
    ∀ (index order : Nat) (cumulative : Nat → Nat),
      (goiEntries c index order cumulative kept).map (fun e => (e.key, e.clientSeq, e.messageCount)) =
        (batches kept).map (recorded c) := by
  induction kept with
  | nil => intros; rfl
  | cons p rest ih =>
    intro index order cumulative
    by_cases h : p.isMarker
    · rw [goiEntries_cons_marker h, batches_cons_marker h, ih]
    · obtain ⟨count, cumulative', he⟩ := goiEntries_cons_batch h index order cumulative rest
      rw [he, batches_cons_batch h, map_cons, map_cons, ih]
      rfl

theorem length_goiEntries (c : CxlMemory) (index order : Nat) (cumulative : Nat → Nat) (kept : List PendingBatch5) :
    (goiEntries c index order cumulative kept).length = (batches kept).length := by
  simpa using congrArg List.length (map_goiEntries c kept index order cumulative)

theorem globalSeq_goiEntries (c : CxlMemory) (kept : List PendingBatch5) :
    ∀ (index order : Nat) (cumulative : Nat → Nat),
      (goiEntries c index order cumulative kept).map (·.globalSeq) = List.range' index (batches kept).length := by
  induction kept with
  | nil => intros; rfl
  | cons p rest ih =>
    intro index order cumulative
    by_cases h : p.isMarker
    · rw [goiEntries_cons_marker h, batches_cons_marker h, ih]
    · obtain ⟨count, cumulative', he⟩ := goiEntries_cons_batch h index order cumulative rest
      rw [he, batches_cons_batch h, map_cons, ih, length_cons, List.range'_succ]
      rfl

def messages (kept : List PendingBatch5) : Nat := ((batches kept).map (·.commitMeta.numMsg)).sum

def range (e : GOIEntry) : Nat × Nat := (e.totalOrder, e.messageCount)

theorem tiles_goiEntries (c : CxlMemory) (kept : List PendingBatch5) :
    ∀ (index order : Nat) (cumulative : Nat → Nat),
      Log.Tiles order ((goiEntries c index order cumulative kept).map range) (order + messages kept) := by
  induction kept with
  | nil => intros; rfl
  | cons p rest ih =>
    intro index order cumulative
    by_cases h : p.isMarker
    · rw [goiEntries_cons_marker h, messages, batches_cons_marker h]
      exact ih index order cumulative
    · obtain ⟨count, cumulative', he⟩ := goiEntries_cons_batch h index order cumulative rest
      rw [he, messages, batches_cons_batch h]
      refine ⟨rfl, ?_⟩
      have := ih (index + 1) (order + p.commitMeta.numMsg) cumulative'
      rwa [messages, Nat.add_assoc, ← sum_cons] at this

theorem goi_goiWrites (c : CxlMemory) (kept : List PendingBatch5) :
    ∀ (c' : CxlMemory) (index order : Nat) (cumulative : Nat → Nat),
      (c'.writes (goiWrites c index order cumulative kept)).goi =
        Log.fill c'.goi index (goiEntries c index order cumulative kept) := by
  induction kept with
  | nil => intros; rfl
  | cons p rest ih =>
    intro c' index order cumulative
    by_cases h : p.isMarker
    · rw [goiEntries_cons_marker h, ← ih]
      simp [goiWrites, h]
    · obtain ⟨count, cumulative', hw⟩ := goiWrites_cons_batch (c := c) h index order cumulative rest
      rw [goiEntries, hw, filterMap_append, filterMap_goiEntry?_eq_nil (stamp_ne_goi p order),
        CxlMemory.writes_append, CxlMemory.writes_cons, ih]
      rw [CxlMemory.write, CxlMemory.goi_writes (stamp_ne_goi p order)]
      rfl

theorem countReady_eq {b m b' m' : Nat} (h : countReady kept (some (b, m)) = some (b', m')) :
    b' = b + (batches kept).length ∧ m' = m + ((batches kept).map (·.numMsg)).sum := by
  induction kept generalizing b m with
  | nil =>
    cases h
    exact ⟨rfl, rfl⟩
  | cons p rest ih =>
    rw [countReady] at h
    split at h
    · rw [batches_cons_marker ‹_›]
      exact ih h
    · rw [batches_cons_batch ‹_›]
      split at h
      · cases h
      · obtain ⟨hb, hm⟩ := ih h
        rw [length_cons, map_cons, sum_cons]
        omega

theorem tryReserveCommitRanges_eq_some {goi messages capacity batches count : Nat} {r : Nat × Nat}
    (h : tryReserveCommitRanges goi messages capacity batches count = some r) : r = (goi, messages) := by
  unfold tryReserveCommitRanges at h
  split at h
  · cases h
  · cases h
    rfl

theorem outcome_committed {t : Topic} {firstGoi n firstMessage msgs : Nat}
    (h : outcome t g = .committed kept firstGoi n firstMessage msgs) :
    kept = g.kept ∧ g.admissionFailed = false ∧ firstGoi = t.globalBatchSeq ∧
      firstMessage = t.globalSeq ∧ n = (batches kept).length ∧
      msgs = ((batches kept).map (·.numMsg)).sum := by
  unfold outcome at h
  split at h
  · cases h
  split at h
  · cases h
  split at h
  · cases h
  split at h
  · cases h
  next hfail _ _ n' msgs' hcount _ goi message hreserve =>
    cases h
    cases tryReserveCommitRanges_eq_some hreserve
    obtain ⟨hb, hm⟩ := countReady_eq hcount
    rw [Nat.zero_add] at hb hm
    exact ⟨rfl, by simpa using hfail, rfl, rfl, hb, hm⟩

def accepted (t : Topic) (f : EpochInFlight) : List PendingBatch5 :=
  if t.capacityExhausted then []
  else match outcome t (guardAll t f.ready) with
    | .committed kept .. => kept
    | _ => []

def entries (t : Topic) (f : EpochInFlight) : List GOIEntry :=
  goiEntries t.cxl t.globalBatchSeq t.globalSeq t.cxl.ordered (accepted t f)

theorem length_entries (t : Topic) (f : EpochInFlight) :
    (entries t f).length = (batches (accepted t f)).length := length_goiEntries ..

theorem writes_split (P : Platform) (t : Topic) (f : EpochInFlight) (hx : t.capacityExhausted = false) :
    ∃ before after, writes P t f = before ++
        goiWrites t.cxl t.globalBatchSeq t.globalSeq t.cxl.ordered (accepted t f) ++ after ∧
      (∀ w ∈ before, w.region ≠ .goi) ∧ ∀ w ∈ after, w.region ≠ .goi := by
  have hguard : ∀ w ∈ (guardAll t f.ready).writes, w.region ≠ .goi := by
    intro w hw hr
    have := region_guardAll t f.ready w hw
    simp [hr] at this
  cases ho : outcome t (guardAll t f.ready) with
  | stopped => exact ⟨(guardAll t f.ready).writes, [],
      by simp [writes, accepted, ho, hx, goiWrites], hguard, by simp⟩
  | nothingReady =>
    refine ⟨(guardAll t f.ready).writes, (advanceConsumedThrough P t.shards f f.contiguousConsumed).2,
      by simp [writes, accepted, ho, hx, goiWrites], hguard, ?_⟩
    intro w hw
    rw [region_advanceConsumedThrough P _ _ _ w hw]
    exact Region.noConfusion
  | committed kept firstGoi n firstMessage msgs =>
    obtain ⟨-, -, rfl, rfl, -, -⟩ := outcome_committed ho
    refine ⟨(guardAll t f.ready).writes, (exportWrites P t.globalSeq ⟨t.exportCursor, t.exportSequence⟩ kept).1 ++
        (orderedWrites (committed kept) ++ (sessionWrites P (committed kept) ++
          (advanceConsumedThrough P t.shards f (metadataContiguous P f (committed kept))).2)),
      ?_, hguard, ?_⟩
    · simp [writes, accepted, ho, hx]
    · intro w hw
      simp only [mem_append] at hw
      rcases hw with hw | hw | hw | hw
      · simp [region_exportWrites P _ _ _ w hw]
      · simp [region_orderedWrites _ w hw]
      · simp [region_sessionWrites P _ w hw]
      · simp [region_advanceConsumedThrough P _ _ _ w hw]

theorem filterMap_goiEntry?_writes (P : Platform) (t : Topic) (f : EpochInFlight) (hx : t.capacityExhausted = false) :
    (writes P t f).filterMap CxlWrite.goiEntry? = entries t f := by
  obtain ⟨before, after, hw, hb, ha⟩ := writes_split P t f hx
  rw [hw, filterMap_append, filterMap_append, filterMap_goiEntry?_eq_nil hb, filterMap_goiEntry?_eq_nil ha]
  simp [entries, goiEntries]

theorem entries_of_exhausted {t : Topic} {f : EpochInFlight} (hx : t.capacityExhausted = true) :
    entries t f = [] := by simp [entries, accepted, hx, goiEntries, goiWrites]

end Commit

section

variable (P : Platform) (t : Topic) (f : EpochInFlight)

open Commit

theorem commitEpoch_of_exhausted (hx : t.capacityExhausted = true) : commitEpoch P t f = t := by
  simp [commitEpoch, hx]

theorem commitEpoch_of_running (hx : t.capacityExhausted = false) :
    commitEpoch P t f =
      { localEffects P t f (outcome t (guardAll t f.ready)) with
        cxl := t.cxl.writes (writes P t f), goiLog := t.goiLog ++ entries t f } := by
  simp [commitEpoch, hx, filterMap_goiEntry?_writes P t f hx]

theorem commitEpoch_goi : (commitEpoch P t f).cxl.goi = Log.fill t.cxl.goi t.globalBatchSeq (entries t f) := by
  cases hx : t.capacityExhausted with
  | true =>
    rw [commitEpoch_of_exhausted P t f hx, entries_of_exhausted hx]
    rfl
  | false =>
    obtain ⟨before, after, hw, hb, ha⟩ := writes_split P t f hx
    rw [commitEpoch_of_running P t f hx, hw, CxlMemory.writes_append, CxlMemory.writes_append,
      CxlMemory.goi_writes ha, goi_goiWrites, CxlMemory.goi_writes hb]
    rfl

theorem commitEpoch_goiLog : (commitEpoch P t f).goiLog = t.goiLog ++ entries t f := by
  cases hx : t.capacityExhausted with
  | true => rw [commitEpoch_of_exhausted P t f hx, entries_of_exhausted hx, append_nil]
  | false => rw [commitEpoch_of_running P t f hx]

theorem commitEpoch_frontiers :
    (commitEpoch P t f).globalBatchSeq = t.globalBatchSeq + (entries t f).length ∧
      (commitEpoch P t f).globalSeq = t.globalSeq + ((batches (accepted t f)).map (·.numMsg)).sum := by
  rw [length_entries]
  cases hx : t.capacityExhausted with
  | true =>
    rw [commitEpoch_of_exhausted P t f hx]
    simp [accepted, hx]
  | false =>
    rw [commitEpoch_of_running P t f hx]
    cases ho : outcome t (guardAll t f.ready) with
    | stopped => simp [accepted, hx, ho, localEffects, Topic.stopForCapacityExhaustion]
    | nothingReady => simp [accepted, hx, ho, localEffects]
    | committed kept firstGoi n firstMessage msgs =>
      obtain ⟨-, -, rfl, rfl, rfl, rfl⟩ := outcome_committed ho
      simp [accepted, hx, ho, localEffects]

end

end Embarcadero
