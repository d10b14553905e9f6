import Embarcadero.Publication

namespace Embarcadero

open List
open Function (update)

def committedSeqs (goi : Nat → GOIEntry) (n : Nat) (k : SessionKey) : List Nat :=
  ((Log.upTo goi n).filter (·.key = k)).map (·.clientSeq)

def Topic.goiSeqs (t : Topic) (k : SessionKey) : List Nat :=
  committedSeqs t.cxl.goi t.globalBatchSeq k

def Topic.readyVector (t : Topic) : List PendingBatch5 := (t.inFlight.map (·.ready)).getD []

def Topic.Unclobbered (t : Topic) : Prop :=
  ∀ p ∈ t.readyVector, p.isMarker = false → p.fromHold = false →
    ∀ a ∈ p.hdr, (t.cxl.ring a.brokerId a.slot).batchSeq = p.batchSeq

instance (t : Topic) : Decidable t.Unclobbered :=
  inferInstanceAs (Decidable (∀ p ∈ t.readyVector, _ → _ → ∀ a ∈ p.hdr, _ = _))

structure Topic.Ok (P : Platform) (ident : Nat → SessionKey × Nat) (t : Topic) : Prop where
  classifier : ClassifierOk P ident t t.readyVector
  index : (Log.upTo t.cxl.goi t.globalBatchSeq).map (·.globalSeq) = List.range t.globalBatchSeq
  seqs : ∀ k : SessionKey, k.Admitted → t.goiSeqs k = List.range (t.cxl.sessions.expected k)
  committed : t.cxl.committedLimit ≤ t.globalBatchSeq
  next : t.nextExpectedStart ≤ t.globalBatchSeq
  ranges : ∀ r ∈ t.completedRanges ++ t.pendingRanges, r.stop ≤ t.globalBatchSeq

variable {P : Platform} {ident : Nat → SessionKey × Nat} {t : Topic} {f : EpochInFlight}
  {k : SessionKey}

namespace Commit

theorem accepted_eq_or_stops (P : Platform) (t : Topic) (f : EpochInFlight) (hx : t.capacityExhausted = false) :
    accepted t f = [] ∧ (commitEpoch P t f).capacityExhausted = true ∨
      accepted t f = f.ready.filter (keeps t.cxl.sessions) ∧ (commitEpoch P t f).capacityExhausted = false := by
  have hg := guardOk_guardAll t f.ready
  rw [commitEpoch_of_running P t f hx]
  cases ho : outcome t (guardAll t f.ready) with
  | stopped => exact .inl ⟨by simp [accepted, hx, ho], rfl⟩
  | nothingReady =>
    refine .inr ⟨?_, by simpa [localEffects] using hx⟩
    unfold outcome at ho
    split at ho
    · cases ho
    rename_i hfail
    split at ho
    next hkept =>
      have := (hg.kept (by simpa using hfail)).1
      rw [hkept, nil_append] at this
      rw [← this, accepted, hx]
      simp [outcome, hfail, hkept]
    · split at ho
      · cases ho
      · split at ho <;> cases ho
  | committed kept firstGoi n firstMessage msgs =>
    obtain ⟨hkept, hfail, -⟩ := outcome_committed ho
    refine .inr ⟨?_, by simpa [localEffects] using hx⟩
    rw [accepted, hx, ho]
    simpa [hkept] using (hg.kept hfail).1

theorem isSome_hdr_of_countReady {kept : List PendingBatch5} {b m : Nat} {r : Nat × Nat}
    (h : countReady kept (some (b, m)) = some r) : ∀ p ∈ batches kept, p.fromHold = false → p.hdr.isSome := by
  induction kept generalizing b m with
  | nil => simp
  | cons q rest ih =>
    rw [countReady] at h
    split at h
    · rw [batches_cons_marker ‹_›]
      exact ih h
    · rw [batches_cons_batch ‹_›]
      split at h
      · cases h
      next hhdr =>
        intro p hp hhold
        rcases mem_cons.mp hp with rfl | hp
        · simp only [Bool.or_eq_true, not_or] at hhdr
          have := hhdr.1
          rw [hhold] at this
          cases hh : p.hdr <;> simp_all
        · exact ih h p hp hhold

theorem isSome_hdr_of_accepted (t : Topic) (f : EpochInFlight) :
    ∀ p ∈ batches (accepted t f), p.fromHold = false → p.hdr.isSome := by
  unfold accepted
  split
  · simp
  split
  next ho =>
    unfold outcome at ho
    split at ho
    · cases ho
    split at ho
    · cases ho
    split at ho
    · cases ho
    rename_i hcount
    split at ho
    · cases ho
    · cases ho
      exact isSome_hdr_of_countReady hcount
  · simp

theorem recordedSeq_eq (hf : t.inFlight = some f) (hu : t.Unclobbered) :
    ∀ p ∈ batches (accepted t f), recordedSeq t.cxl p = p.commitMeta.batchSeq := by
  intro p hp
  have hhdr := isSome_hdr_of_accepted t f p hp
  obtain ⟨hp, hm⟩ := mem_filter.mp hp
  have hready : p ∈ t.readyVector := by simpa [Topic.readyVector, hf] using accepted_subset t f p hp
  cases hhold : p.fromHold with
  | true => simp [recordedSeq, hhold]
  | false =>
    obtain ⟨a, ha⟩ := Option.isSome_iff_exists.mp (hhdr hhold)
    have := hu p hready (by simpa using hm) hhold a ha
    simp [recordedSeq, hhold, ha, this, PendingBatch5.commitMeta]

theorem seqs_entries (hf : t.inFlight = some f) (hu : t.Unclobbered) (k : SessionKey) :
    ((entries t f).filter (·.key = k)).map (·.clientSeq) = seqsOf k (accepted t f) := by
  have hmap := map_goiEntries t.cxl (accepted t f) t.globalBatchSeq t.globalSeq t.cxl.ordered
  have hsplit : ((entries t f).filter (·.key = k)).map (·.clientSeq) =
      (((entries t f).map fun e => (e.key, e.clientSeq, e.messageCount)).filter (·.1 = k)).map
        (·.2.1) := by
    rw [filter_map, map_map]
    rfl
  rw [hsplit, entries, hmap, filter_map, map_map, seqsOf, committed, filter_map, map_map]
  refine map_congr_left fun p hp => ?_
  exact recordedSeq_eq hf hu p (mem_of_mem_filter hp)

theorem seqsOf_filter_of_forall {ready : List PendingBatch5} {q : PendingBatch5 → Bool}
    (h : ∀ p ∈ ready, p.isMarker = false → p.commitMeta.key = k → q p = true) :
    seqsOf k (ready.filter q) = seqsOf k ready := by
  induction ready with
  | nil => rfl
  | cons p rest ih =>
    have hrest := ih fun r hr => h r (.tail _ hr)
    rw [filter_cons]
    split
    · rw [← singleton_append, seqsOf_append, hrest, ← seqsOf_append, singleton_append]
    next hq =>
      rw [← singleton_append (x := p), seqsOf_append, hrest]
      cases hm : p.isMarker with
      | true => rw [seqsOf_marker k hm, nil_append]
      | false =>
        rw [seqsOf_other fun hk => hq (h p (.head _) hm hk), nil_append]

theorem mem_seqsOf {ready : List PendingBatch5} {p : PendingBatch5} (hp : p ∈ ready)
    (hm : p.isMarker = false) (hk : p.commitMeta.key = k) : p.commitMeta.batchSeq ∈ seqsOf k ready := by
  refine mem_map.mpr ⟨p.commitMeta, mem_filter.mpr ⟨?_, by simp [hk]⟩, rfl⟩
  exact mem_map.mpr ⟨p, mem_filter.mpr ⟨hp, by simp [hm]⟩, rfl⟩

end Commit

theorem commitEpoch_shape (P : Platform) (t : Topic) (f : EpochInFlight) :
    commitEpoch P t f = { t with
      cxl := (commitEpoch P t f).cxl
      goiLog := (commitEpoch P t f).goiLog
      tailConsumed := (commitEpoch P t f).tailConsumed
      perClientOrdered := (commitEpoch P t f).perClientOrdered
      perClientOrderedEpoch := (commitEpoch P t f).perClientOrderedEpoch
      globalBatchSeq := (commitEpoch P t f).globalBatchSeq
      globalSeq := (commitEpoch P t f).globalSeq
      exportCursor := (commitEpoch P t f).exportCursor
      exportSequence := (commitEpoch P t f).exportSequence
      completedRanges := (commitEpoch P t f).completedRanges
      capacityExhausted := (commitEpoch P t f).capacityExhausted } := by
  cases hx : t.capacityExhausted with
  | true => rw [commitEpoch_of_exhausted P t f hx]
  | false =>
    rw [commitEpoch_of_running P t f hx]
    unfold Commit.localEffects
    split <;> rfl

theorem commitEpoch_completedRanges (P : Platform) (t : Topic) (f : EpochInFlight) :
    ∀ r ∈ (commitEpoch P t f).completedRanges, r ∈ t.completedRanges ∨ r.stop = (commitEpoch P t f).globalBatchSeq := by
  cases hx : t.capacityExhausted with
  | true =>
    rw [commitEpoch_of_exhausted P t f hx]
    exact fun r hr => .inl hr
  | false =>
    rw [commitEpoch_of_running P t f hx]
    unfold Commit.localEffects
    split
    · exact fun r hr => .inl hr
    · exact fun r hr => .inl hr
    · intro r hr
      dsimp only at hr ⊢
      split at hr
      · rcases mem_append.mp hr with hr | hr
        · exact .inl hr
        · rw [mem_singleton.mp hr]
          exact .inr rfl
      · exact .inl hr

theorem committedLimit_commitEpoch (P : Platform) (t : Topic) (f : EpochInFlight) :
    (commitEpoch P t f).cxl.committedLimit = t.cxl.committedLimit := by
  cases hx : t.capacityExhausted with
  | true => rw [commitEpoch_of_exhausted P t f hx]
  | false =>
    rw [commitEpoch_of_running P t f hx, CxlMemory.committedLimit, CxlMemory.committedSeq_writes]
    rfl

theorem Topic.Ok.seqsOf_accepted (h : t.Ok P ident) (hf : t.inFlight = some f) (hk : k.Admitted)
    (hx : t.capacityExhausted = false) :
    ∃ n, seqsOf k (Commit.accepted t f) = List.range' (t.cxl.sessions.expected k) n ∧
      (t.cxl.sessions.fenced k = true → n = 0) ∧
      ((commitEpoch P t f).capacityExhausted = false → t.cxl.sessions.fenced k = false →
        n = frontier t.cxl.sessions (t.shards (k.clientId % P.numShards)) k -
          t.cxl.sessions.expected k) := by
  have hready : t.readyVector = f.ready := by simp [Topic.readyVector, hf]
  rcases Commit.accepted_eq_or_stops P t f hx with ⟨hacc, hstop⟩ | ⟨hacc, -⟩
  · refine ⟨0, by rw [hacc]; rfl, fun _ => rfl, fun hrun => ?_⟩
    rw [hstop] at hrun
    cases hrun
  cases hfen : t.cxl.sessions.fenced k with
  | true =>
    refine ⟨0, ?_, fun _ => rfl, by rintro _ ⟨⟩⟩
    rw [hacc, List.range'_zero]
    refine seqsOf_eq_nil fun p hp hm hkey => ?_
    obtain ⟨-, hkeep⟩ := mem_filter.mp hp
    have hactive := h.classifier.table.active_of_fenced k hk hfen
    have hepoch : p.commitMeta.sessionEpoch ≠ 0 := by
      intro h0
      exact hk.2 (hkey ▸ h0)
    have hfen' : (t.cxl.sessions.get k).fenced = true := hfen
    simp [Commit.keeps, hm, hepoch, hkey, Commit.rejects, shouldRejectOrder5SpatialGuard, hactive, hfen'] at hkeep
  | false =>
    have hok := h.classifier.sessions k hk ⟨hx, hfen⟩
    rw [hready] at hok
    refine ⟨_, ?_, by rintro ⟨⟩, fun _ _ => rfl⟩
    rw [hacc, Commit.seqsOf_filter_of_forall, hok.ready]
    intro p hp hm hkey
    have hmem := Commit.mem_seqsOf hp hm hkey
    rw [hok.ready, List.mem_range'_1] at hmem
    have hfen' : (t.cxl.sessions.get k).fenced = false := hfen
    have hge : (t.cxl.sessions.get k).expectedSeq ≤ p.commitMeta.batchSeq := hmem.1
    simp [Commit.keeps, hm, hkey, Commit.rejects, shouldRejectOrder5SpatialGuard, hfen', hge]

structure EntryExtended (e e' : SessionEntry) (k : SessionKey) (n : Nat) : Prop where
  expected : e'.expectedSeq = e.expectedSeq + n
  hwm : e.committedHwm = e.expectedSeq - 1 → e'.committedHwm = e'.expectedSeq - 1
  fenced : e'.fenced = e.fenced
  active : e'.active = true ∨ e'.active = e.active ∧ n = 0
  epoch : e'.epoch = e.epoch ∨ e'.epoch = k.sessionEpoch

theorem entryExtended_publish {kept : List PendingBatch5} (hk : k.Admitted) {e : SessionEntry} {n : Nat}
    (hseqs : seqsOf k kept = List.range' e.expectedSeq n) :
    EntryExtended e ((if k ∈ Commit.publishedKeys (Commit.committed kept) then
      SessionTable.publishStores (Commit.sessionSnapshot (Commit.committed kept) k) else []).foldl
        SessionEntry.apply e) k n := by
  cases n with
  | zero =>
    have hnot : k ∉ Commit.publishedKeys (Commit.committed kept) := by
      rw [Commit.mem_publishedKeys_iff_seqsOf hk, hseqs]
      simp
    rw [if_neg hnot]
    exact ⟨rfl, id, rfl, .inr ⟨rfl, rfl⟩, .inl rfl⟩
  | succ n =>
    have hmem : k ∈ Commit.publishedKeys (Commit.committed kept) := by
      rw [Commit.mem_publishedKeys_iff_seqsOf hk, hseqs]
      simp
    obtain ⟨he, hh, hep, hfe⟩ := Commit.sessionSnapshot_spec hseqs
    rw [if_pos hmem]
    simp only [SessionTable.publishStores, foldl_cons, foldl_nil, SessionEntry.apply, he, hh, hep, hfe]
    refine ⟨?_, fun hw => ?_, Bool.or_false _, .inl rfl, .inr rfl⟩
    · dsimp only
      omega
    · dsimp only
      omega

theorem commitEpoch_get (P : Platform) (t : Topic) (f : EpochInFlight) (k : SessionKey)
    (hx : t.capacityExhausted = false) :
    (commitEpoch P t f).cxl.sessions.get k =
      (if k ∈ Commit.publishedKeys (Commit.committed (Commit.accepted t f)) then
        SessionTable.publishStores (Commit.sessionSnapshot (Commit.committed (Commit.accepted t f)) k)
      else []).foldl SessionEntry.apply (t.cxl.sessions.get k) := by
  have := Commit.get_take P t f k hx (Commit.writes P t f).length
  rw [take_length, Commit.store?_writes P t f k hx] at this
  rw [commitEpoch_of_running P t f hx]
  exact this

theorem upTo_commitEpoch (P : Platform) (t : Topic) (f : EpochInFlight) :
    Log.upTo (commitEpoch P t f).cxl.goi (commitEpoch P t f).globalBatchSeq =
      Log.upTo t.cxl.goi t.globalBatchSeq ++ Commit.entries t f := by
  rw [(commitEpoch_frontiers P t f).1, commitEpoch_goi, Log.upTo_fill]

theorem upTo_commit (P : Platform) (t : Topic) (f : EpochInFlight) :
    Log.upTo (t.commit P f).cxl.goi (t.commit P f).globalBatchSeq =
      Log.upTo t.cxl.goi t.globalBatchSeq ++ Commit.entries t f := upTo_commitEpoch P t f

theorem committedSeqs_commitEpoch (hf : t.inFlight = some f) (hu : t.Unclobbered) (k : SessionKey) :
    (commitEpoch P t f).goiSeqs k = t.goiSeqs k ++ seqsOf k (Commit.accepted t f) := by
  rw [Topic.goiSeqs, committedSeqs, upTo_commitEpoch, filter_append, map_append, Commit.seqs_entries hf hu]
  rfl

theorem index_commitEpoch (h : (Log.upTo t.cxl.goi t.globalBatchSeq).map (·.globalSeq) = List.range t.globalBatchSeq) :
    (Log.upTo (commitEpoch P t f).cxl.goi (commitEpoch P t f).globalBatchSeq).map (·.globalSeq) =
      List.range (commitEpoch P t f).globalBatchSeq := by
  rw [upTo_commitEpoch, map_append, h, (commitEpoch_frontiers P t f).1, Commit.entries,
    Commit.globalSeq_goiEntries, Commit.length_goiEntries, Log.range_append_range']

theorem TableOk.extended {table table' : SessionTable} {recovered : SessionKey → Nat}
    (h : TableOk table recovered)
    (hext : ∀ k : SessionKey, k.Admitted → ∃ n, EntryExtended (table.get k) (table'.get k) k n)
    (hother : ∀ k, k.clientId ≠ 0 → ¬k.Admitted → table'.get k = table.get k)
    (hkeys : table'.KeysOk) : TableOk table' recovered where
  active_of_expected k hk he := by
    obtain ⟨n, hn⟩ := hext k hk
    rcases hn.active with ha | ⟨ha, rfl⟩
    · exact ha
    · rw [ha]
      exact h.active_of_expected k hk (by rwa [SessionTable.expected, hn.expected, Nat.add_zero] at he)
  active_of_fenced k hk hf := by
    obtain ⟨n, hn⟩ := hext k hk
    rcases hn.active with ha | ⟨ha, rfl⟩
    · exact ha
    · rw [ha]
      exact h.active_of_fenced k hk (by rwa [SessionTable.fenced, hn.fenced] at hf)
  hwm k hk := by
    obtain ⟨n, hn⟩ := hext k hk
    exact hn.hwm (h.hwm k hk)
  epoch k hc := by
    by_cases hk : k.Admitted
    · obtain ⟨n, hn⟩ := hext k hk
      rcases hn.epoch with he | he
      · rw [he]
        exact h.epoch k hc
      · exact .inr he
    · rw [hother k hc hk]
      exact h.epoch k hc
  recovered k hk := by
    obtain ⟨n, hn⟩ := hext k hk
    refine (h.recovered k hk).trans ?_
    rw [SessionTable.expected, SessionTable.expected, hn.expected]
    exact Nat.le_add_right _ _
  keys := hkeys

theorem SessionOk.committed {epoch : Nat} {table table' : SessionTable} {sh : Level5ShardState}
    {ready : List PendingBatch5} (h : SessionOk ident epoch table sh ready k)
    (hexp : table'.expected k = frontier table sh k) : SessionOk ident epoch table' sh [] k := by
  have hle : (sh.clientState k).nextExpected ≤ table'.expected k := hexp ▸ le_max_left _ _
  have hf : frontier table' sh k = frontier table sh k := by
    rw [← hexp]
    exact Nat.max_eq_right hle
  constructor
  · exact h.unfenced
  · rw [hf, hexp, Nat.sub_self]
    rfl
  · rw [hf]
    exact h.emitted
  · rw [hf]
    exact h.stored
  · intro hlt
    exact absurd hlt (Nat.not_lt.mpr hle)
  · intro hne
    rw [hexp, frontier_of_le (h.held hne)]

theorem Topic.Ok.entry_commit (h : t.Ok P ident) (hf : t.inFlight = some f) (hk : k.Admitted)
    (hx : t.capacityExhausted = false) :
    ∃ n, seqsOf k (Commit.accepted t f) = List.range' (t.cxl.sessions.expected k) n ∧
      EntryExtended (t.cxl.sessions.get k) ((commitEpoch P t f).cxl.sessions.get k) k n ∧
      (t.cxl.sessions.fenced k = true → n = 0) ∧
      ((commitEpoch P t f).capacityExhausted = false → t.cxl.sessions.fenced k = false →
        (commitEpoch P t f).cxl.sessions.expected k =
          frontier t.cxl.sessions (t.shards (k.clientId % P.numShards)) k) := by
  obtain ⟨n, hseqs, hfen, hn⟩ := h.seqsOf_accepted hf hk hx
  have hext := entryExtended_publish hk hseqs
  rw [← commitEpoch_get P t f k hx] at hext
  refine ⟨n, hseqs, hext, hfen, fun hrun hno => ?_⟩
  have hle : t.cxl.sessions.expected k ≤
      frontier t.cxl.sessions (t.shards (k.clientId % P.numShards)) k := le_max_right _ _
  rw [SessionTable.expected, hext.expected, hn hrun hno]
  exact Nat.add_sub_cancel' hle

theorem NoteOk.extended {table table' : SessionTable} {m : SessionFenceNotification}
    (h : NoteOk table m)
    (hexp : table.fenced m.key = true → table'.expected m.key = table.expected m.key)
    (hfen : table.fenced m.key = true → table'.fenced m.key = true) : NoteOk table' m where
  admitted := h.admitted
  fenced := hfen h.fenced
  isPrefix := by
    rw [hexp h.fenced]
    exact h.isPrefix
  hwm := by
    rw [hexp h.fenced]
    exact h.hwm

theorem TableOk.commit (h : t.Ok P ident) (hf : t.inFlight = some f) (hx : t.capacityExhausted = false) :
    TableOk (commitEpoch P t f).cxl.sessions t.recoveredNextExpected := by
  refine h.classifier.table.extended (fun k hk => ?_) (fun k hc hk => ?_) ?_
  · obtain ⟨n, -, hext, -⟩ := h.entry_commit hf hk hx
    exact ⟨n, hext⟩
  · rw [commitEpoch_get P t f k hx, if_neg, foldl_nil]
    intro hmem
    exact hk ⟨hc, (Commit.mem_publishedKeys.mp hmem).1⟩
  · rw [commitEpoch_of_running P t f hx]
    exact CxlMemory.keysOk_writes h.classifier.table.keys

theorem Topic.Ok.commit (h : t.Ok P ident) (hf : t.inFlight = some f) (hu : t.Unclobbered) :
    (t.commit P f).Ok P ident := by
  have hshape := commitEpoch_shape P t f
  have hshards : (commitEpoch P t f).shards = t.shards := by rw [hshape]
  have hrec : (commitEpoch P t f).recoveredNextExpected = t.recoveredNextExpected := by rw [hshape]
  have hnotes : (commitEpoch P t f).fenceNotes = t.fenceNotes := by rw [hshape]
  have hpend : (commitEpoch P t f).pendingSessionFences = t.pendingSessionFences := by rw [hshape]
  have hepoch : (commitEpoch P t f).currentEpochForHold = t.currentEpochForHold := by rw [hshape]
  have hpr : (commitEpoch P t f).pendingRanges = t.pendingRanges := by rw [hshape]
  have hnext : (commitEpoch P t f).nextExpectedStart = t.nextExpectedStart := by rw [hshape]
  have hgbs : t.globalBatchSeq ≤ (commitEpoch P t f).globalBatchSeq := by
    rw [(commitEpoch_frontiers P t f).1]
    exact Nat.le_add_right _ _
  have hclass : ClassifierOk P ident (t.commit P f) [] := by
    cases hx : t.capacityExhausted with
    | true =>
      rw [Topic.commit, commitEpoch_of_exhausted P t f hx]
      exact ⟨h.classifier.shards, h.classifier.table, h.classifier.notes, h.classifier.pending,
        by simp, fun k _ hl => absurd hl.1 (by simp [hx])⟩
    | false =>
      refine ⟨?_, ?_, ?_, ?_, by simp, ?_⟩
      · exact hshards ▸ h.classifier.shards
      · exact hrec ▸ TableOk.commit h hf hx
      · intro m hm
        have hm : m ∈ t.fenceNotes := hnotes ▸ hm
        have hnote := h.classifier.notes m hm
        obtain ⟨n, -, hext, hfen, -⟩ := h.entry_commit hf hnote.admitted hx
        refine hnote.extended (fun hfe => ?_) (fun hfe => hext.fenced.trans hfe)
        exact hext.expected.trans (by rw [hfen hfe]; rfl)
      · intro c m hm
        exact hnotes ▸ h.classifier.pending c m (hpend ▸ hm)
      · intro k hk hl
        obtain ⟨n, -, hext, -, hfront⟩ := h.entry_commit hf hk hx
        have hno : t.cxl.sessions.fenced k = false := hext.fenced.symm.trans hl.2
        have hok := (h.classifier.sessions k hk ⟨hx, hno⟩).committed (hfront hl.1 hno)
        change SessionOk ident (commitEpoch P t f).currentEpochForHold (commitEpoch P t f).cxl.sessions
          ((commitEpoch P t f).shards _) [] k
        rwa [hepoch, hshards]
  refine ⟨hclass, index_commitEpoch h.index, fun k hk => ?_, ?_, ?_, fun r hr => ?_⟩
  · change (commitEpoch P t f).goiSeqs k = List.range ((commitEpoch P t f).cxl.sessions.expected k)
    cases hx : t.capacityExhausted with
    | true =>
      rw [commitEpoch_of_exhausted P t f hx]
      exact h.seqs k hk
    | false =>
      obtain ⟨n, hseqs, hext, -⟩ := h.entry_commit hf hk hx
      have hexp : (commitEpoch P t f).cxl.sessions.expected k = t.cxl.sessions.expected k + n :=
        hext.expected
      rw [committedSeqs_commitEpoch hf hu, h.seqs k hk, hseqs, hexp, Log.range_append_range']
  · exact ((committedLimit_commitEpoch P t f).le.trans h.committed).trans hgbs
  · exact (hnext.le.trans h.next).trans hgbs
  · rcases mem_append.mp hr with hr | hr
    · rcases commitEpoch_completedRanges P t f r hr with hr | hr
      · exact (h.ranges r (mem_append_left _ hr)).trans hgbs
      · exact hr.le
    · exact (h.ranges r (mem_append_right _ (hpr ▸ hr))).trans hgbs

end Embarcadero
