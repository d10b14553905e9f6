import Embarcadero.Crash

namespace Embarcadero

open List
open Function (update)

variable {P : Platform} {ident : Nat → SessionKey × Nat} {t t' t'' : Topic} {f : EpochInFlight}
  {k : SessionKey} {n : Nat}

structure Topic.Continues (t t' : Topic) : Prop where
  index : t.globalBatchSeq ≤ t'.globalBatchSeq
  goi : ∀ i < t.globalBatchSeq, t'.cxl.goi i = t.cxl.goi i
  expected : ∀ k : SessionKey, k.Admitted → t.cxl.sessions.expected k ≤ t'.cxl.sessions.expected k
  fenced : ∀ k : SessionKey, k.Admitted → t.cxl.sessions.fenced k = true →
    t'.cxl.sessions.fenced k = true ∧ t'.cxl.sessions.expected k = t.cxl.sessions.expected k
  notes : t.fenceNotes <+: t'.fenceNotes
  log : ∃ new, t'.goiLog = t.goiLog ++ new ∧ ∀ e ∈ new, ∀ k : SessionKey, k.Admitted →
    t.cxl.sessions.fenced k = true → e.key ≠ k

theorem Topic.Continues.refl (t : Topic) : t.Continues t :=
  ⟨Nat.le_refl _, fun _ _ => rfl, fun _ _ => Nat.le_refl _, fun _ _ h => ⟨h, rfl⟩, prefix_rfl, [], by simp, nofun⟩

theorem Topic.Continues.trans (h : t.Continues t') (h' : t'.Continues t'') : t.Continues t'' where
  index := h.index.trans h'.index
  goi i hi := (h'.goi i (Nat.lt_of_lt_of_le hi h.index)).trans (h.goi i hi)
  expected k hk := (h.expected k hk).trans (h'.expected k hk)
  fenced k hk hf := by
    obtain ⟨hf', he'⟩ := h.fenced k hk hf
    obtain ⟨hf'', he''⟩ := h'.fenced k hk hf'
    exact ⟨hf'', he''.trans he'⟩
  notes := h.notes.trans h'.notes
  log := by
    obtain ⟨new, hnew, hkey⟩ := h.log
    obtain ⟨new', hnew', hkey'⟩ := h'.log
    refine ⟨new ++ new', by rw [hnew', hnew, append_assoc], fun e he k hk hf => ?_⟩
    rcases mem_append.mp he with he | he
    · exact hkey e he k hk hf
    · exact hkey' e he k hk (h.fenced k hk hf).1

theorem Topic.Continues.of_eq (hgoi : t'.cxl.goi = t.cxl.goi)
    (hget : t'.cxl.sessions.get = t.cxl.sessions.get) (hgbs : t'.globalBatchSeq = t.globalBatchSeq)
    (hnotes : t'.fenceNotes = t.fenceNotes) (hlog : t'.goiLog = t.goiLog) : t.Continues t' where
  index := hgbs.ge
  goi i _ := by rw [hgoi]
  expected k _ := by rw [SessionTable.expected, SessionTable.expected, hget]
  fenced k _ hf := by
    rw [SessionTable.fenced, SessionTable.expected, hget]
    exact ⟨hf, rfl⟩
  notes := hnotes ▸ prefix_rfl
  log := ⟨[], by rw [hlog, append_nil], nofun⟩

theorem Topic.Processed.continues (h : t.Processed t') : t.Continues t' where
  index := by rw [h.shape]
  goi i _ := by rw [h.shape]
  expected k _ := (h.expected k).ge
  fenced k _ hf := ⟨h.fenced k hf, h.expected k⟩
  notes := h.notes
  log := ⟨[], by rw [h.shape]; simp, nofun⟩

theorem Topic.Ok.continues_process (h : t.Ok P ident) {batchList : List PendingBatch5}
    {clock : PassClock} {t₁ : Topic} (hcl : Classifies P ident t batchList clock t₁ f) :
    t.Continues { (processLevel5Batches P clock t₁ (t.level5 batchList)).1 with
      inFlight := some f } := by
  have hstart : t.Continues t₁ := by
    rw [hcl.start]
    exact .of_eq rfl rfl rfl rfl rfl
  exact (hstart.trans (h.classify hcl).2.continues).trans (.of_eq rfl rfl rfl rfl rfl)

theorem Commit.exists_batch_of_mem_entries {e : GOIEntry} (he : e ∈ Commit.entries t f) :
    ∃ p ∈ Commit.batches (Commit.accepted t f), p.commitMeta.key = e.key := by
  have hmap := Commit.map_goiEntries t.cxl (Commit.accepted t f) t.globalBatchSeq t.globalSeq t.cxl.ordered
  have hmem : (e.key, e.clientSeq, e.messageCount) ∈
      (Commit.batches (Commit.accepted t f)).map (Commit.recorded t.cxl) :=
    hmap ▸ mem_map_of_mem he
  obtain ⟨p, hp, hrec⟩ := mem_map.mp hmem
  exact ⟨p, hp, congrArg Prod.fst hrec⟩

theorem Topic.Ok.not_mem_entries (h : t.Ok P ident) (hf : t.inFlight = some f) (hk : k.Admitted)
    (hfen : t.cxl.sessions.fenced k = true) : ∀ e ∈ Commit.entries t f, e.key ≠ k := by
  intro e he hkey
  cases hx : t.capacityExhausted with
  | true => simp [Commit.entries_of_exhausted hx] at he
  | false =>
    obtain ⟨n, hseqs, -, hn, -⟩ := h.entry_commit hf hk hx
    rw [hn hfen, List.range'_zero] at hseqs
    obtain ⟨p, hp, hpk⟩ := Commit.exists_batch_of_mem_entries he
    obtain ⟨hp, hm⟩ := mem_filter.mp hp
    have := Commit.mem_seqsOf hp (by simpa using hm) (hpk.trans hkey)
    rw [hseqs] at this
    cases this

theorem Topic.Ok.continues_commit (h : t.Ok P ident) (hf : t.inFlight = some f) : t.Continues (t.commit P f) := by
  have hshape := commitEpoch_shape P t f
  cases hx : t.capacityExhausted with
  | true =>
    rw [Topic.commit, commitEpoch_of_exhausted P t f hx]
    exact .of_eq rfl rfl rfl rfl rfl
  | false =>
    refine ⟨?_, fun i hi => ?_, fun k hk => ?_, fun k hk hfen => ?_, ?_,
      ⟨_, commitEpoch_goiLog P t f, fun e he k hk hfen => h.not_mem_entries hf hk hfen e he⟩⟩
    · exact (commitEpoch_frontiers P t f).1 ▸ Nat.le_add_right _ _
    · change (commitEpoch P t f).cxl.goi i = _
      rw [commitEpoch_goi, Log.fill_of_lt hi]
    · obtain ⟨n, -, hext, -⟩ := h.entry_commit hf hk hx
      exact (Nat.le_add_right _ n).trans hext.expected.ge
    · obtain ⟨n, -, hext, hn, -⟩ := h.entry_commit hf hk hx
      exact ⟨hext.fenced.trans hfen, hext.expected.trans (by rw [hn hfen]; rfl)⟩
    · have hnotes : (commitEpoch P t f).fenceNotes = t.fenceNotes := by rw [hshape]
      exact hnotes.symm ▸ prefix_rfl

theorem Topic.mem_entries_of_crash {e : GOIEntry} (he : e ∈ ((t.pendingWrites P).take n).filterMap CxlWrite.goiEntry?) :
    ∃ f, t.inFlight = some f ∧ e ∈ Commit.entries t f := by
  obtain ⟨w, hw, hwe⟩ := mem_filterMap.mp he
  have hw := mem_of_mem_take hw
  unfold Topic.pendingWrites at hw
  split at hw
  next f hf =>
    refine ⟨f, hf, ?_⟩
    cases hx : t.capacityExhausted with
    | true => simp [hx] at hw
    | false =>
      rw [hx, if_neg Bool.false_ne_true] at hw
      rw [← Commit.filterMap_goiEntry?_writes P t f hx]
      exact mem_filterMap.mpr ⟨w, hw, hwe⟩
  · have hregion := region_tailWrites t w hw
    rw [CxlWrite.goiEntry?_eq_none (by simp [hregion])] at hwe
    cases hwe

theorem Topic.Ok.continues_crash (h : t.Ok P ident) (hs : t.Settled P n) : t.Continues (t.crash P n) := by
  obtain ⟨hgoi, hsess, -⟩ := sequencer5_cxl P (t.surviving P n)
  have hget : (t.crash P n).cxl.sessions.get = t.cxl.sessions.get :=
    (congrArg SessionTable.get hsess).trans hs.get
  refine ⟨(h.globalBatchSeq_crash hs).ge, fun i hi => ?_, fun k _ => ?_, fun k _ hf => ?_,
    prefix_rfl, ⟨_, rfl, fun e he k hk hfen => ?_⟩⟩
  · exact (congrFun hgoi i).trans (t.goi_surviving P n hi)
  · rw [SessionTable.expected, SessionTable.expected, hget]
  · rw [SessionTable.fenced, SessionTable.expected, hget]
    exact ⟨hf, rfl⟩
  · obtain ⟨f, hf, he⟩ := Topic.mem_entries_of_crash he
    exact h.not_mem_entries hf hk hfen e he

theorem Topic.Ok.continues_step {e : Event} (h : t.Ok P ident) (hc : Clean P ident t e)
    (hstep : Embarcadero.step P t e = some t') : t.Continues t' := by
  cases e with
  | admitSession k =>
    cases hstep
    exact .of_eq rfl (t.tryAdmitSession_sessions k).1 rfl rfl rfl
  | epoch _ _ | idleTick _ | finalDrain _ =>
    obtain ⟨clock, t₁, f, hcl, rfl⟩ := classifies_of_step rfl hc.identified hstep
    exact h.continues_process hcl
  | commit =>
    obtain ⟨f, hf, rfl⟩ := Option.map_eq_some_iff.mp hstep
    exact h.continues_commit hf
  | tail =>
    cases hstep
    exact .of_eq (CxlMemory.goi_writes (fun w hw => by simp [region_tailWrites t w hw]) t.cxl)
      (congrArg _ (CxlMemory.sessions_writes (fun w hw => by simp [region_tailWrites t w hw]) t.cxl))
      rfl rfl rfl
  | updateCommittedSeq n =>
    cases hstep
    obtain ⟨s, hs⟩ := Topic.committedSeqUpdater_cxl t n
    exact .of_eq (by rw [hs]) (by rw [hs]) rfl rfl rfl
  | crash n =>
    cases hstep
    exact h.continues_crash hc
  | takeFenceNote _ | ackEpochCheck _ _ | ackRelay _ =>
    obtain ⟨_, _, _, _, rfl⟩ := relays_of_step rfl hstep
    exact .of_eq rfl rfl rfl rfl rfl
  | slotWrite a hdr =>
    cases hstep
    exact .of_eq rfl rfl rfl rfl rfl
  | bumpControlEpoch =>
    cases hstep
    exact .of_eq rfl rfl rfl rfl rfl

theorem Topic.Ok.continues {es : List Event} (h : t.Ok P ident)
    (hrun : Runs.Along (Embarcadero.step P) (Clean P ident) t es t') : t.Continues t' :=
  hrun.relation (fun _ _ _ hc hs h => h.step hc hs) (fun _ _ _ hc hs h => h.continues_step hc hs)
    Topic.Continues.refl (fun _ _ _ h h' => h.trans h') h

end Embarcadero
