import Embarcadero.Steps

namespace Embarcadero

open Function (update update_of_ne update_self)
open List

variable {P : Platform} {ident : Nat → SessionKey × Nat} {t : Topic} {k : SessionKey} {n : Nat}

def expectedAfter (seqs : List Nat) : Nat := seqs.foldl (fun m s => max m (s + 1)) 0

theorem expectedAfter_append (seqs : List Nat) (s : Nat) :
    expectedAfter (seqs ++ [s]) = max (expectedAfter seqs) (s + 1) := by
  simp [expectedAfter]

theorem expectedAfter_range (n : Nat) : expectedAfter (List.range n) = n := by
  induction n with
  | zero => rfl
  | succ n ih => rw [range_succ, expectedAfter_append, ih, Nat.max_eq_right (Nat.le_succ n)]

theorem committedSeqs_succ (goi : Nat → GOIEntry) (n : Nat) (k : SessionKey) :
    committedSeqs goi (n + 1) k = committedSeqs goi n k ++ if (goi n).key = k then [(goi n).clientSeq] else [] := by
  by_cases h : (goi n).key = k
  · simp [committedSeqs, Log.upTo_succ, h]
  · simp [committedSeqs, Log.upTo_succ, h]

def sessionMessages (goi : Nat → GOIEntry) (n c : Nat) : Nat :=
  (((Log.upTo goi n).filter fun e => e.sessionEpoch ≠ 0 && e.clientId = c).map (·.messageCount)).sum

theorem sessionMessages_succ (goi : Nat → GOIEntry) (n c : Nat) :
    sessionMessages goi (n + 1) c = sessionMessages goi n c +
      if (goi n).sessionEpoch ≠ 0 ∧ (goi n).clientId = c then (goi n).messageCount else 0 := by
  by_cases h : (goi n).sessionEpoch ≠ 0 ∧ (goi n).clientId = c
  · simp [sessionMessages, Log.upTo_succ, h.1, h.2]
  · rw [if_neg h]
    have hno : ((goi n).sessionEpoch ≠ 0 && (goi n).clientId = c) = false := by
      rw [← Bool.not_eq_true]
      simpa using h
    simp only [sessionMessages, Log.upTo_succ, filter_append, filter_cons, hno]
    simp

structure Recovered.Scanned (goi : Nat → GOIEntry) (n : Nat) (r : Recovered) : Prop where
  index : r.nextGoiIndex = n
  expected : ∀ k : SessionKey, k.sessionEpoch ≠ 0 → r.nextExpected k = expectedAfter (committedSeqs goi n k)
  messages : ∀ c, r.msgCounts c = sessionMessages goi n c

theorem Recovered.Scanned.step {goi : Nat → GOIEntry} {r : Recovered} (h : Recovered.Scanned goi n r)
    (hi : (goi n).globalSeq = n) : Recovered.Scanned goi (n + 1) (r.scan goi n) := by
  unfold Recovered.scan
  rw [if_neg (by simpa using hi)]
  dsimp only
  split
  next hzero =>
    refine ⟨rfl, fun k hk => ?_, fun c => ?_⟩
    · have hne : (goi n).key ≠ k := fun hkey => hk (hkey ▸ hzero)
      rw [committedSeqs_succ, if_neg hne, append_nil]
      exact h.expected k hk
    · rw [sessionMessages_succ, if_neg (by simp [hzero])]
      exact h.messages c
  next hepoch =>
    refine ⟨rfl, fun k hk => ?_, fun c => ?_⟩
    · rw [committedSeqs_succ]
      by_cases hkey : k = (goi n).key
      · subst hkey
        rw [if_pos rfl, expectedAfter_append, ← h.expected _ hk]
        exact update_self ..
      · rw [if_neg (Ne.symm hkey), append_nil, ← h.expected k hk]
        exact update_of_ne hkey ..
    · rw [sessionMessages_succ]
      by_cases hc : c = (goi n).clientId
      · subst hc
        rw [if_pos ⟨hepoch, rfl⟩, ← h.messages]
        exact update_self ..
      · rw [if_neg (fun hh => hc hh.2.symm), Nat.add_zero, ← h.messages]
        exact update_of_ne hc ..

theorem Recovered.scanned (goi : Nat → GOIEntry) (n : Nat) (hi : ∀ i < n, (goi i).globalSeq = i) :
    Recovered.Scanned goi n ((List.range n).foldl (Recovered.scan goi) {}) := by
  induction n with
  | zero => exact ⟨rfl, fun _ _ => rfl, fun _ => rfl⟩
  | succ n ih =>
    rw [range_succ, foldl_append]
    exact (ih fun i h => hi i (Nat.lt_succ_of_lt h)).step (hi n (Nat.lt_succ_self n))

theorem rebuildExportDescriptors_eq (P : Platform) (c : CxlMemory) (n : Nat) :
    (rebuildExportDescriptors P c n).1 =
      { c with ring := (rebuildExportDescriptors P c n).1.ring } := by
  unfold rebuildExportDescriptors
  apply List.foldlRecOn (motive := fun s : CxlMemory × Commit.ExportState =>
    s.1 = { c with ring := s.1.ring })
  · rfl
  · intro s hs i _
    unfold rebuildExportDescriptor
    dsimp only
    split
    · exact hs
    · rw [CxlMemory.setSlot, hs]

@[simp] theorem CxlMemory.committedLimit_takeOver (c : CxlMemory) (n : Nat) : (c.takeOver n).committedLimit = n := by
  unfold CxlMemory.committedLimit CxlMemory.takeOver
  dsimp only
  split
  · exact Eq.symm ‹n = 0›
  · simp only [Option.map_some, Option.getD_some]
    omega

theorem sequencer5_cxl (P : Platform) (c : CxlMemory) :
    (sequencer5 P c).cxl.goi = c.goi ∧ (sequencer5 P c).cxl.sessions = c.sessions ∧
      (sequencer5 P c).cxl.committedLimit = (sequencer5 P c).globalBatchSeq := by
  have h := rebuildExportDescriptors_eq P (c.takeOver (recoverSequencer5State c).nextGoiIndex)
    (recoverSequencer5State c).nextGoiIndex
  have hcxl : (sequencer5 P c).cxl = _ := h
  rw [hcxl]
  exact ⟨rfl, rfl, CxlMemory.committedLimit_takeOver c _⟩

variable {e : Event} {i : Nat} {t' : Topic}

theorem CxlMemory.goi_writes_of_lt {ws : List CxlWrite} (h : ∀ i e, CxlWrite.goi i e ∈ ws → n ≤ i) (c : CxlMemory)
    (hi : i < n) : (c.writes ws).goi i = c.goi i := by
  refine CxlMemory.writes_frame (Q := fun w => ∀ j e, w = .goi j e → n ≤ j) (·.goi i)
    (fun c w hw => ?_) (fun w hw j e he => h j e (he ▸ hw)) c
  cases w with
  | goi j e => exact update_of_ne (Nat.ne_of_lt (Nat.lt_of_lt_of_le hi (hw j e rfl))) ..
  | _ => rfl

theorem Commit.le_of_goi_mem_goiWrites (c : CxlMemory) (kept : List PendingBatch5) :
    ∀ (index order : Nat) (cumulative : Nat → Nat) {i : Nat} {e : GOIEntry},
      CxlWrite.goi i e ∈ goiWrites c index order cumulative kept → index ≤ i := by
  induction kept with
  | nil => intro index order cumulative i e h; simp [goiWrites] at h
  | cons p rest ih =>
    intro index order cumulative i e h
    by_cases hm : p.isMarker
    · rw [goiWrites, if_pos hm] at h
      exact ih _ _ _ h
    · obtain ⟨count, cumulative', hw⟩ := goiWrites_cons_batch (c := c) hm index order cumulative rest
      rw [hw] at h
      rcases mem_append.mp h with h | h
      · exact absurd rfl (stamp_ne_goi p order _ h)
      · rcases mem_cons.mp h with h | h
        · cases h
          exact Nat.le_refl _
        · exact Nat.le_of_succ_le (ih _ _ _ h)

theorem Topic.le_of_goi_mem_pendingWrites {e : GOIEntry} (h : CxlWrite.goi i e ∈ t.pendingWrites P) :
    t.globalBatchSeq ≤ i := by
  unfold Topic.pendingWrites at h
  split at h
  next f _ =>
    cases hx : t.capacityExhausted with
    | true => simp [hx] at h
    | false =>
      rw [hx, if_neg Bool.false_ne_true] at h
      obtain ⟨before, after, hw, hb, ha⟩ := Commit.writes_split P t f hx
      rw [hw] at h
      rcases mem_append.mp h with h | h
      · rcases mem_append.mp h with h | h
        · exact absurd rfl (hb _ h)
        · exact Commit.le_of_goi_mem_goiWrites _ _ _ _ _ h
      · exact absurd rfl (ha _ h)
  · exact absurd (region_tailWrites t _ h) (by simp [CxlWrite.region])

def CxlWrite.isSessionStore : CxlWrite → Bool
  | .session _ _ => true
  | _ => false

def Topic.Settled (P : Platform) (t : Topic) (n : Nat) : Prop :=
  t.cxl.committedLimit = t.globalBatchSeq ∧ ∀ w ∈ (t.pendingWrites P).take n, w.isSessionStore = false

instance (P : Platform) (t : Topic) (n : Nat) : Decidable (t.Settled P n) :=
  inferInstanceAs (Decidable (_ ∧ _))

theorem Topic.goi_surviving (P : Platform) (t : Topic) (n : Nat) (hi : i < t.globalBatchSeq) :
    (t.surviving P n).goi i = t.cxl.goi i :=
  CxlMemory.goi_writes_of_lt (fun _ _ h => Topic.le_of_goi_mem_pendingWrites (mem_of_mem_take h)) _ hi

theorem Topic.Settled.get (h : t.Settled P n) : (t.surviving P n).sessions.get = t.cxl.sessions.get := by
  funext k
  have hnil : ((t.pendingWrites P).take n).filterMap (CxlWrite.store? k) = [] := by
    refine filterMap_eq_nil_iff.mpr fun w hw => ?_
    have := h.2 w hw
    cases w <;> first | rfl | cases this
  rw [Topic.surviving, CxlMemory.get_writes (.inr hnil), hnil, foldl_nil]

theorem Topic.Settled.committedLimit (h : t.Settled P n) : (t.surviving P n).committedLimit = t.globalBatchSeq := by
  rw [← h.1, CxlMemory.committedLimit, CxlMemory.committedLimit, Topic.surviving, CxlMemory.committedSeq_writes]

theorem Topic.Ok.globalSeq_eq (h : t.Ok P ident) (hi : i < t.globalBatchSeq) : (t.cxl.goi i).globalSeq = i := by
  have hget := congrArg (·[i]?) h.index
  simpa [Log.upTo, hi] using hget

theorem Topic.Ok.scanned (h : t.Ok P ident) (hs : t.Settled P n) :
    Recovered.Scanned t.cxl.goi t.globalBatchSeq
      ((List.range (t.surviving P n).committedLimit).foldl (Recovered.scan (t.surviving P n).goi) {}) := by
  rw [hs.committedLimit]
  have hgoi : ∀ i < t.globalBatchSeq, (t.surviving P n).goi i = t.cxl.goi i :=
    fun i hi => t.goi_surviving P n hi
  have hscan := Recovered.scanned (t.surviving P n).goi t.globalBatchSeq
    fun i hi => (hgoi i hi).symm ▸ h.globalSeq_eq hi
  have hupTo := Log.upTo_congr hgoi
  refine ⟨hscan.index, fun k hk => ?_, fun c => ?_⟩
  · rw [hscan.expected k hk, committedSeqs, committedSeqs, hupTo]
  · rw [hscan.messages c, sessionMessages, sessionMessages, hupTo]

theorem Topic.Ok.recovered_crash (h : t.Ok P ident) (hs : t.Settled P n) (hk : k.Admitted) :
    (t.crash P n).recoveredNextExpected k = t.cxl.sessions.expected k := by
  have hscan := (h.scanned hs).expected k hk.2
  have hseqs : committedSeqs t.cxl.goi t.globalBatchSeq k = _ := h.seqs k hk
  rw [hseqs, expectedAfter_range] at hscan
  change (recoverSequencer5State (t.surviving P n)).nextExpected k = _
  unfold recoverSequencer5State
  dsimp only
  rw [hscan, SessionTable.expected, SessionTable.expected, hs.get, max_self, ite_self]

theorem Topic.Ok.globalBatchSeq_crash (h : t.Ok P ident) (hs : t.Settled P n) :
    (t.crash P n).globalBatchSeq = t.globalBatchSeq := (h.scanned hs).index

theorem sessionOk_fresh (epoch : Nat) (table : SessionTable) (k : SessionKey) :
    SessionOk ident epoch table {} [] k where
  unfenced := rfl
  ready := by simp [frontier]
  emitted s hs := by simp [ClientEmitTracker.isEmitted] at hs
  stored id hid := absurd hid (FastDeduplicator.not_stored_default id)
  recent h := absurd h (Nat.not_lt_zero _)
  held h := absurd rfl h

theorem Topic.Ok.crash (h : t.Ok P ident) (hs : t.Settled P n) : (t.crash P n).Ok P ident := by
  obtain ⟨hgoi, hsess, hlimit⟩ := sequencer5_cxl P (t.surviving P n)
  have hgbs := h.globalBatchSeq_crash hs
  have hgoi' : (t.crash P n).cxl.goi = (t.surviving P n).goi := hgoi
  have hget : (t.crash P n).cxl.sessions.get = t.cxl.sessions.get := by
    rw [← hs.get]
    exact congrArg SessionTable.get hsess
  have hexp : (t.crash P n).cxl.sessions.expected = t.cxl.sessions.expected := by
    funext k
    rw [SessionTable.expected, SessionTable.expected, hget]
  have hfen : (t.crash P n).cxl.sessions.fenced = t.cxl.sessions.fenced := by
    funext k
    rw [SessionTable.fenced, SessionTable.fenced, hget]
  have hupTo : Log.upTo (t.crash P n).cxl.goi (t.crash P n).globalBatchSeq = Log.upTo t.cxl.goi t.globalBatchSeq := by
    rw [hgoi', hgbs]
    exact Log.upTo_congr fun i hi => t.goi_surviving P n hi
  have hT := h.classifier.table
  refine ⟨⟨fun _ => ⟨by rintro _ _ _ ⟨⟩, by rintro _ ⟨⟩, by rintro _ ⟨⟩, fun _ _ => .inl rfl⟩, ?_, fun m hm => ?_,
    by rintro _ _ ⟨⟩, by rintro _ ⟨⟩, fun k _ _ => sessionOk_fresh _ _ k⟩, ?_, fun k hk => ?_, hlimit.le, Nat.le_refl _,
    by rintro _ ⟨⟩⟩
  · refine ⟨by simpa only [hexp, hget] using hT.active_of_expected,
      by simpa only [hfen, hget] using hT.active_of_fenced, by simpa only [hexp, hget] using hT.hwm,
      by simpa only [hget] using hT.epoch, fun k hk => ?_, hsess ▸ CxlMemory.keysOk_writes h.classifier.table.keys⟩
    rw [h.recovered_crash hs hk, hexp]
  · exact (h.classifier.notes m hm).extended (fun _ => by rw [hexp]) (by simp [hfen])
  · rw [hupTo, hgbs]
    exact h.index
  · rw [Topic.goiSeqs, committedSeqs, hupTo, hexp]
    exact h.seqs k hk

def Clean (P : Platform) (ident : Nat → SessionKey × Nat) (t : Topic) : Event → Prop
  | .epoch batchList _ => Identified ident batchList
  | .commit => t.Unclobbered
  | .crash n => t.Settled P n
  | _ => True

instance (P : Platform) (ident : Nat → SessionKey × Nat) (t : Topic) (e : Event) : Decidable (Clean P ident t e) := by
  cases e <;> dsimp only [Clean] <;> infer_instance

theorem Clean.identified (h : Clean P ident t e) : Identified ident e.batchList := by
  cases e with
  | epoch batchList clock => exact h
  | _ => exact nofun

theorem Topic.ok_fresh (P : Platform) : (Topic.fresh P).Ok P ident := by
  refine ⟨⟨fun _ => ⟨nofun, nofun, nofun, fun _ _ => .inl rfl⟩, ?_, nofun, nofun, nofun,
    fun k _ _ => sessionOk_fresh _ _ k⟩, rfl, fun _ _ => rfl, Nat.le_refl _, Nat.le_refl _, nofun⟩
  exact ⟨nofun, nofun, fun _ _ => rfl, fun _ _ => .inl rfl, fun _ _ => Nat.le_refl _, nofun⟩

theorem Topic.Ok.step (h : t.Ok P ident) (hc : Clean P ident t e) (hstep : Embarcadero.step P t e = some t') :
    t'.Ok P ident := by
  cases e with
  | slotWrite a hdr =>
    cases hstep
    exact h.slotWrite a hdr
  | admitSession k =>
    cases hstep
    exact h.tryAdmitSession k
  | epoch _ _ | idleTick _ | finalDrain _ =>
    obtain ⟨clock, t₁, f, hcl, rfl⟩ := classifies_of_step rfl hc.identified hstep
    exact h.process hcl
  | commit =>
    obtain ⟨f, hf, rfl⟩ := Option.map_eq_some_iff.mp hstep
    exact h.commit hf hc
  | tail =>
    cases hstep
    exact h.finishTail
  | updateCommittedSeq n =>
    cases hstep
    exact h.committedSeqUpdater n
  | crash n =>
    cases hstep
    exact h.crash hc
  | bumpControlEpoch =>
    cases hstep
    exact h.bumpControlEpoch
  | takeFenceNote k =>
    obtain ⟨m, -, rfl⟩ := Option.map_eq_some_iff.mp hstep
    exact h.takeSessionFenceNotification k m
  | ackEpochCheck k refresh =>
    cases hstep
    exact h.ackEpochCheck refresh
  | ackRelay k =>
    obtain ⟨-, rfl⟩ := Runs.of_guard hstep
    exact h.relayEpochStale k

theorem Topic.Ok.run {es : List Event} (h : t.Ok P ident)
    (hrun : Runs.Along (Embarcadero.step P) (Clean P ident) t es t') : t'.Ok P ident :=
  hrun.invariant (fun _ _ _ hc hs h => h.step hc hs) h

end Embarcadero
