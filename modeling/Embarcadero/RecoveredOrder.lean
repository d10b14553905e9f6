import Embarcadero.CommittedPrefix

namespace Embarcadero

open List

variable {P : Platform} {t t' : Topic} {f : EpochInFlight} {es : List Event}

namespace Commit

variable {goi : Nat → GOIEntry} {n hi : Nat}

theorem tiles_last (h : Log.Tiles 0 ((Log.upTo goi (n + 1)).map range) hi) :
    Log.Tiles 0 ((Log.upTo goi n).map range) (goi n).totalOrder ∧ (goi n).totalOrder + (goi n).messageCount = hi := by
  rw [Log.upTo_succ, map_append, Log.tiles_append] at h
  obtain ⟨mid, hbefore, rfl, hend⟩ := h
  exact ⟨hbefore, hend⟩

theorem end_le_of_tiles (h : Log.Tiles 0 ((Log.upTo goi n).map range) hi) :
    ∀ i < n, (goi i).totalOrder + (goi i).messageCount ≤ hi := by
  induction n generalizing hi with
  | zero => exact fun i hi => absurd hi (Nat.not_lt_zero i)
  | succ n ih =>
    intro i hlt
    obtain ⟨hbefore, hend⟩ := tiles_last h
    cases Nat.lt_succ_iff_lt_or_eq.mp hlt with
    | inl hlt => exact (ih hbefore i hlt).trans ((Nat.le_add_right _ _).trans hend.le)
    | inr heq => exact heq ▸ hend.le

theorem globalSeq_scan (hindex : ∀ i < n, (goi i).globalSeq = i) (h : Log.Tiles 0 ((Log.upTo goi n).map range) hi) :
    ((List.range n).foldl (Recovered.scan goi) {}).globalSeq = hi := by
  induction n generalizing hi with
  | zero => exact h
  | succ n ih =>
    obtain ⟨hbefore, hend⟩ := tiles_last h
    have hscan : ((List.range (n + 1)).foldl (Recovered.scan goi) {}).globalSeq =
        max (goi n).totalOrder ((goi n).totalOrder + (goi n).messageCount) := by
      rw [range_succ, foldl_append, foldl_cons, foldl_nil, Recovered.scan]
      rw [if_neg (not_not.mpr (hindex n (Nat.lt_succ_self n)))]
      rw [← ih (fun i hi => hindex i (Nat.lt_succ_of_lt hi)) hbefore]
      split <;> rfl
    rw [hscan, max_eq_right (Nat.le_add_right _ _), hend]

end Commit

theorem Topic.Filled.numMsg (h : t.Filled es) (hf : t.inFlight = some f) :
    ∀ p ∈ Commit.batches (Commit.accepted t f), p.commitMeta.numMsg = p.numMsg := by
  intro p hp
  obtain ⟨hkept, hmark⟩ := mem_filter.mp hp
  have hready : p ∈ t.readyVector := by
    rw [Topic.readyVector, hf]
    exact Commit.accepted_subset t f p hkept
  rw [PendingBatch5.isMarker, Bool.not_or, Bool.and_eq_true, Bool.not_eq_true', Bool.not_eq_true'] at hmark
  obtain ⟨q, ⟨r, -, hscan, epoch, rfl⟩, hcarries⟩ := h.kept.ready p hready hmark.2
  have hhold : (r.markStale epoch).fromHold = false := by
    rw [(r.markStale_eq epoch).1]
    exact hscan.1
  rw [hcarries.commitMeta hhold]
  cases hcarries with
  | inl heq => rw [heq, PendingBatch5.cachedMeta_numMsg]
  | inr heq => rw [heq, PendingBatch5.cachedMeta_numMsg]

theorem Topic.globalSeq_of_step {e : Event} (hstep : step P t e = some t') :
    (∃ f, t.inFlight = some f ∧ t' = t.commit P f) ∨ (∃ n, t' = t.crash P n) ∨ t'.globalSeq = t.globalSeq := by
  cases e with
  | epoch _ _ | idleTick _ | finalDrain _ =>
    obtain ⟨clock, t₁, f, hx, rfl⟩ := extracts_of_step rfl hstep
    refine .inr (.inr ((congrArg Topic.globalSeq (frame_process (P := P) clock t₁ (t.level5 _))).trans ?_))
    rw [hx.start]
    rfl
  | commit =>
    obtain ⟨f, hf, rfl⟩ := Option.map_eq_some_iff.mp hstep
    exact .inl ⟨f, hf, rfl⟩
  | crash n =>
    cases hstep
    exact .inr (.inl ⟨n, rfl⟩)
  | takeFenceNote _ | ackEpochCheck _ _ | ackRelay _ =>
    obtain ⟨_, _, _, _, rfl⟩ := relays_of_step rfl hstep
    exact .inr (.inr rfl)
  | _ =>
    cases hstep
    exact .inr (.inr rfl)

namespace Topic.Dense

theorem commit (h : t.Dense) (hfilled : t.Filled es) (hf : t.inFlight = some f) : (t.commit P f).Dense := by
  have hmsgs : Commit.messages (Commit.accepted t f) =
      ((Commit.batches (Commit.accepted t f)).map (·.numMsg)).sum :=
    congrArg List.sum (map_congr_left (hfilled.numMsg hf))
  have hseq : (t.commit P f).globalSeq = t.globalSeq + Commit.messages (Commit.accepted t f) :=
    (commitEpoch_frontiers P t f).2.trans (congrArg (t.globalSeq + ·) hmsgs.symm)
  rw [Topic.Dense, upTo_commit, hseq, map_append]
  exact h.append (Commit.tiles_goiEntries ..)

theorem upTo (h : t.Dense) {n : Nat} (hn : n ≤ t.globalBatchSeq) :
    ∃ hi, Log.Tiles 0 ((Log.upTo t.cxl.goi n).map Commit.range) hi := by
  obtain ⟨rest, hrest⟩ := Log.upTo_prefix t.cxl.goi hn
  rw [Topic.Dense, ← hrest, map_append, Log.tiles_append] at h
  exact h.imp fun _ => And.left

theorem ordered (h : t.Dense) {i j : Nat} (hij : i < j) (hj : j < t.globalBatchSeq) :
    (t.cxl.goi i).totalOrder + (t.cxl.goi i).messageCount ≤ (t.cxl.goi j).totalOrder := by
  obtain ⟨_, htiles⟩ := h.upTo hj
  exact Commit.end_le_of_tiles (Commit.tiles_last htiles).1 i hij

theorem recovered (h : t.Dense) (hindexed : t.Indexed) (n : Nat) :
    Log.Tiles 0 ((Log.upTo t.cxl.goi t.cxl.committedLimit).map Commit.range) (t.crash P n).globalSeq := by
  obtain ⟨mid, htiles⟩ := h.upTo hindexed.limit_le
  have hgoi : ∀ i < t.cxl.committedLimit, (t.surviving P n).goi i = t.cxl.goi i := fun i hi =>
    t.goi_surviving P n (Nat.lt_of_lt_of_le hi hindexed.limit_le)
  have hlimit : (t.surviving P n).committedLimit = t.cxl.committedLimit := by
    rw [CxlMemory.committedLimit, CxlMemory.committedLimit, Topic.surviving, CxlMemory.committedSeq_writes]
  have hindex : ∀ i < t.cxl.committedLimit, ((t.surviving P n).goi i).globalSeq = i := by
    intro i hi
    rw [hgoi i hi]
    exact hindexed.globalSeq_eq (Nat.lt_of_lt_of_le hi hindexed.limit_le)
  have hscan := Commit.globalSeq_scan hindex (by rwa [Log.upTo_congr hgoi])
  rw [← hlimit] at hscan
  exact (show (t.crash P n).globalSeq = mid from hscan) ▸ htiles

theorem crash (h : t.Dense) (hindexed : t.Indexed) (n : Nat) : (t.crash P n).Dense := by
  obtain ⟨-, hext, hgbs⟩ := hindexed.crash (P := P) n
  rw [Topic.Dense, hgbs, Log.upTo_congr hext.goi]
  exact h.recovered hindexed n

theorem step {e : Event} (h : t.Dense) (hfilled : t.Filled es) (hstep : Embarcadero.step P t e = some t') :
    t'.Dense := by
  rcases Topic.globalSeq_of_step hstep with ⟨f, hf, rfl⟩ | ⟨n, rfl⟩ | hseq
  · exact h.commit hfilled hf
  · exact h.crash hfilled.indexed n
  cases Topic.seen_of_step hstep with
  | commit hf => exact h.commit hfilled hf
  | updateCommittedSeq n =>
    obtain ⟨s, hs⟩ := t.committedSeqUpdater_cxl n
    rw [Topic.Dense, hs]
    exact h
  | crash n => exact h.crash hfilled.indexed n
  | same hv =>
    simp only [Topic.view, Prod.mk.injEq] at hv
    rw [Topic.Dense, hv.1, hv.2.2.1, hseq]
    exact h

end Topic.Dense

theorem Topic.Extends.trans {u : Topic} (h : t.Extends t') (h' : t'.Extends u) : t.Extends u where
  limit := h.limit.trans h'.limit
  goi i hi := (h'.goi i (Nat.lt_of_lt_of_le hi h.limit)).trans (h.goi i hi)

theorem dense_of_run (hrun : Runs.Along (step P) (fun _ _ => True) (.fresh P) es t) : t.Indexed ∧ t.Dense := by
  have hinv := hrun.history (I := fun es t => t.Filled es ∧ t.Dense)
    (fun _ _ _ _ _ hs h => ⟨h.1.step hs, h.2.step h.1 hs⟩) ⟨Topic.filled_fresh P, rfl⟩
  exact hinv.imp_left Topic.Filled.indexed

/-- Total-order density over whole runs, crashes after any store included.  The GOI tiles the message
numbers handed out, and a restart at any point reuses exactly those past the committed entries. -/
theorem total_order_dense_restart (hrun : Runs.Along (step P) (fun _ _ => True) (.fresh P) es t) :
    Log.Tiles 0 ((Log.upTo t.cxl.goi t.globalBatchSeq).map Commit.range) t.globalSeq ∧
      ∀ n, (t.crash P n).globalBatchSeq = t.cxl.committedLimit ∧
        Log.Tiles 0 ((Log.upTo t.cxl.goi t.cxl.committedLimit).map Commit.range) (t.crash P n).globalSeq := by
  obtain ⟨hindexed, hdense⟩ := dense_of_run hrun
  exact ⟨hdense, fun n => ⟨(hindexed.crash n).2.2, hdense.recovered hindexed n⟩⟩

theorem total_order_dense_restart_restartRun :
    ∃ t, Runs.Along (step .small) (fun _ _ => True) (.fresh .small) restartRun t ∧
      (t.globalSeq, t.cxl.committedLimit) = (3, 2) ∧
      Log.Tiles 0 ((Log.upTo t.cxl.goi t.globalBatchSeq).map Commit.range) t.globalSeq ∧
      Log.Tiles 0 ((Log.upTo t.cxl.goi t.cxl.committedLimit).map Commit.range) (t.crash .small 0).globalSeq := by
  refine Runs.exists_of_exec (fun t : Topic => (t.globalSeq, t.cxl.committedLimit)) (3, 2) (by decide +kernel)
    fun t hrun ha => ?_
  exact ⟨ha, (total_order_dense_restart hrun).1, ((total_order_dense_restart hrun).2 0).2⟩

/-- The numbers of a committed entry are its own for good: whatever follows, restarts included, the
entry stays, and every entry after it has only larger numbers. -/
theorem committed_numbers_final {es' : List Event} {i j : Nat}
    (hrun : Runs.Along (step P) (fun _ _ => True) (.fresh P) es t)
    (hrun' : Runs.Along (step P) (fun _ _ => True) t es' t')
    (hi : i < t.cxl.committedLimit) (hij : i < j) (hj : j < t'.globalBatchSeq) :
    t'.cxl.goi i = t.cxl.goi i ∧
      (t.cxl.goi i).totalOrder + (t.cxl.goi i).messageCount ≤ (t'.cxl.goi j).totalOrder := by
  have hext : t.Extends t' := hrun'.relation (fun _ _ _ _ hs h => (Topic.Indexed.step h hs).1)
    (fun _ _ _ _ hs h => (Topic.Indexed.step h hs).2) (fun _ => ⟨Nat.le_refl _, fun _ _ => rfl⟩)
    (fun _ _ _ h h' => h.trans h') (dense_of_run hrun).1
  have heq := hext.goi i hi
  refine ⟨heq, ?_⟩
  rw [← heq]
  exact (dense_of_run (hrun.append hrun')).2.ordered hij hj

theorem committed_numbers_final_restartRun :
    ∃ t, Runs.Along (step .small) (fun _ _ => True) (.fresh .small) (restartRun.take 9) t ∧
      ∃ t', Runs.Along (step .small) (fun _ _ => True) t (restartRun.drop 9) t' ∧
        t'.cxl.goi 1 = t.cxl.goi 1 ∧
        (t.cxl.goi 1).totalOrder + (t.cxl.goi 1).messageCount ≤ (t'.cxl.goi 2).totalOrder := by
  refine Runs.exists_of_exec (fun t : Topic => (t.cxl.committedLimit, (Runs.exec (step .small) (fun _ _ => True) t
    (restartRun.drop 9)).map (·.globalBatchSeq))) (2, some 3) (by decide +kernel) fun t hrun ha => ?_
  obtain ⟨hlimit, hexec⟩ := Prod.mk.inj ha
  obtain ⟨t', hrun', hgbs⟩ := Runs.exists_along_of_exec hexec
  exact ⟨t', hrun', committed_numbers_final hrun hrun' (hlimit ▸ by decide) (by decide) (hgbs ▸ by decide)⟩

end Embarcadero
