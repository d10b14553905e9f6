import Embarcadero.Continuation

namespace Embarcadero

variable {P : Platform} {ident : Nat → SessionKey × Nat} {t t' : Topic} {k : SessionKey} {n : Nat}
  {es es' : List Event}

def Fed (ident : Nat → SessionKey × Nat) (_ : Topic) : Event → Prop
  | .epoch batchList _ => Identified ident batchList
  | _ => True

instance (ident : Nat → SessionKey × Nat) (t : Topic) : (e : Event) → Decidable (Fed ident t e)
  | .epoch batchList _ => inferInstanceAs (Decidable (Identified ident batchList))
  | .commit | .crash _ | .slotWrite .. | .admitSession _ | .idleTick _ | .finalDrain _ | .tail
  | .updateCommittedSeq _ | .bumpControlEpoch | .takeFenceNote _ | .ackEpochCheck ..
  | .ackRelay _ => isTrue trivial

/-- In a clean run the GOI entries of a session carry `0, 1, 2, …` in index order. -/
theorem session_prefix_commit (hk : k.Admitted) (hrun : Runs.Along (step P) (Clean P ident) (.fresh P) es t) :
    ∃ n, t.goiSeqs k = List.range n :=
  ⟨_, ((Topic.ok_fresh P).run hrun).seqs k hk⟩

section Scenario

def publishedSlot (b l seq : Nat) : BatchHeader where
  batchSeq := seq
  clientId := 7
  numMsg := 1
  batchComplete := true
  brokerId := b
  valid := true
  epochCreated := 1
  sessionEpoch := 1
  sessionEpoch32 := 1
  batchId := b * 100 + l * 10 + seq
  pbrAbsoluteIndex := l
  totalSize := 64
  publishCommit := some l

def publishSlot (b l seq : Nat) : Event := .slotWrite ⟨b, l % 4⟩ (publishedSlot b l seq)

def scanSlot (b l seq : Nat) : PendingBatch5 := .ofSlot b (l % 4) (publishedSlot b l seq)

def scenarioIdent (id : Nat) : SessionKey × Nat := (⟨7, 1⟩, id % 10)

def scenarioClock (nowNs : Nat) : PassClock := ⟨fun _ => nowNs, nowNs, false⟩

def restartRun : List Event :=
  [publishSlot 0 0 1, .epoch [scanSlot 0 0 1] (scenarioClock 1), .commit, .tail,
    publishSlot 0 1 0, .epoch [scanSlot 0 1 0] (scenarioClock 2), .commit, .tail, .updateCommittedSeq 1, .crash 0,
    publishSlot 0 2 0, publishSlot 0 3 2, .epoch [scanSlot 0 2 0, scanSlot 0 3 2] (scenarioClock 3), .commit, .tail]

theorem session_prefix_commit_restartRun :
    ∃ t, Runs.Along (step .small) (Clean .small scenarioIdent) (.fresh .small) restartRun t ∧
      t.goiSeqs ⟨7, 1⟩ = [0, 1, 2] ∧ ∃ n, t.goiSeqs ⟨7, 1⟩ = List.range n := by
  obtain ⟨t, hrun, hseqs⟩ := Runs.exists_along_of_exec (f := fun t : Topic => t.goiSeqs ⟨7, 1⟩)
    (show (Runs.exec (step .small) (Clean .small scenarioIdent) (.fresh .small) restartRun).map
      (·.goiSeqs ⟨7, 1⟩) = some [0, 1, 2] by decide +kernel)
  exact ⟨t, hrun, hseqs, session_prefix_commit (by decide) hrun⟩

def clobberRun : List Event :=
  [publishSlot 0 0 0, publishSlot 0 1 1, publishSlot 0 2 2,
    .epoch [scanSlot 0 0 0, scanSlot 0 1 1, scanSlot 0 2 2] (scenarioClock 1), .commit, .tail,
    publishSlot 1 0 0, publishSlot 1 1 1, publishSlot 1 2 2,
    .epoch [scanSlot 1 0 0, scanSlot 1 1 1, scanSlot 1 2 2] (scenarioClock 2), .commit, .tail,
    publishSlot 1 3 3, .epoch [scanSlot 1 3 3] (scenarioClock 3), publishSlot 1 4 4, .commit, .tail,
    .epoch [scanSlot 1 4 4] (scenarioClock 4), .commit, .tail]

/-- The GOI entry of batch 4 records the export sequence number of the descriptor. -/
theorem session_prefix_fails_clobberRun :
    ∃ t, Runs.Along (step .small) (Fed scenarioIdent) (.fresh .small) clobberRun t ∧
      t.goiSeqs ⟨7, 1⟩ = [0, 1, 2, 3, 0] ∧ ¬∃ n, t.goiSeqs ⟨7, 1⟩ = List.range n := by
  obtain ⟨t, hrun, hseqs⟩ := Runs.exists_along_of_exec (f := fun t : Topic => t.goiSeqs ⟨7, 1⟩)
    (show (Runs.exec (step .small) (Fed scenarioIdent) (.fresh .small) clobberRun).map
      (·.goiSeqs ⟨7, 1⟩) = some [0, 1, 2, 3, 0] by decide +kernel)
  refine ⟨t, hrun, hseqs, fun ⟨n, hn⟩ => ?_⟩
  have hlen := congrArg List.length hn
  rw [hseqs, List.length_range] at hlen
  rw [hseqs, ← hlen] at hn
  exact absurd hn (by decide)

end Scenario

theorem Topic.Continues.goiSeqs (h : t.Continues t') (k : SessionKey) : t.goiSeqs k <+: t'.goiSeqs k := by
  have hkept : Log.upTo t.cxl.goi t.globalBatchSeq <+: Log.upTo t'.cxl.goi t'.globalBatchSeq := by
    rw [← Log.upTo_congr h.goi]
    exact Log.upTo_prefix _ h.index
  exact (hkept.filter _).map _

/-- After a settled crash every session resumes right behind its entries in the kept GOI prefix.
Whatever the new sequencer does afterwards, the kept entries stay, nothing below the resumed
frontier is missing, and no sequence number is committed twice. -/
theorem recovery_consistent (hrun : Runs.Along (step P) (Clean P ident) (.fresh P) es t) (hs : t.Settled P n)
    (hk : k.Admitted) (hrun' : Runs.Along (step P) (Clean P ident) (t.crash P n) es' t') :
    (t.crash P n).recoveredNextExpected k = ((t.crash P n).goiSeqs k).length ∧
      (∀ i < (t.crash P n).globalBatchSeq, t'.cxl.goi i = (t.crash P n).cxl.goi i) ∧
      (∀ s < (t.crash P n).recoveredNextExpected k, s ∈ t'.goiSeqs k) ∧ (t'.goiSeqs k).Nodup := by
  have hok := (Topic.ok_fresh P).run hrun
  have hcrash := hok.crash hs
  have hcont := hcrash.continues hrun'
  have hexp : (t.crash P n).cxl.sessions.expected k = t.cxl.sessions.expected k := by
    rw [SessionTable.expected, SessionTable.expected, ← hs.get]
    exact congrArg (fun c : SessionTable => (c.get k).expectedSeq) (sequencer5_cxl P (t.surviving P n)).2.1
  have hrec : (t.crash P n).recoveredNextExpected k = (t.crash P n).cxl.sessions.expected k :=
    (hok.recovered_crash hs hk).trans hexp.symm
  refine ⟨?_, hcont.goi, fun s hlt => ?_, ?_⟩
  · rw [hcrash.seqs k hk, List.length_range, hrec]
  · refine (hcont.goiSeqs k).subset ?_
    rw [hcrash.seqs k hk, ← hrec]
    exact List.mem_range.mpr hlt
  · rw [(hcrash.run hrun').seqs k hk]
    exact List.nodup_range

section Scenario

def coveredRun : List Event :=
  [publishSlot 0 0 0, publishSlot 0 1 1, .epoch [scanSlot 0 0 0, scanSlot 0 1 1] (scenarioClock 1), .commit, .tail,
    .updateCommittedSeq 1, publishSlot 0 2 2, .epoch [scanSlot 0 2 2] (scenarioClock 2)]

theorem recovery_consistent_coveredRun :
    ∃ t t', Runs.Along (step .small) (Clean .small scenarioIdent) (.fresh .small) coveredRun t ∧
      t.Settled .small 3 ∧
      Runs.Along (step .small) (Clean .small scenarioIdent) (t.crash .small 3)
        [publishSlot 0 3 2, .epoch [scanSlot 0 3 2] (scenarioClock 3), .commit] t' ∧
      (t.crash .small 3).recoveredNextExpected ⟨7, 1⟩ = 2 ∧ t'.goiSeqs ⟨7, 1⟩ = [0, 1, 2] ∧
      ∀ s < (t.crash .small 3).recoveredNextExpected ⟨7, 1⟩, s ∈ t'.goiSeqs ⟨7, 1⟩ := by
  obtain ⟨t, hrun, ha⟩ := Runs.exists_along_of_exec (f := fun t : Topic => (decide (t.Settled .small 3),
      (Runs.exec (step .small) (Clean .small scenarioIdent) (t.crash .small 3)
        [publishSlot 0 3 2, .epoch [scanSlot 0 3 2] (scenarioClock 3), .commit]).map fun t' =>
          ((t.crash .small 3).recoveredNextExpected ⟨7, 1⟩, t'.goiSeqs ⟨7, 1⟩)))
    (show (Runs.exec (step .small) (Clean .small scenarioIdent) (.fresh .small) coveredRun).map _ =
      some (true, some (2, [0, 1, 2])) by decide +kernel)
  obtain ⟨hset, hexec⟩ := Prod.mk.inj ha
  obtain ⟨t', hrun', hseqs⟩ := Runs.exists_along_of_exec hexec
  obtain ⟨hrec, hseqs⟩ := Prod.mk.inj hseqs
  have hset := of_decide_eq_true hset
  exact ⟨t, t', hrun, hset, hrun', hrec, hseqs, (recovery_consistent hrun hset (by decide) hrun').2.2.1⟩

def uncoveredRun : List Event :=
  [publishSlot 0 0 0, .epoch [scanSlot 0 0 0] (scenarioClock 1), .commit, .crash 0]

/-- The new sequencer expects batch 1 next but keeps no entry of batch 0. -/
theorem recovery_inconsistent_uncoveredRun :
    ∃ t, Runs.Along (step .small) (Fed scenarioIdent) (.fresh .small) uncoveredRun t ∧
      t.recoveredNextExpected ⟨7, 1⟩ = 1 ∧ t.globalBatchSeq = 0 ∧
      t.recoveredNextExpected ⟨7, 1⟩ ≠ (t.goiSeqs ⟨7, 1⟩).length := by
  refine Runs.exists_of_exec (fun t : Topic => (t.recoveredNextExpected ⟨7, 1⟩, t.globalBatchSeq, t.goiSeqs ⟨7, 1⟩))
    (1, 0, []) (by decide +kernel) fun t hrun ha => ?_
  obtain ⟨hrec, ha⟩ := Prod.mk.inj ha
  obtain ⟨hgbs, hseqs⟩ := Prod.mk.inj ha
  exact ⟨hrec, hgbs, by rw [hrec, hseqs]; decide⟩

end Scenario

end Embarcadero
