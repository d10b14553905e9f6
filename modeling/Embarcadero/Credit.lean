import Embarcadero.CreditPass
import Embarcadero.SessionSafety

namespace Embarcadero

open List
open Function (update)

variable {P : Platform} {ident : Nat → SessionKey × Nat} {t t' : Topic} {k : SessionKey} {n : Nat}
  {es : List Event}

variable {f : EpochInFlight} {e : Event} {level5 : List PendingBatch5} {clock : PassClock}

theorem shards_process_range (clock : PassClock) (h : ClassifierOk P ident t [])
    (hp : ∀ p ∈ level5, InputOk ident P.numShards (p.clientId % P.numShards) p) (n j : Nat) (hj : n ≤ j) :
    ((List.range n).foldl (processShard P clock level5) (t, [])).1.shards j = t.shards j := by
  induction n with
  | zero => rfl
  | succ n ih =>
    obtain ⟨hok, hfrom, -⟩ := h.process_range clock hp n
    have hx := passOk_shard clock _ (hok.passOk hfrom) (inputOk_of_shard hp n)
    rw [range_succ, foldl_append, foldl_cons, foldl_nil]
    refine (Function.update_of_ne (Nat.ne_of_gt hj) ..).trans ?_
    rw [← ih (Nat.le_of_succ_le hj)]
    have hshards := congrArg (fun t : Topic => t.shards j) hx.classified.shape
    exact hshards

theorem ordered_process {S : SessionKey → Nat → Prop} (h : ClassifierOk P ident t [])
    (hp : ∀ p ∈ level5, InputOk ident P.numShards (p.clientId % P.numShards) p)
    (hrem : ∀ i, Remembers P i S { topic := t, shard := t.shards i })
    (hS : ∀ i < P.numShards, ∀ p ∈ level5.filter (·.clientId % P.numShards = i) ++
      (t.shards i).deferredLevel5, p.skipped = false → p.key.Admitted ∧ S p.key p.batchSeq) :
    (processLevel5Batches P clock t level5).1.perClientOrdered = t.perClientOrdered := by
  rw [processLevel5Batches_eq]
  split
  · rfl
  suffices hall : ∀ n ≤ P.numShards, ((List.range n).foldl (processShard P clock level5)
      (t, [])).1.perClientOrdered = t.perClientOrdered from hall P.numShards (Nat.le_refl _)
  intro n
  induction n with
  | zero => exact fun _ => rfl
  | succ n ih =>
    intro hn
    obtain ⟨hok, hfrom, hproc⟩ := h.process_range clock hp n
    have hsh := shards_process_range clock h hp n n (Nat.le_refl n)
    rw [range_succ, foldl_append, foldl_cons, foldl_nil]
    refine Eq.trans ?_ (ih (Nat.le_of_succ_le hn))
    refine ordered_shard (S := S) clock _ (hok.passOk hfrom) (inputOk_of_shard hp n)
      ⟨fun _ => rfl, fun k hk hi hl s hs hlt => ?_⟩ fun p hm => ?_
    · dsimp only at hlt ⊢
      rw [hsh] at hlt ⊢
      refine (hrem n).known k hk hi (hproc.live hl) s hs ?_
      rwa [frontier, hproc.expected] at hlt
    · rw [hsh] at hm
      exact hS n hn p hm

def Topic.toClassify (P : Platform) (t : Topic) (batchList : List PendingBatch5) :
    List PendingBatch5 :=
  batchList ++ (List.range P.numShards).flatMap fun i => (t.shards i).deferredLevel5

def Topic.Remembered (P : Platform) (t : Topic) (batchList : List PendingBatch5) : Prop :=
  ∀ p ∈ t.toClassify P batchList, p.skipped = false → p.key.Admitted ∧
    (p.batchSeq < t.cxl.sessions.expected p.key → t.cxl.sessions.fenced p.key = false →
      ((t.shards (p.clientId % P.numShards)).clientEmittedTracker p.key).isEmitted p.batchSeq = true)

instance (batchList : List PendingBatch5) : Decidable (t.Remembered P batchList) :=
  inferInstanceAs (Decidable (∀ _ ∈ _, _ → _ ∧ (_ → _ → _)))

theorem Topic.Ok.ordered_classify (h : t.Ok P ident) {batchList : List PendingBatch5} {t₁ : Topic}
    (hcl : Classifies P ident t batchList clock t₁ f) (hr : t.Remembered P batchList) :
    (processLevel5Batches P clock t₁ (t.level5 batchList)).1.perClientOrdered = t.perClientOrdered := by
  have hclass := h.atRest hcl
  have hsess : t₁.cxl.sessions = t.cxl.sessions := by rw [hcl.start]
  have hshards : t₁.shards = t.shards := by rw [hcl.start]
  have hordered : t₁.perClientOrdered = t.perClientOrdered := by rw [hcl.start]
  -- What the shards must know: published numbers that come in again.
  refine (ordered_process (S := fun k s => t.cxl.sessions.expected k ≤ s ∨
    ∃ p ∈ t.toClassify P batchList, p.skipped = false ∧ p.key = k ∧ p.batchSeq = s) hclass
    hcl.inputOk (fun i => ⟨fun _ => rfl, fun k hk hi hl s hS hlt => ?_⟩) fun i hi p hm hskip => ?_).trans hordered
  · subst hi
    have hrest := (hclass.sessions k hk hl).frontier_atRest
    dsimp only at hlt ⊢
    rw [hrest, hsess] at hlt
    obtain ⟨p, hm, hskip, rfl, rfl⟩ := hS.resolve_left (Nat.not_le_of_lt hlt)
    rw [hshards]
    exact (hr p hm hskip).2 hlt (hsess ▸ hl.2)
  · have hq : ∃ q ∈ t.toClassify P batchList, q.skipped = false ∧ q.key = p.key ∧ q.batchSeq = p.batchSeq := by
      rcases mem_append.mp hm with hm | hm
      · obtain ⟨hm, -⟩ := mem_filter.mp hm
        obtain ⟨hm, -⟩ := mem_filter.mp hm
        obtain ⟨q, hq, rfl⟩ := mem_map.mp hm
        obtain ⟨heq, hns⟩ := q.markStale_eq t.cxl.controlEpoch
        exact ⟨q, mem_append_left _ hq, hns hskip, by rw [heq]; rfl, by rw [heq]⟩
      · rw [hshards] at hm
        exact ⟨p, mem_append_right _ (mem_flatMap.mpr ⟨i, mem_range.mpr hi, hm⟩), hskip, rfl, rfl⟩
    obtain ⟨q, hq, hqs, hkey, hseq⟩ := hq
    exact ⟨hkey ▸ (hr q hq hqs).1, .inr ⟨q, hq, hqs, hkey, hseq⟩⟩

def clientMessages (entries : List GOIEntry) (c : Nat) : Nat :=
  ((entries.filter (·.clientId = c)).map (·.messageCount)).sum

theorem clientMessages_append (a b : List GOIEntry) (c : Nat) :
    clientMessages (a ++ b) c = clientMessages a c + clientMessages b c := by
  simp [clientMessages]

def creditDue (entries : List GOIEntry) (c : Nat) : Nat :=
  (((entries.filter (·.clientId = c)).pwFilter fun a b =>
    (a.sessionEpoch, a.clientSeq) ≠ (b.sessionEpoch, b.clientSeq)).map (·.messageCount)).sum

structure CreditOk (P : Platform) (ident : Nat → SessionKey × Nat) (t : Topic) : Prop where
  ok : t.Ok P ident
  admitted : ∀ e ∈ Log.upTo t.cxl.goi t.globalBatchSeq, e.key.Admitted
  sum : ∀ c, t.perClientOrdered c = clientMessages (Log.upTo t.cxl.goi t.globalBatchSeq) c

theorem CreditOk.of_eq (h : CreditOk P ident t) (hok : t'.Ok P ident)
    (hgoi : t'.cxl.goi = t.cxl.goi) (hgbs : t'.globalBatchSeq = t.globalBatchSeq)
    (ho : t'.perClientOrdered = t.perClientOrdered) : CreditOk P ident t' where
  ok := hok
  admitted := by
    rw [hgoi, hgbs]
    exact h.admitted
  sum := by
    rw [hgoi, hgbs, ho]
    exact h.sum

theorem commitEpoch_perClientOrdered (P : Platform) (t : Topic) (f : EpochInFlight) (c : Nat) :
    (commitEpoch P t f).perClientOrdered c =
      t.perClientOrdered c + Commit.clientDelta (Commit.committed (Commit.accepted t f)) c := by
  cases hx : t.capacityExhausted with
  | true =>
    rw [commitEpoch_of_exhausted P t f hx]
    simp [Commit.accepted, hx, Commit.clientDelta, Commit.committed]
  | false =>
    rw [commitEpoch_of_running P t f hx]
    cases ho : Commit.outcome t (Commit.guardAll t f.ready) with
    | stopped => simp [Commit.accepted, hx, ho, Commit.localEffects, Commit.clientDelta,
        Commit.committed, Topic.stopForCapacityExhaustion]
    | nothingReady =>
      simp [Commit.accepted, hx, ho, Commit.localEffects, Commit.clientDelta, Commit.committed]
    | committed kept firstGoi n firstMessage msgs =>
      simp [Commit.accepted, hx, ho, Commit.localEffects]

theorem clientMessages_entries (t : Topic) (f : EpochInFlight) (c : Nat) :
    clientMessages (Commit.entries t f) c = Commit.clientDelta (Commit.committed (Commit.accepted t f)) c := by
  have hmap := Commit.map_goiEntries t.cxl (Commit.accepted t f) t.globalBatchSeq t.globalSeq t.cxl.ordered
  have hsplit : clientMessages (Commit.entries t f) c =
      ((((Commit.entries t f).map fun e => (e.key, e.clientSeq, e.messageCount)).filter
        (·.1.clientId = c)).map (·.2.2)).sum := by
    rw [filter_map, map_map]
    rfl
  rw [hsplit, Commit.entries, hmap, Commit.clientDelta, Commit.committed, filter_map, filter_map, map_map, map_map]
  rfl

theorem key_entries_admitted (hf : t.inFlight = some f)
    (hadm : ∀ p ∈ t.readyVector, p.isMarker = false → p.commitMeta.key.Admitted) :
    ∀ e ∈ Commit.entries t f, e.key.Admitted := by
  intro e he
  obtain ⟨p, hp, hkey⟩ := Commit.exists_batch_of_mem_entries he
  obtain ⟨hp, hm⟩ := mem_filter.mp hp
  rw [← hkey]
  refine hadm p ?_ (by simpa using hm)
  simpa [Topic.readyVector, hf] using Commit.accepted_subset t f p hp

theorem CreditOk.commit (h : CreditOk P ident t) (hf : t.inFlight = some f) (hu : t.Unclobbered)
    (hadm : ∀ p ∈ t.readyVector, p.isMarker = false → p.commitMeta.key.Admitted) : CreditOk P ident (t.commit P f) := by
  refine ⟨h.ok.commit hf hu, fun e he => ?_, fun c => ?_⟩
  · rw [upTo_commit] at he
    rcases mem_append.mp he with he | he
    · exact h.admitted e he
    · exact key_entries_admitted hf hadm e he
  · rw [upTo_commit, clientMessages_append, ← h.sum c, clientMessages_entries]
    exact commitEpoch_perClientOrdered P t f c

theorem CreditOk.crash (h : CreditOk P ident t) (hs : t.Settled P n) : CreditOk P ident (t.crash P n) := by
  have hupTo : Log.upTo (t.crash P n).cxl.goi (t.crash P n).globalBatchSeq = Log.upTo t.cxl.goi t.globalBatchSeq := by
    rw [h.ok.globalBatchSeq_crash hs]
    exact Log.upTo_congr fun i hi => (h.ok.continues_crash hs).goi i hi
  refine ⟨h.ok.crash hs, ?_, fun c => ?_⟩
  · rw [hupTo]
    exact h.admitted
  · rw [hupTo]
    refine ((h.ok.scanned hs).messages c).trans ?_
    rw [sessionMessages, clientMessages]
    congr 2
    refine filter_congr fun e he => ?_
    have hne : e.sessionEpoch ≠ 0 := (h.admitted e he).2
    simp [hne]

def Crediting (P : Platform) (ident : Nat → SessionKey × Nat) (t : Topic) (e : Event) : Prop :=
  Clean P ident t e ∧ match e with
    | .epoch batchList _ => t.Remembered P batchList
    | .idleTick _ | .finalDrain _ => t.Remembered P []
    | .commit => ∀ p ∈ t.readyVector, p.isMarker = false → p.commitMeta.key.Admitted
    | _ => True

instance (P : Platform) (ident : Nat → SessionKey × Nat) (t : Topic) :
    (e : Event) → Decidable (Crediting P ident t e)
  | .epoch batchList clock => inferInstanceAs (Decidable
      (Clean P ident t (.epoch batchList clock) ∧ t.Remembered P batchList))
  | .idleTick clock => inferInstanceAs (Decidable
      (Clean P ident t (.idleTick clock) ∧ t.Remembered P []))
  | .finalDrain clock => inferInstanceAs (Decidable
      (Clean P ident t (.finalDrain clock) ∧ t.Remembered P []))
  | .commit => inferInstanceAs (Decidable (Clean P ident t .commit ∧ ∀ _ ∈ _, _ → _))
  | .crash _ | .slotWrite .. | .admitSession _ | .tail | .updateCommittedSeq _ | .bumpControlEpoch
  | .takeFenceNote _ | .ackEpochCheck .. | .ackRelay _ =>
    inferInstanceAs (Decidable (Clean P ident t _ ∧ True))

theorem Crediting.remembered (h : Crediting P ident t e) (he : e.classifies = true) : t.Remembered P e.batchList := by
  cases e with
  | epoch _ _ | idleTick _ | finalDrain _ => exact h.2
  | _ => cases he

theorem CreditOk.step (h : CreditOk P ident t) (hc : Crediting P ident t e) (hstep : Embarcadero.step P t e = some t') :
    CreditOk P ident t' := by
  have hok := h.ok.step hc.1 hstep
  cases e with
  | epoch _ _ | idleTick _ | finalDrain _ =>
    obtain ⟨clock, t₁, f, hcl, rfl⟩ := classifies_of_step rfl hc.1.identified hstep
    have hproc := (h.ok.classify hcl).2
    have ho := h.ok.ordered_classify hcl (hc.remembered rfl)
    have hgoi := congrArg (fun t : Topic => t.cxl.goi) hproc.shape
    have hgoi₁ := congrArg (fun t : Topic => t.cxl.goi) hcl.start
    have hnext := congrArg Topic.globalBatchSeq hproc.shape
    have hnext₁ := congrArg Topic.globalBatchSeq hcl.start
    exact h.of_eq hok (hgoi.trans hgoi₁) (hnext.trans hnext₁) ho
  | commit =>
    obtain ⟨f, hf, rfl⟩ := Option.map_eq_some_iff.mp hstep
    exact h.commit hf hc.1 hc.2
  | crash n =>
    cases hstep
    exact h.crash hc.1
  | tail =>
    cases hstep
    exact h.of_eq hok (CxlMemory.goi_writes (fun w hw => by simp [region_tailWrites t w hw]) t.cxl) rfl rfl
  | updateCommittedSeq n =>
    cases hstep
    obtain ⟨s, hs⟩ := Topic.committedSeqUpdater_cxl t n
    exact h.of_eq hok (by rw [hs]) rfl rfl
  | takeFenceNote _ | ackEpochCheck _ _ | ackRelay _ =>
    obtain ⟨_, _, _, _, rfl⟩ := relays_of_step rfl hstep
    exact h.of_eq hok rfl rfl rfl
  | slotWrite a hdr | admitSession k | bumpControlEpoch =>
    cases hstep
    exact h.of_eq hok rfl rfl rfl

theorem creditOk_fresh (P : Platform) : CreditOk P ident (.fresh P) :=
  ⟨Topic.ok_fresh P, nofun, fun _ => rfl⟩

theorem CreditOk.pairwise (h : CreditOk P ident t) :
    (Log.upTo t.cxl.goi t.globalBatchSeq).Pairwise fun a b => (a.key, a.clientSeq) ≠ (b.key, b.clientSeq) := by
  refine Log.pairwise_of_filter (f := GOIEntry.key) (g := GOIEntry.clientSeq) fun k => ?_
  by_cases hk : k.Admitted
  · have hseqs : committedSeqs t.cxl.goi t.globalBatchSeq k = _ := h.ok.seqs k hk
    rw [committedSeqs] at hseqs
    rw [hseqs]
    exact nodup_range
  · have hnil : (Log.upTo t.cxl.goi t.globalBatchSeq).filter (fun e => e.key = k) = [] :=
      filter_eq_nil_iff.mpr fun e he hkey => hk (of_decide_eq_true hkey ▸ h.admitted e he)
    rw [hnil]
    exact nodup_nil

/-- ACK1 is exact under the crediting condition: the counter of a client is the number of its
messages in the GOI, each (session epoch, sequence number) counted once. -/
theorem ordered_credit_exact (hrun : Runs.Along (step P) (Crediting P ident) (.fresh P) es t)
    (c : Nat) : t.perClientOrdered c = creditDue (Log.upTo t.cxl.goi t.globalBatchSeq) c := by
  have h : CreditOk P ident t :=
    hrun.invariant (fun _ _ _ hc hs h => h.step hc hs) (creditOk_fresh P)
  have hdistinct : ((Log.upTo t.cxl.goi t.globalBatchSeq).filter (·.clientId = c)).Pairwise
      fun a b => (a.sessionEpoch, a.clientSeq) ≠ (b.sessionEpoch, b.clientSeq) := by
    refine List.Pairwise.imp_of_mem (fun {a b} ha hb hab heq => hab ?_) (h.pairwise.filter _)
    have hca : a.clientId = c := by simpa using (mem_filter.mp ha).2
    have hcb : b.clientId = c := by simpa using (mem_filter.mp hb).2
    obtain ⟨he, hs⟩ := Prod.mk.inj heq
    rw [GOIEntry.key, GOIEntry.key, hca, hcb, he, hs]
  rw [h.sum c, creditDue, pwFilter_eq_self.mpr hdistinct, clientMessages]

section Scenario

def creditRun : List Event :=
  [publishSlot 0 0 1, .epoch [scanSlot 0 0 1] (scenarioClock 1), .commit, .tail,
    publishSlot 0 1 0, .epoch [scanSlot 0 1 0] (scenarioClock 2), .commit, .tail,
    publishSlot 0 2 0, .epoch [scanSlot 0 2 0] (scenarioClock 3), .commit, .tail,
    .updateCommittedSeq 1, .crash 0, publishSlot 0 3 2, .epoch [scanSlot 0 3 2] (scenarioClock 4), .commit]

theorem ordered_credit_exact_creditRun :
    ∃ t, Runs.Along (step .small) (Crediting .small scenarioIdent) (.fresh .small) creditRun t ∧
      t.perClientOrdered 7 = 3 ∧
      t.perClientOrdered 7 = creditDue (Log.upTo t.cxl.goi t.globalBatchSeq) 7 := by
  refine Runs.exists_of_exec (fun t : Topic => t.perClientOrdered 7) 3 (by decide +kernel) fun t hrun ha => ?_
  exact ⟨ha, ordered_credit_exact hrun 7⟩

def overCreditRun : List Event :=
  [publishSlot 0 0 0, .epoch [scanSlot 0 0 0] (scenarioClock 1), .commit, .tail, .updateCommittedSeq 1, .crash 0,
    publishSlot 0 1 2, .epoch [scanSlot 0 1 2] (scenarioClock 2), .commit, .tail,
    publishSlot 0 2 0, .epoch [scanSlot 0 2 0] (scenarioClock 3), .commit, .tail]

theorem ordered_credit_exceeds_overCreditRun :
    ∃ t, Runs.Along (step .small) (Fed scenarioIdent) (.fresh .small) overCreditRun t ∧
      t.perClientOrdered 7 = 2 ∧ t.goiSeqs ⟨7, 1⟩ = [0] ∧
      t.perClientOrdered 7 ≠ creditDue (Log.upTo t.cxl.goi t.globalBatchSeq) 7 := by
  refine Runs.exists_of_exec (fun t : Topic => (t.perClientOrdered 7, t.goiSeqs ⟨7, 1⟩,
    creditDue (Log.upTo t.cxl.goi t.globalBatchSeq) 7)) (2, [0], 1) (by decide +kernel) fun t hrun ha => ?_
  obtain ⟨ho, ha⟩ := Prod.mk.inj ha
  obtain ⟨hseqs, hdue⟩ := Prod.mk.inj ha
  exact ⟨ho, hseqs, by rw [ho, hdue]; decide⟩

end Scenario

end Embarcadero
