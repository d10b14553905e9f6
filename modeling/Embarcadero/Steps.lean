import Embarcadero.Prefix

namespace Embarcadero

open List
open Function (update)

variable {P : Platform} {ident : Nat → SessionKey × Nat} {t t' : Topic} {k : SessionKey}

def Topic.core (t : Topic) :=
  (t.shards, t.inFlight, t.capacityExhausted, t.fenceNotes, t.recoveredNextExpected,
    t.currentEpochForHold, t.globalBatchSeq, t.nextExpectedStart, t.completedRanges, t.pendingRanges,
    t.cxl.goi, t.cxl.committedSeq)

theorem Topic.Ok.of_core (h : t.Ok P ident) (hcore : t'.core = t.core) (hget : t'.cxl.sessions.get = t.cxl.sessions.get)
    (hkeys : t'.cxl.sessions.KeysOk) (hpend : t'.PendingOk) : t'.Ok P ident := by
  simp only [Topic.core, Prod.mk.injEq] at hcore
  obtain ⟨hshards, hflight, hx, hnotes, hrec, hepoch, hgbs, hnext, hcr, hpr, hgoi, hcs⟩ := hcore
  have hexp : t'.cxl.sessions.expected = t.cxl.sessions.expected := by
    funext k
    rw [SessionTable.expected, SessionTable.expected, hget]
  have hfen : t'.cxl.sessions.fenced = t.cxl.sessions.fenced := by
    funext k
    rw [SessionTable.fenced, SessionTable.fenced, hget]
  have hready : t'.readyVector = t.readyVector := by rw [Topic.readyVector, hflight]; rfl
  have hT := h.classifier.table
  refine ⟨⟨hshards ▸ h.classifier.shards, ?_, ?_, hpend, hready ▸ h.classifier.consistent, ?_⟩, ?_, ?_, ?_, ?_, ?_⟩
  · rw [hrec]
    exact ⟨by simpa only [hexp, hget] using hT.active_of_expected,
      by simpa only [hfen, hget] using hT.active_of_fenced, by simpa only [hexp, hget] using hT.hwm,
      by simpa only [hget] using hT.epoch, by simpa only [hexp] using hT.recovered, hkeys⟩
  · intro m hm
    exact (h.classifier.notes m (hnotes ▸ hm)).extended (fun _ => by rw [hexp]) (by simp [hfen])
  · intro k hk hl
    rw [hepoch, hshards, hready]
    exact (h.classifier.sessions k hk ⟨hx ▸ hl.1, hfen ▸ hl.2⟩).sameTable (by rw [hexp])
  · rw [hgoi, hgbs]
    exact h.index
  · intro k hk
    rw [Topic.goiSeqs, hgoi, hgbs, hexp]
    exact h.seqs k hk
  · rw [CxlMemory.committedLimit, hcs, hgbs]
    exact h.committed
  · rw [hnext, hgbs]
    exact h.next
  · rw [hcr, hpr, hgbs]
    exact h.ranges

theorem Topic.Ok.slotWrite (h : t.Ok P ident) (a : SlotAddr) (hdr : BatchHeader) :
    ({ t with cxl := t.cxl.setSlot a hdr } : Topic).Ok P ident :=
  h.of_core rfl rfl h.classifier.table.keys h.classifier.pending

theorem Topic.tryAdmitSession_sessions (t : Topic) (k : SessionKey) :
    (t.tryAdmitSession k).cxl.sessions.get = t.cxl.sessions.get ∧
      (t.cxl.sessions.KeysOk → (t.tryAdmitSession k).cxl.sessions.KeysOk) := by
  unfold Topic.tryAdmitSession
  dsimp only
  split
  · cases hf : t.cxl.sessions.findOrCreate k with
    | none => exact ⟨rfl, id⟩
    | some table => exact ⟨(SessionTable.findOrCreate_eq_some hf).1, fun h => h.findOrCreate hf⟩
  · exact ⟨rfl, id⟩

theorem Topic.Ok.tryAdmitSession (h : t.Ok P ident) (k : SessionKey) : (t.tryAdmitSession k).Ok P ident :=
  h.of_core rfl (t.tryAdmitSession_sessions k).1
    ((t.tryAdmitSession_sessions k).2 h.classifier.table.keys) h.classifier.pending

theorem region_tailWrites (t : Topic) : ∀ w ∈ t.tailWrites, w.region = .frontier := by
  intro w hw
  obtain ⟨b, -, rfl⟩ := mem_map.mp hw
  rfl

theorem Topic.Ok.finishTail (h : t.Ok P ident) : t.finishTail.Ok P ident := by
  have hsess : t.finishTail.cxl.sessions = t.cxl.sessions :=
    CxlMemory.sessions_writes (fun w hw => by simp [region_tailWrites t w hw]) t.cxl
  have hgoi : t.finishTail.cxl.goi = t.cxl.goi :=
    CxlMemory.goi_writes (fun w hw => by simp [region_tailWrites t w hw]) t.cxl
  refine h.of_core ?_ (congrArg _ hsess) (hsess ▸ h.classifier.table.keys) h.classifier.pending
  rw [Topic.core, Topic.core, hgoi, Topic.finishTail, CxlMemory.committedSeq_writes]

theorem Topic.Ok.takeSessionFenceNotification (h : t.Ok P ident) (k : SessionKey)
    (m : SessionFenceNotification) : (t.takeSessionFenceNotification k m).Ok P ident := by
  refine h.of_core rfl rfl h.classifier.table.keys fun c m' hm' => ?_
  simp only [Topic.takeSessionFenceNotification] at hm'
  by_cases hc : c = k.clientId
  · simp [hc] at hm'
  · exact h.classifier.pending c m' (by simpa [hc] using hm')

theorem Topic.Ok.relayEpochStale (h : t.Ok P ident) (k : SessionKey) : (t.relayEpochStale k).Ok P ident :=
  h.of_core rfl rfl h.classifier.table.keys h.classifier.pending

theorem Topic.Ok.ackEpochCheck (h : t.Ok P ident) {w : SessionKey → Bool} (refresh : Bool) :
    ({ (if refresh then { t with cachedEpoch := t.cxl.controlEpoch } else t) with
      ackWithheld := w } : Topic).Ok P ident := by
  cases refresh <;> exact h.of_core rfl rfl h.classifier.table.keys h.classifier.pending

theorem Topic.Ok.bumpControlEpoch (h : t.Ok P ident) :
    ({ t with cxl.controlEpoch := t.cxl.controlEpoch + 1 } : Topic).Ok P ident :=
  h.of_core rfl rfl h.classifier.table.keys h.classifier.pending

variable {q : CompletedRange} {e : Event} {sh : Level5ShardState} {epoch : Nat} {table : SessionTable}

theorem insertRange_perm (r : CompletedRange) (qs : List CompletedRange) : (insertRange r qs).Perm (r :: qs) := by
  induction qs with
  | nil => rfl
  | cons a qs ih =>
    rw [insertRange]
    split
    · rfl
    · exact (ih.cons a).trans (.swap r a qs)

theorem insertRange_sorted {qs : List CompletedRange} (h : qs.Pairwise (·.start ≤ ·.start)) (r : CompletedRange) :
    (insertRange r qs).Pairwise (·.start ≤ ·.start) := by
  induction qs with
  | nil => exact pairwise_singleton _ _
  | cons a qs ih =>
    rw [pairwise_cons] at h
    rw [insertRange]
    split
    next hle =>
      refine pairwise_cons.mpr ⟨fun b hb => ?_, pairwise_cons.mpr h⟩
      cases hb with
      | head => exact hle
      | tail _ hb => exact hle.trans (h.1 b hb)
    next hlt =>
      refine pairwise_cons.mpr ⟨fun b hb => ?_, ih h.2⟩
      cases mem_cons.mp ((insertRange_perm r qs).mem_iff.mp hb) with
      | inl heq => exact heq ▸ Nat.le_of_not_le hlt
      | inr hb => exact h.1 b hb

theorem mem_foldl_insertRange (rs : List CompletedRange) :
    ∀ {qs : List CompletedRange}, q ∈ rs.foldl (fun q r => insertRange r q) qs → q ∈ rs ∨ q ∈ qs := by
  induction rs with
  | nil => exact fun h => .inr h
  | cons r rs ih =>
    intro qs h
    rcases ih h with h | h
    · exact .inl (.tail r h)
    · rcases mem_cons.mp ((insertRange_perm r qs).mem_iff.mp h) with rfl | h
      · exact .inl (.head rs)
      · exact .inr h

structure Advanced (qs : List CompletedRange) (next next' : Nat) (rest : List CompletedRange) : Prop where
  forward : next ≤ next'
  covered : ∀ i, next ≤ i → i < next' → ∃ r ∈ qs, r.start ≤ i ∧ i < r.stop
  kept : rest ⊆ qs
  settled : ∀ r ∈ qs, r ∈ rest ∨ r.stop ≤ next'
  reached : next < next' → ∃ r ∈ qs, r.stop = next'

theorem advanced_advanceRanges (qs : List CompletedRange) : ∀ next : Nat,
    Advanced qs next (advanceRanges next qs).1 (advanceRanges next qs).2 := by
  induction qs with
  | nil =>
    exact fun _ => ⟨Nat.le_refl _, fun i h h' => absurd h' (Nat.not_lt.mpr h), List.Subset.refl _, nofun,
      fun h => absurd h (Nat.lt_irrefl _)⟩
  | cons r qs ih =>
    intro next
    rw [advanceRanges]
    split
    next hstale =>
      have hrec := ih next
      refine { hrec with
        covered := fun i hi hi' => ?_
        kept := subset_cons_of_subset r hrec.kept
        settled := fun q hq => ?_
        reached := fun hlt => ?_ }
      · exact (hrec.covered i hi hi').imp fun q hq => hq.imp_left (.tail r)
      · cases hq with
        | head => exact .inr (hstale.trans hrec.forward)
        | tail _ hq => exact hrec.settled q hq
      · exact (hrec.reached hlt).imp fun q hq => hq.imp_left (.tail r)
    next hlive =>
      split
      next hstart =>
        have hrec := ih r.stop
        refine { hrec with
          forward := ?_
          covered := fun i hi hi' => ?_
          kept := subset_cons_of_subset r hrec.kept
          settled := fun q hq => ?_
          reached := fun _ => ?_ }
        · exact (Nat.le_of_not_le hlive).trans hrec.forward
        · cases Nat.lt_or_ge i r.stop with
          | inl hlt => exact ⟨r, .head _, hstart.trans hi, hlt⟩
          | inr hge => exact (hrec.covered i hge hi').imp fun q hq => hq.imp_left (.tail r)
        · cases hq with
          | head => exact .inr hrec.forward
          | tail _ hq => exact hrec.settled q hq
        · cases Nat.lt_or_eq_of_le hrec.forward with
          | inl hlt => exact (hrec.reached hlt).imp fun q hq => hq.imp_left (.tail r)
          | inr heq => exact ⟨r, .head _, heq⟩
      next hgap =>
        exact ⟨Nat.le_refl _, fun i hi hi' => absurd hi' (Nat.not_lt.mpr hi), List.Subset.refl _,
          fun q hq => .inl hq, fun hlt => absurd hlt (Nat.lt_irrefl _)⟩

theorem advanceRanges_gap (qs : List CompletedRange) : ∀ next : Nat, qs.Pairwise (·.start ≤ ·.start) →
    (advanceRanges next qs).2.Pairwise (·.start ≤ ·.start) ∧
      ∀ r ∈ (advanceRanges next qs).2, (advanceRanges next qs).1 < r.start := by
  induction qs with
  | nil => exact fun _ _ => ⟨.nil, nofun⟩
  | cons r qs ih =>
    intro next h
    obtain ⟨hhead, htail⟩ := pairwise_cons.mp h
    rw [advanceRanges]
    split
    · exact ih next htail
    · split
      · exact ih r.stop htail
      next hgap =>
        refine ⟨h, fun q hq => ?_⟩
        cases hq with
        | head => exact Nat.lt_of_not_le hgap
        | tail _ hq => exact Nat.lt_of_lt_of_le (Nat.lt_of_not_le hgap) (hhead q hq)

theorem advanceRanges_le {bound next : Nat} {qs : List CompletedRange} (hnext : next ≤ bound)
    (hqs : ∀ q ∈ qs, q.stop ≤ bound) : (advanceRanges next qs).1 ≤ bound := by
  have hadv := advanced_advanceRanges qs next
  cases Nat.lt_or_eq_of_le hadv.forward with
  | inl hlt =>
    obtain ⟨r, hr, hstop⟩ := hadv.reached hlt
    exact hstop ▸ hqs r hr
  | inr heq => exact heq ▸ hnext

theorem Topic.committedSeqUpdater_cxl (t : Topic) (n : Nat) :
    ∃ s, (t.committedSeqUpdater n).cxl = { t.cxl with committedSeq := s } := by
  unfold Topic.committedSeqUpdater
  dsimp only
  split
  · exact ⟨_, rfl⟩
  · exact ⟨_, rfl⟩

theorem Topic.Ok.committedSeqUpdater (h : t.Ok P ident) (n : Nat) : (t.committedSeqUpdater n).Ok P ident := by
  have hbound : ∀ q ∈ (t.completedRanges.take n).foldl (fun q r => insertRange r q)
      t.pendingRanges, q.stop ≤ t.globalBatchSeq := by
    intro q hq
    rcases mem_foldl_insertRange _ hq with hq | hq
    · exact h.ranges q (mem_append_left _ (mem_of_mem_take hq))
    · exact h.ranges q (mem_append_right _ hq)
  have hnext := advanceRanges_le h.next hbound
  have hlimit : (t.committedSeqUpdater n).cxl.committedLimit ≤ t.globalBatchSeq := by
    unfold Topic.committedSeqUpdater CxlMemory.committedLimit
    dsimp only
    split
    · simp only [Option.map_some, Option.getD_some]
      omega
    · exact h.committed
  obtain ⟨s, hs⟩ := t.committedSeqUpdater_cxl n
  have hsess : (t.committedSeqUpdater n).cxl.sessions = t.cxl.sessions := by rw [hs]
  have hgoi : (t.committedSeqUpdater n).cxl.goi = t.cxl.goi := by rw [hs]
  refine ⟨⟨h.classifier.shards, hsess ▸ h.classifier.table, hsess ▸ h.classifier.notes,
    h.classifier.pending, h.classifier.consistent, fun k hk hl => ?_⟩, ?_, fun k hk => ?_, ?_, hnext, fun q hq => ?_⟩
  · rw [hsess]
    exact h.classifier.sessions k hk ⟨hl.1, by rw [← hsess]; exact hl.2⟩
  · rw [hgoi]
    exact h.index
  · rw [Topic.goiSeqs, hgoi, hsess]
    exact h.seqs k hk
  · exact hlimit
  · rcases mem_append.mp hq with hq | hq
    · exact h.ranges q (mem_append_left _ (mem_of_mem_drop hq))
    · exact hbound q ((advanced_advanceRanges _ _).kept hq)

theorem SessionOk.frontier_atRest (h : SessionOk ident epoch table sh [] k) :
    frontier table sh k = table.expected k := by
  have hnil := h.ready
  rw [seqsOf_nil, eq_comm, List.range'_eq_nil_iff] at hnil
  have hle : table.expected k ≤ frontier table sh k := le_max_right _ _
  omega

theorem SessionOk.atRest (h : SessionOk ident epoch table sh [] k) (epoch' : Nat) :
    SessionOk ident epoch' table sh [] k := by
  refine ⟨h.unfenced, h.ready, h.emitted, h.stored, fun hlt => ?_, h.held⟩
  exact absurd h.frontier_atRest (Nat.ne_of_gt (hlt.trans_le (le_max_left _ _)))

theorem seqsOf_append_level0 {level0 ready : List PendingBatch5} (hk : k.Admitted)
    (h : ∀ p ∈ level0, p.commitMeta.clientId = 0) : seqsOf k (level0 ++ ready) = seqsOf k ready := by
  rw [seqsOf_append, seqsOf_eq_nil, nil_append]
  intro p hp _ hkey
  exact hk.1 (hkey ▸ h p hp)

def Identified (ident : Nat → SessionKey × Nat) (batchList : List PendingBatch5) : Prop :=
  ∀ p ∈ batchList, p.skipped = false → ident p.cachedBatchId = (p.key, p.batchSeq)

instance (batchList : List PendingBatch5) : Decidable (Identified ident batchList) :=
  inferInstanceAs (Decidable (∀ _ ∈ _, _ → _))

theorem PendingBatch5.markStale_eq (e : Nat) (p : PendingBatch5) :
    p.markStale e = { p with skipped := (p.markStale e).skipped } ∧
      ((p.markStale e).skipped = false → p.skipped = false) := by
  unfold PendingBatch5.markStale
  split
  · exact ⟨rfl, nofun⟩
  · exact ⟨rfl, id⟩

def Topic.level5 (t : Topic) (batchList : List PendingBatch5) : List PendingBatch5 :=
  (batchList.map (·.markStale t.cxl.controlEpoch)).filter (·.clientId ≠ 0)

def Topic.level0 (t : Topic) (batchList : List PendingBatch5) : List PendingBatch5 :=
  (batchList.map (·.markStale t.cxl.controlEpoch)).filter (·.clientId = 0)

structure Extracts (P : Platform) (t : Topic) (batchList : List PendingBatch5) (clock : PassClock)
    (t₁ : Topic) (f : EpochInFlight) : Prop where
  idle : t.Idle
  scanned : ∀ p ∈ batchList, p.Scanned
  start : t₁ = { t with
    currentEpochForHold := t₁.currentEpochForHold, cachedEpoch := t₁.cachedEpoch }
  ready : f.ready = t.level0 batchList ++ (processLevel5Batches P clock t₁ (t.level5 batchList)).2

structure Classifies (P : Platform) (ident : Nat → SessionKey × Nat) (t : Topic)
    (batchList : List PendingBatch5) (clock : PassClock) (t₁ : Topic) (f : EpochInFlight) : Prop
    extends Extracts P t batchList clock t₁ f where
  identified : Identified ident batchList

section

variable {batchList : List PendingBatch5} {clock : PassClock} {t₁ : Topic} {f : EpochInFlight}

theorem Classifies.inputOk (h : Classifies P ident t batchList clock t₁ f) :
    ∀ p ∈ t.level5 batchList, InputOk ident P.numShards (p.clientId % P.numShards) p := by
  intro p hp
  obtain ⟨hp, hc⟩ := mem_filter.mp hp
  obtain ⟨q, hq, rfl⟩ := mem_map.mp hp
  obtain ⟨heq, hskip⟩ := q.markStale_eq t.cxl.controlEpoch
  have hs := h.scanned q hq
  refine ⟨?_, fun hns => ?_, by simpa using hc, rfl⟩
  · rw [heq]
    exact ⟨hs.1, hs.2.1⟩
  · rw [heq]
    exact h.identified q hq (hskip hns)

theorem Classifies.level0 (h : Classifies P ident t batchList clock t₁ f) :
    ∀ p ∈ t.level0 batchList, p.commitMeta.clientId = 0 ∧ p.fromHold = false := by
  intro p hp
  obtain ⟨hp, hc⟩ := mem_filter.mp hp
  obtain ⟨q, hq, rfl⟩ := mem_map.mp hp
  have hhold : (q.markStale t.cxl.controlEpoch).fromHold = false := by
    rw [(q.markStale_eq _).1]
    exact (h.scanned q hq).1
  refine ⟨?_, hhold⟩
  rw [PendingBatch5.commitMeta, hhold]
  exact of_decide_eq_true hc

theorem Topic.Ok.atRest (h : t.Ok P ident) (hc : Classifies P ident t batchList clock t₁ f) :
    ClassifierOk P ident t₁ [] := by
  have hready : t.readyVector = [] := by
    rw [Topic.readyVector, Option.isNone_iff_eq_none.mp hc.idle.1]
    rfl
  have hclass := h.classifier
  rw [hready] at hclass
  rw [hc.start]
  exact ⟨hclass.shards, hclass.table, hclass.notes, hclass.pending, hclass.consistent,
    fun k hk hl => (hclass.sessions k hk hl).atRest _⟩

theorem Topic.Ok.classify (h : t.Ok P ident) (hc : Classifies P ident t batchList clock t₁ f) :
    ClassifierOk P ident (processLevel5Batches P clock t₁ (t.level5 batchList)).1
        (processLevel5Batches P clock t₁ (t.level5 batchList)).2 ∧
      t₁.Processed (processLevel5Batches P clock t₁ (t.level5 batchList)).1 :=
  (h.atRest hc).process clock hc.inputOk

theorem Topic.Ok.process (h : t.Ok P ident) (hcl : Classifies P ident t batchList clock t₁ f) :
    ({ (processLevel5Batches P clock t₁ (t.level5 batchList)).1 with
      inFlight := some f } : Topic).Ok P ident := by
  obtain ⟨hc, hproc⟩ := h.classify hcl
  have hcore := hcl.start
  have hf := hcl.ready
  have hshape := hproc.shape
  have hexp := hproc.expected
  generalize processLevel5Batches P clock t₁ (t.level5 batchList) = r at *
  have hgoi : r.1.cxl.goi = t.cxl.goi := by rw [hshape, hcore]
  have hgbs : r.1.globalBatchSeq = t.globalBatchSeq := by rw [hshape, hcore]
  have hcs : r.1.cxl.committedSeq = t.cxl.committedSeq := by rw [hshape, hcore]
  have hnext : r.1.nextExpectedStart = t.nextExpectedStart := by rw [hshape, hcore]
  have hcr : r.1.completedRanges = t.completedRanges := by rw [hshape, hcore]
  have hpr : r.1.pendingRanges = t.pendingRanges := by rw [hshape, hcore]
  have hsess : t₁.cxl.sessions = t.cxl.sessions := by rw [hcore]
  refine ⟨⟨hc.shards, hc.table, hc.notes, hc.pending, fun p hm hb => ?_, fun k hk hl => ?_⟩, ?_, ?_, ?_, ?_, ?_⟩
  · change p ∈ f.ready at hm
    rw [hf] at hm
    rcases mem_append.mp hm with hm | hm
    · intro hhold
      rw [(hcl.level0 p hm).2] at hhold
      cases hhold
    · exact hc.consistent p hm hb
  · change SessionOk ident r.1.currentEpochForHold r.1.cxl.sessions (r.1.shards _) f.ready k
    refine (hc.sessions k hk hl).untouched ⟨rfl, rfl, rfl, fun _ hs => .inl hs, ?_⟩
    rw [hf, seqsOf_append_level0 hk fun p hp => (hcl.level0 p hp).1]
  · dsimp only
    rw [hgoi, hgbs]
    exact h.index
  · intro k hk
    change committedSeqs r.1.cxl.goi r.1.globalBatchSeq k = List.range (r.1.cxl.sessions.expected k)
    rw [hgoi, hgbs, hexp, hsess]
    exact h.seqs k hk
  · change r.1.cxl.committedLimit ≤ r.1.globalBatchSeq
    rw [CxlMemory.committedLimit, hcs, hgbs]
    exact h.committed
  · change r.1.nextExpectedStart ≤ r.1.globalBatchSeq
    rw [hnext, hgbs]
    exact h.next
  · change ∀ q ∈ r.1.completedRanges ++ r.1.pendingRanges, q.stop ≤ r.1.globalBatchSeq
    rw [hcr, hpr, hgbs]
    exact h.ranges

end

def Event.batchList : Event → List PendingBatch5
  | .epoch batchList _ => batchList
  | _ => []

def Event.classifies : Event → Bool
  | .epoch .. | .idleTick _ | .finalDrain _ => true
  | _ => false

theorem extracts_of_step (he : e.classifies = true) (hstep : step P t e = some t') :
    ∃ clock t₁ f, Extracts P t e.batchList clock t₁ f ∧
      t' = { (processLevel5Batches P clock t₁ (t.level5 e.batchList)).1 with inFlight := some f } := by
  cases e with
  | epoch batchList clock =>
    obtain ⟨hguard, rfl⟩ := Runs.of_guard hstep
    exact ⟨clock, { t with
      currentEpochForHold := t.currentEpochForHold + 1, cachedEpoch := t.cxl.controlEpoch }, _,
      ⟨hguard.1, hguard.2, rfl, rfl⟩, rfl⟩
  | idleTick clock =>
    obtain ⟨hguard, rfl⟩ := Runs.of_guard hstep
    exact ⟨clock, t, _, ⟨hguard, nofun, rfl, rfl⟩, rfl⟩
  | finalDrain clock =>
    obtain ⟨hguard, rfl⟩ := Runs.of_guard hstep
    exact ⟨clock, t, _, ⟨hguard, nofun, rfl, rfl⟩, rfl⟩
  | _ => cases he

theorem classifies_of_step (he : e.classifies = true) (hident : Identified ident e.batchList)
    (hstep : step P t e = some t') :
    ∃ clock t₁ f, Classifies P ident t e.batchList clock t₁ f ∧
      t' = { (processLevel5Batches P clock t₁ (t.level5 e.batchList)).1 with inFlight := some f } := by
  obtain ⟨clock, t₁, f, hx, rfl⟩ := extracts_of_step he hstep
  exact ⟨clock, t₁, f, ⟨hx, hident⟩, rfl⟩

def Event.relays : Event → Bool
  | .takeFenceNote _ | .ackEpochCheck .. | .ackRelay _ => true
  | _ => false

theorem relays_of_step (he : e.relays = true) (hstep : step P t e = some t') :
    ∃ pending cached withheld sent, t' = { t with
      pendingSessionFences := pending, cachedEpoch := cached,
      ackWithheld := withheld, sentFences := sent } := by
  cases e with
  | takeFenceNote k =>
    obtain ⟨m, -, rfl⟩ := Option.map_eq_some_iff.mp hstep
    exact ⟨_, _, _, _, rfl⟩
  | ackEpochCheck k refresh =>
    cases hstep
    cases refresh with
    | true => exact ⟨_, _, _, _, rfl⟩
    | false => exact ⟨_, _, _, _, rfl⟩
  | ackRelay k =>
    obtain ⟨-, rfl⟩ := Runs.of_guard hstep
    exact ⟨_, _, _, _, rfl⟩
  | _ => cases he

end Embarcadero
