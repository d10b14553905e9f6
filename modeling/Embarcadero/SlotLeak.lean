import Embarcadero.SlotReuse

namespace Embarcadero

open List

namespace Cluster

variable {P : Platform} {incoming : Nat → Nat → BatchHeader} {s s' : Cluster} {b : Nat}

def Extracted (s : Cluster) (b l : Nat) : Prop :=
  l ∈ s.scanned b ∧ (b, l) ∉ s.collected.map (·.position)

structure Whole (s : Cluster) (b : Nat) (f : EpochInFlight) : Prop where
  known : ∀ l, s.Extracted b l → l < s.frontier b ∨ ∃ p ∈ f.batchList, p.position = (b, l)
  order : ∀ p ∈ f.batchList, p.brokerId = b → ∀ l, s.frontier b ≤ l → l < p.cachedPbrAbsoluteIndex →
    ∃ q ∈ f.batchList, q.position = (b, l)
  sees : ∀ p ∈ f.batchList, p.brokerId = b → f.Sees b

structure Tight (P : Platform) (incoming : Nat → Nat → BatchHeader) (b : Nat) (s : Cluster) :
    Prop where
  stops : s.topic.inFlight = none → s.topic.capacityExhausted = false → s.Extracted b (s.frontier b) →
      0 < s.topic.keeps P.numShards (owner incoming) (b, s.frontier b)
  clear : s.topic.inFlight = none → s.topic.capacityExhausted = false →
    (∀ l, s.topic.keeps P.numShards (owner incoming) (b, l) = 0) →
      ∀ l, s.Extracted b l → l < s.frontier b
  flight : ∀ f, s.topic.inFlight = some f → s.topic.capacityExhausted = false → s.Whole b f

def Settles (incoming : Nat → Nat → BatchHeader) (P : Platform) (b : Nat) (s : Cluster) :
    ClusterEvent → Prop
  | .extract batchList _ _ =>
    (∀ l < s.nextSlotSeq b, s.topic.keeps P.numShards (owner incoming) (b, l) = 0) ∧
      ∀ p ∈ batchList, p.brokerId = b → ∀ l < p.cachedPbrAbsoluteIndex, s.frontier b ≤ l →
        (b, l) ∈ batchList.map (·.position)
  | .sequencer (.idleTick _) | .sequencer (.finalDrain _) =>
    ∀ l < s.nextSlotSeq b, s.topic.keeps P.numShards (owner incoming) (b, l) = 0
  | _ => True

instance (incoming : Nat → Nat → BatchHeader) (P : Platform) (b : Nat) (s : Cluster) :
    ∀ e, Decidable (s.Settles incoming P b e)
  | .extract batchList _ _ => inferInstanceAs (Decidable (
      (∀ l < s.nextSlotSeq b, s.topic.keeps P.numShards (owner incoming) (b, l) = 0) ∧
        ∀ p ∈ batchList, p.brokerId = b → ∀ l < p.cachedPbrAbsoluteIndex, s.frontier b ≤ l →
          (b, l) ∈ batchList.map (·.position)))
  | .sequencer (.idleTick _) | .sequencer (.finalDrain _) => inferInstanceAs (Decidable (
      ∀ l < s.nextSlotSeq b, s.topic.keeps P.numShards (owner incoming) (b, l) = 0))
  | .reserve _ | .refresh _ | .install .. | .publish .. | .scan .. | .skip .. | .stop | .restart _ =>
    .isTrue trivial
  | .sequencer (.slotWrite ..) | .sequencer (.admitSession _) | .sequencer (.epoch ..)
  | .sequencer .commit | .sequencer .tail | .sequencer (.updateCommittedSeq _)
  | .sequencer (.crash _) | .sequencer .bumpControlEpoch | .sequencer (.takeFenceNote _)
  | .sequencer (.ackEpochCheck ..) | .sequencer (.ackRelay _) => .isTrue trivial

theorem Tight.of_eq (h : s.Tight P incoming b) (hflight : s'.topic.inFlight = s.topic.inFlight)
    (hshards : s'.topic.shards = s.topic.shards) (hx : s'.topic.capacityExhausted = s.topic.capacityExhausted)
    (hfront : s'.frontier b = s.frontier b) (hdone : ∀ l, s'.Extracted b l → s.Extracted b l) :
    s'.Tight P incoming b := by
  have hkeeps := keeps_of_shards hshards P.numShards (owner incoming)
  refine ⟨fun hf he hd => ?_, fun hf he hk l hd => ?_, fun f hf he => ?_⟩
  · rw [hfront] at hd ⊢
    rw [hkeeps]
    exact h.stops (hflight ▸ hf) (hx ▸ he) (hdone _ hd)
  · rw [hfront]
    exact h.clear (hflight ▸ hf) (hx ▸ he) (fun l => hkeeps _ ▸ hk l) l (hdone l hd)
  · obtain ⟨hknown, horder, hsees⟩ := h.flight f (hflight ▸ hf) (hx ▸ he)
    exact ⟨fun l hd => hfront ▸ hknown l (hdone l hd), hfront ▸ horder, hsees⟩

theorem Extracted.of_push {p : PendingBatch5} {l : Nat} (h : (s.push p).Extracted b l) : s.Extracted b l := by
  obtain ⟨hscan, hbuf⟩ := h
  dsimp only [Cluster.push] at hscan hbuf
  rw [map_append, mem_append, not_or] at hbuf
  refine ⟨?_, hbuf.1⟩
  rw [Function.update_apply] at hscan
  split at hscan
  next hb =>
    cases mem_cons.mp hscan with
    | inl heq => exact absurd (mem_singleton.mpr (by rw [heq, hb]; rfl)) hbuf.2
    | inr hmem => exact hb ▸ hmem
  · exact hscan

theorem Tight.atRest (h : s.Tight P incoming b) (hok : s.Ok P incoming) (hb : b < numMaxBrokers)
    (hidle : s.topic.Idle) (hx : s.topic.capacityExhausted = false)
    (hnone : ∀ l < s.nextSlotSeq b, s.topic.keeps P.numShards (owner incoming) (b, l) = 0) :
    ∀ l, s.Extracted b l → l < s.frontier b := by
  apply h.clear (Option.isNone_iff_eq_none.mp hidle.1) hx
  intro l
  apply Nat.eq_zero_of_not_pos
  intro hpos
  have huse : 0 < s.uses P incoming (b, l) := by
    rw [uses]
    omega
  have := hnone l (hok.reserved b hb l (hok.known huse).2)
  omega

variable {f : EpochInFlight} {t : Topic}

theorem exhausted_process (clock : PassClock) (level5 : List PendingBatch5)
    (h : (processLevel5Batches P clock t level5).1.capacityExhausted = false) : t.capacityExhausted = false := by
  rw [processLevel5Batches_eq] at h
  split at h
  · exact h
  · exact Bool.eq_false_iff.mpr ‹_›

theorem Tight.extract (h : s.Tight P incoming b) (hok : s.Ok P incoming) (hb : b < numMaxBrokers)
    {batchList rest : List PendingBatch5} {clock : PassClock} (hperm : (batchList ++ rest).Perm s.collected)
    (hidle : s.topic.Idle) (hs : s.Settles incoming P b (.extract batchList rest clock)) :
    Tight P incoming b
      { s.observe P (s.topic.beginEpoch P batchList clock) with collected := rest } := by
  refine ⟨nofun, nofun, fun f hf hx => ?_⟩
  have hx' : s.topic.capacityExhausted = false := exhausted_process clock (t := { s.topic with
    currentEpochForHold := s.topic.currentEpochForHold + 1
    cachedEpoch := s.topic.cxl.controlEpoch }) (s.topic.level5 batchList) hx
  have hrest := h.atRest hok hb hidle hx' hs.1
  have hle := le_unwrapPBRConsumed (s.frontier b)
    ((s.topic.beginEpoch P batchList clock).cxl.consumedSlot P.slots b) P.slots
  cases hf
  refine ⟨fun l hd => ?_, fun p hp hpb l hl hl' => ?_, fun p hp hpb => ?_⟩
  · by_cases hbuf : (b, l) ∈ s.collected.map (·.position)
    · -- it has left the epoch buffers with this epoch
      have hmem := (hperm.map (·.position)).symm.subset hbuf
      rw [map_append] at hmem
      cases mem_append.mp hmem with
      | inl hin =>
        obtain ⟨q, hq, hat⟩ := mem_map.mp hin
        exact .inr ⟨_, mem_map.mpr ⟨q, hq, rfl⟩, (position_markStale q _).trans hat⟩
      | inr hout => exact absurd hout hd.2
    · exact .inl (Nat.lt_of_lt_of_le (hrest l ⟨hd.1, hbuf⟩) hle)
  · obtain ⟨q, hq, rfl⟩ := mem_map.mp hp
    rw [(q.markStale_eq _).1] at hpb hl'
    obtain ⟨r, hr, hat⟩ := mem_map.mp (hs.2 q hq hpb l hl' (hle.trans hl))
    exact ⟨_, mem_map.mpr ⟨r, hr, rfl⟩, (position_markStale r _).trans hat⟩
  · refine ⟨hb, Bool.and_eq_true_iff.mpr ⟨decide_eq_true hb, any_eq_true.mpr ⟨p, hp, ?_⟩⟩⟩
    exact decide_eq_true hpb

theorem Tight.drain (h : s.Tight P incoming b) (hok : s.Ok P incoming) (hb : b < numMaxBrokers) (hidle : s.topic.Idle)
    (hflight : t.inFlight = some f) (hnil : f.batchList = [])
    (hx : t.capacityExhausted = false → s.topic.capacityExhausted = false)
    (hnone : ∀ l < s.nextSlotSeq b, s.topic.keeps P.numShards (owner incoming) (b, l) = 0) :
    (s.observe P t).Tight P incoming b := by
  have hempty : ∀ p, p ∉ f.batchList := by
    rw [hnil]
    exact nofun
  have hsome : ∀ g, t.inFlight = some g → f = g := fun g hg => Option.some.inj (hflight.symm.trans hg)
  refine ⟨fun hf => ?_, fun hf => ?_, fun g hg hx' => ?_⟩
  · cases hflight.symm.trans hf
  · cases hflight.symm.trans hf
  · obtain rfl := hsome g hg
    refine ⟨fun l hd => .inl ?_, fun p hp => absurd hp (hempty p), fun p hp => absurd hp (hempty p)⟩
    exact Nat.lt_of_lt_of_le (h.atRest hok hb hidle (hx hx') hnone l hd) (le_unwrapPBRConsumed ..)

theorem Tight.commit (h : s.Tight P incoming b) (hok : s.Ok P incoming) (hf : s.topic.inFlight = some f) :
    (s.observe P (s.topic.commit P f)).Tight P incoming b := by
  have hkeeps := keeps_of_shards (shards_commit P s.topic f) P.numShards (owner incoming)
  cases commitsRings_commitEpoch P s.topic f with
  | stopped hconsumed htail hx =>
    have hnot : (s.topic.commit P f).capacityExhausted ≠ false :=
      fun hx' => Bool.noConfusion (hx.symm.trans hx')
    exact ⟨fun _ hx' => absurd hx' hnot, fun _ hx' => absurd hx' hnot, nofun⟩
  | done hx hconsumed htail =>
    have hwhole := h.flight f hf hx
    by_cases hin : ∃ p ∈ f.batchList, p.brokerId = b
    · obtain ⟨p, hp, hpb⟩ := hin
      have hsee := hwhole.sees p hp hpb
      obtain ⟨r, hr, hstop⟩ := hok.frees_contiguousAfter hf hsee
      have hfront : (s.observe P (s.topic.commit P f)).frontier b = r := by
        apply hok.frontier_observe hsee.1 _ hr.start hr.lap fun l hl hl' => (hr.free l hl hl').1
        rw [show (s.topic.commit P f).cxl.consumedThrough b = _ from hconsumed b, if_pos ⟨ne_nil_of_mem hp, hsee⟩]
        exact hr.points
      -- a batch of the epoch at or behind the new frontier means that one at the frontier is kept
      have hkept : ∀ l, s.Extracted b l → r ≤ l → 0 < s.topic.keeps P.numShards (owner incoming) (b, r) := by
        intro l hd hle
        cases hwhole.known l hd with
        | inl hlt => exact absurd (hr.start.trans hle) (Nat.not_le.mpr hlt)
        | inr hmem =>
          obtain ⟨q, hq, hat⟩ := hmem
          obtain ⟨hqb, hql⟩ := Prod.mk.inj hat
          cases Nat.eq_or_lt_of_le hle with
          | inl heq => exact hstop q hq (heq ▸ hat)
          | inr hlt =>
            obtain ⟨q', hq', hat'⟩ := hwhole.order q hq hqb r hr.start (hql ▸ hlt)
            exact hstop q' hq' hat'
      refine ⟨fun _ _ hd => ?_, fun _ _ hk l hd => ?_, nofun⟩
      · rw [hfront] at hd ⊢
        exact hkeeps _ ▸ hkept r hd (Nat.le_refl _)
      · rw [hfront]
        by_contra hle
        have hpos := hkept l hd (Nat.not_lt.mp hle)
        exact absurd ((hkeeps (b, r)).symm.trans (hk r)) (Nat.ne_of_gt hpos)
    · have hall : ∀ l, s.Extracted b l → l < (s.observe P (s.topic.commit P f)).frontier b := by
        intro l hd
        cases hwhole.known l hd with
        | inl hlt => exact Nat.lt_of_lt_of_le hlt (le_unwrapPBRConsumed ..)
        | inr hmem =>
          obtain ⟨q, hq, hat⟩ := hmem
          exact absurd ⟨q, hq, (Prod.mk.inj hat).1⟩ hin
      exact ⟨fun _ _ hd => absurd (hall _ hd) (Nat.lt_irrefl _), fun _ _ _ => hall, nofun⟩

theorem Tight.finishTail (h : s.Tight P incoming b) (hok : s.Ok P incoming)
    (hb : b < numMaxBrokers) : (s.observe P s.topic.finishTail).Tight P incoming b := by
  obtain ⟨r, hle, hlap, hpoints, hfree⟩ := hok.tail b hb
  have hfront := hok.frontier_observe hb hpoints hle hlap fun l hl hl' => (hfree l hl hl').1
  by_cases hsame : r = s.frontier b
  · exact h.of_eq rfl rfl rfl (hfront.trans hsame) fun _ hd => hd
  · -- otherwise the position at the frontier was free before
    obtain ⟨hscan, huse⟩ := hfree (s.frontier b) (Nat.le_refl _) (by omega)
    rw [uses, Nat.add_eq_zero_iff, Nat.add_eq_zero_iff] at huse
    have hout : (b, s.frontier b) ∉ s.collected.map (·.position) := count_eq_zero.mp huse.2
    have hfull : s.topic.inFlight = none → s.topic.capacityExhausted = false → False := by
      intro hf hx
      have := h.stops hf hx ⟨hscan, hout⟩
      omega
    refine ⟨fun hf hx => absurd hx fun hx => hfull hf hx, fun hf hx => absurd hx fun hx => hfull hf hx,
      fun f hf hx => ?_⟩
    have hcxl := finishTail_of_nil (hok.flight f hf).1
    exact absurd (hfront.symm.trans (hok.frontier_observe_same hb (congrArg CxlMemory.consumedThrough hcxl))) hsame

theorem Tight.restart (hok : s.Ok P incoming) (hb : b < numMaxBrokers) (hq : s.Quiet P) (n : Nat) :
    Tight P incoming b { s.observe P (s.topic.crash P n) with
      collected := [], lastPushedPbrIndex := fun _ _ => none, stopThreads := false } := by
  have hall : ∀ l ∈ s.scanned b, l < (s.observe P (s.topic.crash P n)).frontier b := by
    intro l hl
    have hlt := hok.reserved b hb l hl
    rw [← (hq.2.2 b hb).1] at hlt
    exact Nat.lt_of_lt_of_le hlt (le_unwrapPBRConsumed ..)
  exact ⟨fun _ _ hd => absurd (hall _ hd.1) (Nat.lt_irrefl _), fun _ _ _ l hd => hall l hd.1, nofun⟩

theorem tight_fresh (P : Platform) (incoming : Nat → Nat → BatchHeader) (b : Nat) :
    (Cluster.fresh P).Tight P incoming b := by
  have hnone : ∀ l, ¬(Cluster.fresh P).Extracted b l := fun l hd => not_mem_nil hd.1
  exact ⟨fun _ _ hd => absurd hd (hnone _), fun _ _ _ l hd => absurd hd (hnone l), nofun⟩

theorem Tight.sequencer (h : s.Tight P incoming b) (hok : s.Ok P incoming)
    (hb : b < numMaxBrokers) {e : Event} (hs : s.Settles incoming P b (.sequencer e))
    (hstep : s.step incoming P (.sequencer e) = some s') : s'.Tight P incoming b := by
  obtain ⟨t, ht, rfl⟩ := sequencer_of_step hstep
  cases ht with
  | idleTick hidle => exact h.drain hok hb hidle rfl rfl (exhausted_process _ []) hs
  | finalDrain hidle => exact h.drain hok hb hidle rfl rfl (exhausted_process _ []) hs
  | commit hf => exact h.commit hok hf
  | tail => exact h.finishTail hok hb
  | beside hbeside =>
    exact h.of_eq hbeside.inFlight hbeside.shards hbeside.capacityExhausted
      (hok.frontier_observe_same hb hbeside.consumedThrough) fun _ hd => hd

theorem Tight.step (h : s.Tight P incoming b) (hok : s.Ok P incoming) (hb : b < numMaxBrokers)
    {e : ClusterEvent} (hc : s.Careful incoming P e) (hs : s.Settles incoming P b e)
    (hstep : s.step incoming P e = some s') : s'.Tight P incoming b := by
  cases e with
  | reserve | install =>
    obtain ⟨-, rfl⟩ := Runs.of_guard hstep
    exact h.of_eq rfl rfl rfl rfl fun _ hd => hd
  | refresh | stop =>
    cases hstep
    exact h.of_eq rfl rfl rfl rfl fun _ hd => hd
  | publish =>
    obtain ⟨-, rfl | rfl⟩ := publish_of_step hstep <;> exact h.of_eq rfl rfl rfl rfl fun _ hd => hd
  | scan b' i =>
    obtain ⟨-, rfl⟩ := Runs.of_guard hstep
    exact h.of_eq rfl rfl rfl rfl fun _ hd => .of_push (p := .ofSlot b' i (s.slot b' i)) hd
  | skip =>
    obtain ⟨-, rfl⟩ := Runs.of_guard hstep
    exact h.of_eq rfl rfl rfl rfl fun _ => .of_push
  | extract batchList rest clock =>
    obtain ⟨hperm, hidle, -, rfl⟩ := extract_of_step hstep
    exact h.extract hok hb hperm hidle hs
  | sequencer e => exact h.sequencer hok hb hs hstep
  | restart n =>
    cases hstep
    exact .restart hok hb hc n

/-- Once an epoch is committed, `consumed_through` of a broker that leaves nothing over points at the
first position that has not been extracted or is still kept. -/
theorem no_slot_leak (P : Platform) (incoming : Nat → Nat → BatchHeader) (hb : b < numMaxBrokers)
    {es : List ClusterEvent} (h : Runs.Along (Cluster.step incoming P)
      (fun s e => s.Careful incoming P e ∧ s.Settles incoming P b e) (.fresh P) es s) (hidle : s.topic.Idle)
    (hx : s.topic.capacityExhausted = false) :
    s.topic.cxl.consumedSlot P.slots b = s.frontier b % P.slots ∧
      (∀ l < s.frontier b, l ∈ s.scanned b ∧ ¬s.topic.Keeps (b, l)) ∧
      (s.Extracted b (s.frontier b) → s.topic.Keeps (b, s.frontier b)) ∧
      ((∀ l, ¬s.topic.Keeps (b, l)) → ∀ l, s.Extracted b l → l < s.frontier b) := by
  have hboth : s.Ok P incoming ∧ s.Tight P incoming b :=
    h.invariant (I := fun s => s.Ok P incoming ∧ s.Tight P incoming b) (fun _ _ _ hc hstep hs =>
      ⟨hs.1.step hc.1 hstep, hs.2.step hs.1 hb hc.1 hc.2 hstep⟩)
      ⟨ok_fresh P incoming, tight_fresh P incoming b⟩
  obtain ⟨hok, htight⟩ := hboth
  have hnone := Option.isNone_iff_eq_none.mp hidle.1
  refine ⟨(hok.points b hb).slot, fun l hl => ⟨hok.passed b hb l hl, fun hk => ?_⟩, fun hd => ?_,
    fun hk => htight.clear hnone hx fun l => Nat.eq_zero_of_not_pos fun hpos => ?_⟩
  · exact Nat.not_lt.mpr (hok.low_of_keeps hb hk) hl
  · exact Topic.keeps_of_pos (htight.stops hnone hx hd)
  · exact hk l (Topic.keeps_of_pos hpos)

theorem no_slot_leak_twoBrokersRun :
    ∃ s, Runs.Along (Cluster.step (overtaken 1) .small)
        (fun s e => s.Careful (overtaken 1) .small e ∧ s.Settles (overtaken 1) .small 1 e)
        (.fresh .small) twoBrokersRun s ∧
      (s.topic.Idle ∧ s.topic.capacityExhausted = false) ∧ s.frontier 1 = 1 ∧
      (s.Extracted 1 (s.frontier 1) → s.topic.Keeps (1, s.frontier 1)) := by
  refine Runs.exists_of_exec (fun s : Cluster =>
    (decide (s.topic.Idle ∧ s.topic.capacityExhausted = false), s.frontier 1))
    (true, 1) (by decide +kernel) fun s hrun hs => ?_
  obtain ⟨hidle, hfront⟩ := Prod.mk.inj hs
  have hrest := of_decide_eq_true hidle
  exact ⟨hrest, hfront, (no_slot_leak .small (overtaken 1) (by decide) hrun hrest.1 hrest.2).2.2.1⟩

/-- Batch 1 is held at position 0 of broker 0; the epoch that releases it is of broker 1.  Both
batches are committed and nothing is held, and slot 0 of broker 0 is never given back. -/
theorem consumed_through_stays_behind :
    ∃ s, Runs.Along (Cluster.step (overtaken 1) .small) (Careful (overtaken 1) .small)
        (.fresh .small) twoBrokersRun s ∧
      (s.topic.Idle ∧ s.topic.capacityExhausted = false ∧ s.topic.globalBatchSeq = 2) ∧
      (∀ l, ¬s.topic.Keeps (0, l)) ∧ s.Extracted 0 0 ∧ s.frontier 0 = 0 := by
  refine Runs.exists_of_exec (fun s : Cluster =>
    (decide (s.topic.Idle ∧ s.topic.capacityExhausted = false ∧ s.topic.globalBatchSeq = 2), s.scanned 0,
      s.collected.map (·.position), s.frontier 0, s.topic.keeps Platform.small.numShards (owner (overtaken 1)) (0, 0)))
    (true, [0], [], 0, 0) (by decide +kernel) fun s hrun hs => ?_
  obtain ⟨hidle, hs⟩ := Prod.mk.inj hs
  obtain ⟨hscan, hs⟩ := Prod.mk.inj hs
  obtain ⟨hbuf, hs⟩ := Prod.mk.inj hs
  obtain ⟨hfront, hzero⟩ := Prod.mk.inj hs
  have hok : s.Ok .small (overtaken 1) :=
    hrun.invariant (fun _ _ _ hc hstep hs => hs.step hc hstep) (ok_fresh .small (overtaken 1))
  refine ⟨of_decide_eq_true hidle, fun l hk => ?_, ⟨?_, ?_⟩, hfront⟩
  · have hpos := hok.filed.keeps_pos (fun p hp => hp.1.sited.owner) hk
    have hmem : l ∈ s.scanned 0 := (hok.known (hok.pos_of_keeps hk)).2
    rw [hscan] at hmem
    rw [mem_singleton.mp hmem, hzero] at hpos
    cases hpos
  · rw [hscan]
    exact mem_singleton.mpr rfl
  · rw [hbuf]
    exact not_mem_nil

end Cluster

end Embarcadero
