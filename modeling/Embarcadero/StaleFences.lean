import Embarcadero.Fences
import Embarcadero.Publisher

namespace Embarcadero

open List

variable {p p' : Publisher} {e : PublisherEvent} {es : List PublisherEvent} {s : FenceSignal}
  {r : Rollover}

namespace Publisher

def start (ackLevel : Nat) (ownedRtoCopy : Bool) : Publisher := { ackLevel, ownedRtoCopy }

def SameSession (p p' : Publisher) : Prop :=
  p'.sessionEpoch = p.sessionEpoch ∧ p'.rollover = p.rollover

theorem SameSession.refl (p : Publisher) : SameSession p p := ⟨rfl, rfl⟩

theorem SameSession.trans {p₁ p₂ p₃ : Publisher} (h : SameSession p₁ p₂) (h' : SameSession p₂ p₃) :
    SameSession p₁ p₃ := ⟨h'.1.trans h.1, h'.2.trans h.2⟩

theorem sameSession_advance (p : Publisher) : SameSession p p.advanceRetireThroughTrimmedHoles := by
  rw [advanceRetireThroughTrimmedHoles]
  split
  · exact .refl p
  · exact ⟨rfl, rfl⟩

theorem sameSession_trim (p : Publisher) (hwm : Nat) : SameSession p (p.trimUnackedThroughBatchSeq hwm) :=
  SameSession.trans ⟨rfl, rfl⟩ (sameSession_advance _)

theorem sameSession_record (p : Publisher) (b : SentBatch) : SameSession p (p.recordUnackedBatch b) := by
  rw [recordUnackedBatch]
  split
  · exact .refl p
  · split
    · exact sameSession_advance p
    · exact ⟨rfl, rfl⟩

theorem sameSession_heal (p : Publisher) : SameSession p p.heal := by
  rw [heal]
  split
  · exact sameSession_advance p
  · exact .refl p

theorem sameSession_retireFront {ackHwm : Nat} (h : p.retireFront ackHwm = some p') : SameSession p p' := by
  rw [retireFront] at h
  split at h
  · cases h
  · dsimp only at h
    split at h
    · cases h
    · cases h
      exact ⟨rfl, rfl⟩

theorem sameSession_completeLoop (ackHwm fuel : Nat) : ∀ p : Publisher, SameSession p (completeLoop ackHwm fuel p) := by
  induction fuel with
  | zero => exact SameSession.refl
  | succ fuel ih =>
    intro p
    rw [completeLoop]
    split
    · exact sameSession_heal p
    · exact ((sameSession_heal p).trans (sameSession_retireFront ‹_›)).trans (ih _)

theorem sameSession_complete (p : Publisher) (ackHwm : Nat) : SameSession p (p.completeUnackedThrough ackHwm) := by
  rw [completeUnackedThrough]
  split
  · exact .refl p
  · exact sameSession_completeLoop _ _ p

theorem sameSession_wireAck (p : Publisher) (sock acked : Nat) : SameSession p (p.wireAck sock acked) := by
  rw [wireAck]
  dsimp only
  split
  · exact .refl p
  · have h := sameSession_complete { p with
      order5LastAckHwm := max p.ackMessageBase acked
      prevAckPerSock := Function.update p.prevAckPerSock sock (some (max p.ackMessageBase acked)) }
      (max p.ackMessageBase acked)
    exact ⟨h.1, h.2⟩

theorem sameSession_opened (p : Publisher) (a : SessionOpenAck) :
    SameSession (p.adoptEpoch a.assignedSessionEpoch) (p.sessionOpened a) := by
  rw [sessionOpened]
  split
  · exact sameSession_trim _ _
  · exact .refl _

def live (committed : Nat → Nat → Bool) (p : Publisher) : List UnackedBatch :=
  p.unackedBatches.filter fun r =>
    r.sessionEpoch == p.sessionEpoch && !committed r.sessionEpoch r.currentBatchSeq

theorem live_of_none_committed {committed : Nat → Nat → Bool} (h : ∀ seq, committed p.sessionEpoch seq = false) :
    p.live committed = p.live fun _ _ => false := by
  apply filter_congr
  intro r _
  by_cases hr : r.sessionEpoch = p.sessionEpoch
  · simp [hr, h]
  · simp [hr]

def bodies (p : Publisher) : List BatchBody :=
  p.unackedBatches.map (·.body) ++ p.queue.map (·.body)

structure Keeps (committed : Nat → Nat → Bool) (p p' : Publisher) : Prop where
  bodies : ((p.live committed).map (·.body) ++ p.queue.map (·.body)).Subperm p'.bodies
  credit : ∃ credited, credited.Sublist p.unackedBatches ∧
    p'.ackReceived = p.ackReceived + numMsgs credited ∧ ∀ r ∈ credited, r ∉ p.live committed

theorem Keeps.of_eq {committed : Nat → Nat → Bool} (hu : p'.unackedBatches = p.unackedBatches)
    (hq : p'.queue = p.queue) (ha : p'.ackReceived = p.ackReceived) : Keeps committed p p' where
  bodies := by
    rw [Publisher.bodies, hu, hq]
    exact ((filter_sublist.map _).append (List.Sublist.refl _)).subperm
  credit := ⟨[], nil_sublist _, ha, nofun⟩

end Publisher

def PublisherEvent.handles (p : Publisher) : PublisherEvent → Option FenceSignal
  | .drained _ | .drainTimeout => p.rollover.map (·.signal)
  | e => e.fence? p

def Current (p : Publisher) : PublisherEvent → Prop
  | .fence s => s.hasCommittedPrefix = true → s.producedFor = p.sessionEpoch
  | .sessionOpenAck a _ =>
    if a.status = .ok then p.rollover ≠ none → a.assignedSessionEpoch = p.sessionEpoch
    else a.hasCommittedPrefix = true → a.assignedSessionEpoch = p.sessionEpoch
  | .drained accepted => accepted.any (p.unackedBatches.length ≤ ·) = true
  | _ => True

instance (p : Publisher) (e : PublisherEvent) : Decidable (Current p e) := by
  cases e <;> dsimp only [Current] <;> infer_instance

namespace Publisher

def Handling (p : Publisher) : Prop :=
  ∀ r ∈ p.rollover, r.oldEpoch = p.sessionEpoch ∧
    (r.signal.hasCommittedPrefix = true → r.signal.producedFor = p.sessionEpoch)

theorem Handling.of_sameSession (h : p.Handling) (hs : SameSession p p') : p'.Handling := by
  intro r hr
  rw [hs.1]
  exact h r (hs.2 ▸ hr)

theorem Handling.of_none (h : p.rollover = none) : p.Handling := by
  intro r hr
  rw [h] at hr
  cases hr

theorem Current.of_fence? (hc : Current p e) (hs : e.fence? p = some s) :
    s.hasCommittedPrefix = true → s.producedFor = p.sessionEpoch := by
  cases e with
  | fence s' =>
    cases hs
    exact hc
  | sessionOpenAck a allow =>
    obtain ⟨ha, rfl⟩ := Runs.of_guard hs
    rw [Current, if_neg (by rcases ha.2.1 with h | h <;> simp [h])] at hc
    exact hc
  | sealBatch _ | send _ | record _ | wireAck _ _ | drained _ | drainTimeout | finishPublishing =>
    cases hs

theorem Handling.beginFence (h : p.Handling) (hs : s.hasCommittedPrefix = true → s.producedFor = p.sessionEpoch) :
    (p.beginFence s).Handling := by
  have hnew : ∀ {q : Publisher}, q.sessionEpoch = p.sessionEpoch → q.rollover = some ⟨s, q.sessionEpoch⟩ →
      q.Handling := by
    intro q hq hr r hm
    rw [hr] at hm
    cases hm
    exact ⟨rfl, hq ▸ hs⟩
  have htrim := sameSession_trim p s.committedBatchSeq
  rw [Publisher.beginFence]
  split
  · exact h
  · split
    · dsimp only
      split
      · exact h.of_sameSession htrim
      · exact hnew htrim.1 rfl
    · exact hnew rfl rfl

theorem Handling.step (h : p.Handling) (hc : Current p e) (hstep : p.step e = some p') : p'.Handling := by
  cases e with
  | sealBatch b | finishPublishing =>
    cases hstep
    exact h
  | send i =>
    obtain ⟨q, -, rfl⟩ := Option.map_eq_some_iff.mp hstep
    exact h
  | record i =>
    obtain ⟨b, -, rfl⟩ := Option.map_eq_some_iff.mp hstep
    exact h.of_sameSession ((sameSession_record p b).trans ⟨rfl, rfl⟩)
  | wireAck sock acked =>
    cases hstep
    exact h.of_sameSession (sameSession_wireAck p sock acked)
  | fence s =>
    obtain ⟨-, rfl⟩ := Runs.of_guard hstep
    exact h.beginFence hc
  | sessionOpenAck a allow =>
    rw [Publisher.step] at hstep
    split at hstep
    next s hs =>
      cases hstep
      exact h.beginFence (Current.of_fence? hc hs)
    · cases hstep
      split
      next hok =>
        rw [Current, if_pos hok.1] at hc
        have hsame := sameSession_opened p a
        cases hr : p.rollover with
        | none => exact .of_none (hsame.2.trans hr)
        | some r =>
          have ha := hc (by simp [hr])
          exact h.of_sameSession ⟨hsame.1.trans ha, hsame.2⟩
      · exact h
  | drained accepted =>
    obtain ⟨r, -, hr⟩ := Option.bind_eq_some_iff.mp hstep
    obtain ⟨-, rfl⟩ := Runs.of_guard hr
    exact .of_none rfl
  | drainTimeout =>
    obtain ⟨r, -, rfl⟩ := Option.map_eq_some_iff.mp hstep
    exact .of_none rfl

theorem bodies_resubmit (newEpoch : Nat) (suffix : List UnackedBatch) :
    ((resend newEpoch suffix.zipIdx).map (·.body) ++
      (requeue suffix.zipIdx).map (·.body)).Perm (suffix.map (·.body)) := by
  have hparts := (filter_append_perm (fun x : UnackedBatch × Nat => !x.1.pooled) suffix.zipIdx).map (·.1.body)
  have hfst := congrArg (List.map UnackedBatch.body) (zipIdx_map_fst 0 suffix)
  rw [map_map] at hfst
  replace hparts := hparts.trans (.of_eq hfst)
  rw [map_append] at hparts
  simpa [resend, requeue, Function.comp_def] using hparts

theorem FenceSignal.covers_of_empty (hs : s.hasCommittedPrefix = false) (b : UnackedBatch) : s.covers b = false := by
  rw [FenceSignal.covers, hs, Bool.false_and]

theorem fencedSuffix_perm (hs : r.signal.hasCommittedPrefix = false) :
    (p.fencedSuffix r).Perm (p.unackedBatches.filter (·.sessionEpoch == r.oldEpoch)) := by
  have hfilter : (p.unackedBatches.filter fun b =>
      b.sessionEpoch == r.oldEpoch && !r.signal.covers b) =
      p.unackedBatches.filter (·.sessionEpoch == r.oldEpoch) := by
    apply filter_congr
    intro b _
    rw [FenceSignal.covers_of_empty hs, Bool.not_false, Bool.and_true]
  rw [fencedSuffix, ← hfilter]
  exact perm_insertionSort _ _

variable {committed : Nat → Nat → Bool}

theorem keeps_finishFence {n : Nat} (hr : r.oldEpoch = p.sessionEpoch) (hs : r.signal.hasCommittedPrefix = false)
    (hn : p.unackedBatches.length ≤ n) : Keeps committed p (p.finishFence r (some n)) := by
  have hperm : (p.fencedSuffix r).Perm _ := fencedSuffix_perm hs
  have hall : (p.fencedSuffix r).take (resubmitted (some n) (p.fencedSuffix r)) =
      p.fencedSuffix r := by
    apply take_of_length_le
    have hlen : (p.fencedSuffix r).length ≤ n :=
      (hperm.length_eq.trans_le (length_filter_le _ _)).trans hn
    exact (Nat.min_eq_right hlen).ge
  have hnone : p.fencedCommitted r = [] := by
    apply filter_eq_nil_iff.mpr
    intro b _
    simp [FenceSignal.covers_of_empty hs]
  have hlive : ((p.live committed).map (·.body)).Subperm ((p.fencedSuffix r).map (·.body)) := by
    refine ((List.Sublist.map _ ?_).subperm).trans (hperm.map _).symm.subperm
    rw [hr]
    apply monotone_filter_right
    intro b hb
    exact (Bool.and_eq_true_iff.mp hb).1
  refine ⟨?_, [], nil_sublist _, ?_, nofun⟩
  · have hparts := (bodies_resubmit (nextSessionEpochAfterFence r.oldEpoch) (p.fencedSuffix r)).symm
    rw [Publisher.bodies, finishFence]
    dsimp only
    rw [hall, map_append]
    have hkept := (subperm_append_right (p.queue.map (·.body))).mpr (hlive.trans hparts.subperm)
    refine hkept.trans ?_
    rw [append_assoc]
    exact ((List.Perm.refl _).append perm_append_comm).subperm
  · rw [finishFence]
    dsimp only
    rw [hnone]

theorem keeps_beginFence (hs : s.hasCommittedPrefix = false) : Keeps committed p (p.beginFence s) := by
  rw [beginFence, hs, Bool.and_false, if_neg Bool.false_ne_true]
  split
  · exact .of_eq rfl rfl rfl
  · exact .of_eq rfl rfl rfl

end Publisher

open Publisher

/-- Under the condition, handling a fence of an older epoch trims, credits and discards no live
batch, in whatever state the publisher has reached. -/
theorem stale_fence_harmless {ackLevel : Nat} {owned : Bool} {committed : Nat → Nat → Bool}
    (hrun : Runs.Along Publisher.step Current (.start ackLevel owned) es p)
    (hc : Current p e) (hstep : p.step e = some p') (hs : e.handles p = some s)
    (hstale : s.producedFor < p.sessionEpoch) : Keeps committed p p' := by
  have hinv : p.Handling :=
    hrun.invariant (fun _ _ _ hc hstep h => Handling.step h hc hstep) (.of_none rfl)
  have hempty : (s.hasCommittedPrefix = true → s.producedFor = p.sessionEpoch) → s.hasCommittedPrefix = false := by
    intro h
    rw [← Bool.not_eq_true]
    exact fun hp => absurd (h hp) (Nat.ne_of_lt hstale)
  cases e with
  | fence s' =>
    cases hs
    obtain ⟨-, rfl⟩ := Runs.of_guard hstep
    exact keeps_beginFence (hempty hc)
  | sessionOpenAck a allow =>
    have hf : PublisherEvent.fence? p (.sessionOpenAck a allow) = some s := hs
    rw [Publisher.step, hf] at hstep
    cases hstep
    exact keeps_beginFence (hempty (Current.of_fence? hc hf))
  | drained accepted =>
    obtain ⟨r, hr, rfl⟩ := Option.map_eq_some_iff.mp hs
    rw [Publisher.step, hr, Option.bind_some] at hstep
    split at hstep
    · cases hstep
      obtain ⟨hold, hprod⟩ := hinv r hr
      cases accepted with
      | none => cases hc
      | some n => exact keeps_finishFence hold (hempty hprod) (of_decide_eq_true hc)
    · cases hstep
  | drainTimeout =>
    obtain ⟨r, hr, rfl⟩ := Option.map_eq_some_iff.mp hs
    rw [Publisher.step, hr] at hstep
    cases hstep
    exact .of_eq rfl rfl rfl
  | sealBatch _ | send _ | record _ | wireAck _ _ | finishPublishing => cases hs

section Scenario

def sendFront : List PublisherEvent := [.send 0, .record 0]

def publishRun (n : Nat) : List PublisherEvent :=
  .sessionOpenAck ⟨0, .ok, 1, false⟩ true :: (List.range n).map (fun i => .sealBatch ⟨10 + i, 1, 64⟩) ++
    (List.replicate n sendFront).flatten

def emptyFenceRun : List PublisherEvent :=
  publishRun 2 ++ [.fence ⟨1, 0, false⟩, .drained (some 8)] ++ sendFront ++ sendFront ++ [.fence ⟨1, 0, false⟩]

theorem stale_fence_harmless_emptyFenceRun :
    ∃ p p', Runs.Along Publisher.step Current (.start 1 false) emptyFenceRun p ∧
      p.step (.drained (some 8)) = some p' ∧ p.sessionEpoch = 2 ∧
      PublisherEvent.handles p (.drained (some 8)) = some ⟨1, 0, false⟩ ∧
      (p.live fun _ _ => false).length = 2 ∧ Keeps (fun _ _ => false) p p' := by
  obtain ⟨p, hrun, ha⟩ := Runs.exists_along_of_exec
    (f := fun p : Publisher => (decide (Current p (.drained (some 8))),
      (p.step (.drained (some 8))).isSome, p.sessionEpoch,
      PublisherEvent.handles p (.drained (some 8)), (p.live fun _ _ => false).length))
    (show (Runs.exec Publisher.step Current (.start 1 false) emptyFenceRun).map _ =
      some (true, true, 2, some ⟨1, 0, false⟩, 2) by decide +kernel)
  simp only [Prod.mk.injEq] at ha
  obtain ⟨hc, hstep, hepoch, hs, hlive⟩ := ha
  obtain ⟨p', hp'⟩ := Option.isSome_iff_exists.mp hstep
  exact ⟨p, p', hrun, hp', hepoch, hs, hlive,
    stale_fence_harmless hrun (of_decide_eq_true hc) hp' hs (by rw [hepoch]; decide)⟩

def staleFenceRun (s : SentFence) (a : SessionOpenAck) : List PublisherEvent :=
  publishRun 3 ++ [.fence s.signal, .drained (some 8)] ++ sendFront ++ sendFront ++ [.sessionOpenAck a true]

/-- Both signals are what the head sends.  The second one credits and drops batch 0 of session 2, of
which the GOI holds nothing. -/
theorem stale_fence_harms_staleFenceRun :
    ∃ t s p p', Runs.Along (step .small) (Fed scenarioIdent) (.fresh .small)
        (fenceRun ++ [.takeFenceNote ⟨7, 1⟩]) t ∧ s ∈ t.sentFences ∧
      Runs.Along Publisher.step (fun _ _ => True) (.start 1 false) (staleFenceRun s (t.sessionOpenAck ⟨7, 1⟩)) p ∧
      p.step (.drained (some 8)) = some p' ∧
      PublisherEvent.handles p (.drained (some 8)) = some (t.sessionOpenAck ⟨7, 1⟩).signal ∧
      (t.sessionOpenAck ⟨7, 1⟩).signal.producedFor < p.sessionEpoch ∧
      ¬Keeps (fun epoch seq => decide (seq ∈ t.goiSeqs ⟨7, epoch⟩)) p p' := by
  obtain ⟨t, hrun, ha⟩ := Runs.exists_along_of_exec
    (f := fun t : Topic => (t.sentFences, t.sessionOpenAck ⟨7, 1⟩, t.goiSeqs ⟨7, 2⟩))
    (show (Runs.exec (step .small) (Fed scenarioIdent) (.fresh .small)
      (fenceRun ++ [.takeFenceNote ⟨7, 1⟩])).map _ =
      some ([⟨⟨7, 1⟩, 0, true⟩], ⟨0, .fenced, 1, true⟩, []) by decide +kernel)
  simp only [Prod.mk.injEq] at ha
  obtain ⟨hsent, hopen, hseqs⟩ := ha
  obtain ⟨p, hrun', ha⟩ := Runs.exists_along_of_exec
    (f := fun p : Publisher => ((p.live fun _ _ => false).length, p.queue.length,
      PublisherEvent.handles p (.drained (some 8)), p.sessionEpoch,
      (p.step (.drained (some 8))).map (·.bodies.length)))
    (show (Runs.exec Publisher.step (fun _ _ => True) (.start 1 false)
      (staleFenceRun ⟨⟨7, 1⟩, 0, true⟩ ⟨0, .fenced, 1, true⟩)).map _ =
      some (2, 0, some ⟨1, 0, true⟩, 2, some 1) by decide +kernel)
  simp only [Prod.mk.injEq] at ha
  obtain ⟨hlive, hqueue, hs, hepoch, hstep⟩ := ha
  obtain ⟨p', hp', hlen⟩ := Option.map_eq_some_iff.mp hstep
  refine ⟨t, ⟨⟨7, 1⟩, 0, true⟩, p, p', hrun, by simp [hsent], hopen ▸ hrun', hp', hopen ▸ hs,
    by rw [hopen, hepoch]; decide, fun hk => ?_⟩
  have hle := hk.bodies.length_le
  rw [live_of_none_committed (by simp [hepoch, hseqs]), length_append, length_map,
    length_map, hlive, hqueue, hlen] at hle
  exact absurd hle (by decide)

end Scenario

end Embarcadero
