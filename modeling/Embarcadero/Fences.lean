import Embarcadero.SessionSafety

namespace Embarcadero

open List
open Function (update)

variable {P : Platform} {ident : Nat → SessionKey × Nat} {t t' : Topic} {k : SessionKey} {n : Nat}
  {es es' : List Event}

variable {e : Event} {m : SessionFenceNotification}

theorem NoteOk.mem_iff {table : SessionTable} (h : NoteOk table m) {s : Nat} : s ∈ List.range (table.expected m.key) ↔
      m.hasCommittedPrefix = true ∧ s ≤ m.committedBatchSeq := by
  rw [h.isPrefix, h.hwm, mem_range, decide_eq_true_eq]
  omega

/-- In a clean run a fence notification states exactly what the GOI holds of its session, and
nothing of the session is written to the GOI from then on. -/
theorem fence_exact (hrun : Runs.Along (step P) (Clean P ident) (.fresh P) es t)
    {m : SessionFenceNotification} (hm : m ∈ t.fenceNotes) :
    (∀ s, s ∈ t.goiSeqs m.key ↔ m.hasCommittedPrefix = true ∧ s ≤ m.committedBatchSeq) ∧
      ∀ es' t', Runs.Along (step P) (Clean P ident) t es' t' →
        t'.goiSeqs m.key = t.goiSeqs m.key ∧ ∃ new, t'.goiLog = t.goiLog ++ new ∧ ∀ e ∈ new, e.key ≠ m.key := by
  have hok := (Topic.ok_fresh P).run hrun
  have hnote := hok.classifier.notes m hm
  refine ⟨fun s => ?_, fun es' t' hrun' => ?_⟩
  · rw [hok.seqs _ hnote.admitted]
    exact hnote.mem_iff
  · have hcont := hok.continues hrun'
    obtain ⟨new, hnew, hkey⟩ := hcont.log
    refine ⟨?_, new, hnew, fun e he => hkey e he _ hnote.admitted hnote.fenced⟩
    rw [(hok.run hrun').seqs _ hnote.admitted, hok.seqs _ hnote.admitted,
      (hcont.fenced _ hnote.admitted hnote.fenced).2]

section Scenario

def skipSlot (b l seq : Nat) : PendingBatch5 := .skipMarker b (l % 4) (publishedSlot b l seq)

def fenceRun : List Event :=
  [publishSlot 0 0 0, publishSlot 0 1 2, .epoch [scanSlot 0 0 0, scanSlot 0 1 2] (scenarioClock 1), .commit, .tail,
    .updateCommittedSeq 1, .epoch [skipSlot 0 2 1] (scenarioClock 2)]

def fenceNoteOf (h msgs : Nat) (hasPrefix : Bool) : SessionFenceNotification :=
  ⟨7, 1, h, hasPrefix, msgs, 1⟩

theorem fence_exact_fenceRun :
    ∃ t, Runs.Along (step .small) (Clean .small scenarioIdent) (.fresh .small) fenceRun t ∧
      fenceNoteOf 0 1 true ∈ t.fenceNotes ∧ t.goiSeqs ⟨7, 1⟩ = [0] ∧
      ∀ s, s ∈ t.goiSeqs ⟨7, 1⟩ ↔ true = true ∧ s ≤ 0 := by
  refine Runs.exists_of_exec (fun t : Topic => (t.fenceNotes, t.goiSeqs ⟨7, 1⟩))
    ([fenceNoteOf 0 1 true], [0]) (by decide +kernel) fun t hrun ha => ?_
  obtain ⟨hnotes, hseqs⟩ := Prod.mk.inj ha
  have hm : fenceNoteOf 0 1 true ∈ t.fenceNotes := by simp [hnotes]
  exact ⟨hm, hseqs, (fence_exact hrun hm).1⟩

def fenceAfterRestartRun : List Event := uncoveredRun ++ [.epoch [skipSlot 0 1 1] (scenarioClock 2)]

theorem fence_inexact_fenceAfterRestartRun :
    ∃ t m, Runs.Along (step .small) (Fed scenarioIdent) (.fresh .small) fenceAfterRestartRun t ∧
      m ∈ t.fenceNotes ∧ m.key = ⟨7, 1⟩ ∧ m.hasCommittedPrefix = true ∧ m.committedBatchSeq = 0 ∧
      0 ∉ t.goiSeqs ⟨7, 1⟩ := by
  obtain ⟨t, hrun, ha⟩ := Runs.exists_along_of_exec (f := fun t : Topic => (t.fenceNotes, t.goiSeqs ⟨7, 1⟩))
    (show (Runs.exec (step .small) (Fed scenarioIdent) (.fresh .small) fenceAfterRestartRun).map _ =
      some ([⟨7, 1, 0, true, 0, 2⟩], []) by decide +kernel)
  obtain ⟨hnotes, hseqs⟩ := Prod.mk.inj ha
  exact ⟨t, ⟨7, 1, 0, true, 0, 2⟩, hrun, by simp [hnotes], rfl, rfl, rfl, by simp [hseqs]⟩

end Scenario

theorem scanGOICommittedHwm_eq {c : CxlMemory} (hi : ∀ i < c.committedLimit, (c.goi i).globalSeq = i) (k : SessionKey) :
    Topic.scanGOICommittedHwm c k = (committedSeqs c.goi c.committedLimit k).getLast? := by
  unfold Topic.scanGOICommittedHwm
  generalize c.committedLimit = n at hi
  induction n with
  | zero => rfl
  | succ n ih =>
    have hn := hi n (Nat.lt_succ_self n)
    rw [committedSeqs_succ, range_succ, reverse_append, reverse_singleton,
      singleton_append, List.find?_cons, List.getLast?_append]
    by_cases hk : (c.goi n).key = k
    · simp [hn, hk]
    · simpa [hk] using ih fun i h => hi i (Nat.lt_succ_of_lt h)

theorem Topic.Ok.scanGOICommittedHwm (h : t.Ok P ident) (hk : k.Admitted)
    (hc : t.cxl.committedLimit = t.globalBatchSeq) :
    Topic.scanGOICommittedHwm t.cxl k = (List.range (t.cxl.sessions.expected k)).getLast? := by
  rw [scanGOICommittedHwm_eq fun i hi => h.globalSeq_eq (hc ▸ hi), hc]
  exact congrArg _ (h.seqs k hk)

structure SentOk (table : SessionTable) (s : SentFence) : Prop where
  admitted : s.ackSession.Admitted
  fenced : table.fenced s.ackSession = true
  bound : ∀ q < table.expected s.ackSession, s.hasCommittedPrefix = true ∧ q ≤ s.committedBatchSeq

theorem SentOk.continues {s : SentFence} (h : SentOk t.cxl.sessions s) (hc : t.Continues t') :
    SentOk t'.cxl.sessions s where
  admitted := h.admitted
  fenced := (hc.fenced _ h.admitted h.fenced).1
  bound := (hc.fenced _ h.admitted h.fenced).2 ▸ h.bound

/-- The condition on a step: it is clean, an ACK thread takes notes of its own session only, and it
relays EPOCH_STALE only for a session that is fenced, once `committed_seq` covers the GOI. -/
def Relayed (P : Platform) (ident : Nat → SessionKey × Nat) (t : Topic) (e : Event) : Prop :=
  Clean P ident t e ∧ match e with
    | .takeFenceNote k => ∀ m ∈ t.pendingSessionFences k.clientId, m.key = k
    | .ackRelay k => k.Admitted ∧ t.cxl.sessions.fenced k = true ∧
      t.cxl.committedLimit = t.globalBatchSeq
    | _ => True

instance (P : Platform) (ident : Nat → SessionKey × Nat) (t : Topic) :
    (e : Event) → Decidable (Relayed P ident t e)
  | .takeFenceNote k => inferInstanceAs (Decidable
      (Clean P ident t (.takeFenceNote k) ∧ ∀ m ∈ t.pendingSessionFences k.clientId, m.key = k))
  | .ackRelay k => inferInstanceAs (Decidable (Clean P ident t (.ackRelay k) ∧ _ ∧ _ ∧ _))
  | .epoch .. | .commit | .crash _ | .slotWrite .. | .admitSession _ | .idleTick _ | .finalDrain _
  | .tail | .updateCommittedSeq _ | .bumpControlEpoch | .ackEpochCheck .. =>
    inferInstanceAs (Decidable (Clean P ident t _ ∧ True))

theorem Topic.Ok.sentOk_note (h : t.Ok P ident) (hm : m ∈ t.pendingSessionFences k.clientId) (hk : m.key = k) :
    SentOk t.cxl.sessions ⟨k, m.committedBatchSeq, m.hasCommittedPrefix⟩ := by
  have hnote := h.classifier.notes m (h.classifier.pending _ m hm).1
  subst hk
  exact ⟨hnote.admitted, hnote.fenced, fun q hq => hnote.mem_iff.mp (mem_range.mpr hq)⟩

theorem Topic.Ok.sentOk_relay (h : t.Ok P ident) (hk : k.Admitted) (hf : t.cxl.sessions.fenced k = true)
    (hc : t.cxl.committedLimit = t.globalBatchSeq)
    (hsend : shouldTerminalFenceAckRelay ((t.cxl.sessions.get k).expectedSeq - 1)
      (Topic.scanGOICommittedHwm t.cxl k) = true) {h' : Nat} {b : Bool} : SentOk t.cxl.sessions ⟨k, h', b⟩ := by
  refine ⟨hk, hf, fun q hq => ?_⟩
  rw [h.scanGOICommittedHwm hk hc] at hsend
  change q < t.cxl.sessions.expected k at hq
  change shouldTerminalFenceAckRelay (t.cxl.sessions.expected k - 1) _ = true at hsend
  cases he : t.cxl.sessions.expected k with
  | zero =>
    rw [he] at hq
    exact absurd hq (Nat.not_lt_zero q)
  | succ e =>
    rw [he, range_succ, List.getLast?_concat] at hsend
    simp [shouldTerminalFenceAckRelay] at hsend

theorem mem_sentFences_of_step {s : SentFence} (h : t.Ok P ident) (hc : Relayed P ident t e)
    (hstep : step P t e = some t') (hs : s ∈ t'.sentFences) : s ∈ t.sentFences ∨ SentOk t.cxl.sessions s := by
  cases e with
  | takeFenceNote k =>
    obtain ⟨m, hm, rfl⟩ := Option.map_eq_some_iff.mp hstep
    rcases mem_append.mp hs with hs | hs
    · exact .inl hs
    · rw [mem_singleton.mp hs]
      exact .inr (h.sentOk_note hm (hc.2 m hm))
  | ackRelay k =>
    rw [step] at hstep
    split at hstep
    · cases hstep
      unfold Topic.relayEpochStale at hs
      dsimp only at hs
      split at hs
      · rcases mem_append.mp hs with hs | hs
        · exact .inl hs
        · rw [mem_singleton.mp hs]
          exact .inr (h.sentOk_relay hc.2.1 hc.2.2.1 hc.2.2.2 ‹_›)
      · exact .inl hs
    · cases hstep
  | epoch _ _ | idleTick _ | finalDrain _ =>
    obtain ⟨clock, t₁, f, hcl, rfl⟩ := classifies_of_step rfl hc.1.identified hstep
    have hsame := congrArg Topic.sentFences (h.classify hcl).2.shape
    have hstart := congrArg Topic.sentFences hcl.start
    exact .inl (hstart ▸ hsame ▸ hs)
  | commit =>
    obtain ⟨f, -, rfl⟩ := Option.map_eq_some_iff.mp hstep
    have hsame := congrArg Topic.sentFences (commitEpoch_shape P t f)
    exact .inl (hsame ▸ hs)
  | ackEpochCheck k refresh =>
    cases hstep
    cases refresh <;> exact .inl hs
  | slotWrite a hdr | admitSession k | tail | updateCommittedSeq n | crash n | bumpControlEpoch =>
    cases hstep
    exact .inl hs

theorem sentOk_of_step (h : t.Ok P ident ∧ ∀ s ∈ t.sentFences, SentOk t.cxl.sessions s) (hc : Relayed P ident t e)
    (hstep : step P t e = some t') : t'.Ok P ident ∧ ∀ s ∈ t'.sentFences, SentOk t'.cxl.sessions s := by
  refine ⟨h.1.step hc.1 hstep, fun s hs => ?_⟩
  have hcont := h.1.continues_step hc.1 hstep
  rcases mem_sentFences_of_step h.1 hc hstep hs with hs | hs
  · exact (h.2 s hs).continues hcont
  · exact hs.continues hcont

/-- Under the relay condition every fence frame is true for good: the GOI holds nothing of the
session beyond what the frame reports, and nothing of it is written any more. -/
theorem relayed_fence_truthful (hrun : Runs.Along (step P) (Relayed P ident) (.fresh P) es t)
    {s : SentFence} (hs : s ∈ t.sentFences) :
    ∀ es' t', Runs.Along (step P) (Relayed P ident) t es' t' →
      (∀ q ∈ t'.goiSeqs s.ackSession, s.hasCommittedPrefix = true ∧ q ≤ s.committedBatchSeq) ∧
        ∃ new, t'.goiLog = t.goiLog ++ new ∧ ∀ e ∈ new, e.key ≠ s.ackSession := by
  have hinv : t.Ok P ident ∧ ∀ s ∈ t.sentFences, SentOk t.cxl.sessions s :=
    hrun.invariant (fun _ _ _ hc hstep h => sentOk_of_step h hc hstep) ⟨Topic.ok_fresh P, nofun⟩
  intro es' t' hrun'
  have hclean := hrun'.mono fun _ _ h => h.1
  have hsent := hinv.2 s hs
  have hcont := hinv.1.continues hclean
  obtain ⟨new, hnew, hkey⟩ := hcont.log
  refine ⟨fun q hq => ?_, new, hnew, fun e he => hkey e he _ hsent.admitted hsent.fenced⟩
  rw [(hinv.1.run hclean).seqs _ hsent.admitted] at hq
  exact (hsent.continues hcont).bound q (mem_range.mp hq)

section Scenario

theorem relayed_fence_truthful_fenceRun :
    ∃ t, Runs.Along (step .small) (Relayed .small scenarioIdent) (.fresh .small)
        (fenceRun ++ [.takeFenceNote ⟨7, 1⟩]) t ∧
      ⟨⟨7, 1⟩, 0, true⟩ ∈ t.sentFences ∧
      ∀ q ∈ t.goiSeqs ⟨7, 1⟩, true = true ∧ q ≤ 0 := by
  obtain ⟨t, hrun, ha⟩ := Runs.exists_along_of_exec (f := Topic.sentFences)
    (show (Runs.exec (step .small) (Relayed .small scenarioIdent) (.fresh .small)
      (fenceRun ++ [.takeFenceNote ⟨7, 1⟩])).map _ = some [⟨⟨7, 1⟩, 0, true⟩] by decide +kernel)
  have hs : ⟨⟨7, 1⟩, 0, true⟩ ∈ t.sentFences := by simp [ha]
  exact ⟨t, hrun, hs, (relayed_fence_truthful hrun hs [] t (.nil t)).1⟩

def staleRelayRun : List Event :=
  [publishSlot 0 0 0, .epoch [scanSlot 0 0 0] (scenarioClock 1), .commit, .tail,
    .bumpControlEpoch, .ackEpochCheck ⟨7, 1⟩ true, .ackRelay ⟨7, 1⟩,
    publishSlot 0 1 1, .epoch [scanSlot 0 1 1] (scenarioClock 2), .commit, .tail]

theorem relayed_fence_untruthful_staleRelayRun :
    ∃ t, Runs.Along (step .small) (Fed scenarioIdent) (.fresh .small) staleRelayRun t ∧
      ⟨⟨7, 1⟩, 0, true⟩ ∈ t.sentFences ∧ 1 ∈ t.goiSeqs ⟨7, 1⟩ := by
  refine Runs.exists_of_exec (fun t : Topic => (t.sentFences, t.goiSeqs ⟨7, 1⟩))
    ([⟨⟨7, 1⟩, 0, true⟩], [0, 1]) (by decide +kernel) fun t hrun ha => ?_
  obtain ⟨hsent, hseqs⟩ := Prod.mk.inj ha
  exact ⟨by simp [hsent], by simp [hseqs]⟩

end Scenario

end Embarcadero
