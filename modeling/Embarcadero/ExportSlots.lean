import Embarcadero.SlotReuse

namespace Embarcadero

open Function (update update_apply update_of_ne update_self)
open List

namespace Commit

variable {P : Platform} {s : ExportState} {b : Nat}

def ExportState.InStep (P : Platform) (s : ExportState) : Prop :=
  ∀ b, s.slot P b = s.sequence b % P.slots

theorem ExportState.InStep.advance (h : s.InStep P) (b : Nat) : (s.advance P b).InStep P := by
  have hpos : 0 < P.slots := Nat.lt_of_lt_of_le Nat.two_pos P.two_le_slots
  intro b'
  by_cases hb : b' = b
  · have hlt := Nat.mod_lt (s.sequence b) hpos
    have hcursor : (s.advance P b).cursor b' =
        if P.slots ≤ s.sequence b % P.slots + 1 then 0 else s.sequence b % P.slots + 1 := by
      rw [hb, ← h b]
      exact update_self ..
    have hsequence : (s.advance P b).sequence b' = s.sequence b + 1 := by
      rw [hb]
      exact update_self ..
    rw [ExportState.slot, hcursor, hsequence, Nat.add_mod, Nat.mod_eq_of_lt P.two_le_slots]
    by_cases hlast : P.slots ≤ s.sequence b % P.slots + 1
    · have hwrap : s.sequence b % P.slots + 1 = P.slots := Nat.le_antisymm hlt hlast
      rw [if_pos hlast, if_neg (Nat.not_le.mpr hpos), hwrap, Nat.mod_self]
    · rw [if_neg hlast, if_neg hlast, Nat.mod_eq_of_lt (Nat.not_le.mp hlast)]
  · have hcursor : (s.advance P b).cursor b' = s.cursor b' := update_of_ne hb ..
    have hsequence : (s.advance P b).sequence b' = s.sequence b' := update_of_ne hb ..
    rw [ExportState.slot, hcursor, hsequence]
    exact h b'

theorem ExportState.InStep.exportWrites (kept : List PendingBatch5) :
    ∀ {order : Nat} {s : ExportState}, s.InStep P → (exportWrites P order s kept).2.InStep P := by
  induction kept with
  | nil => exact fun h => h
  | cons p rest ih =>
    intro order s h
    rw [Commit.exportWrites]
    split
    · exact ih h
    · dsimp only
      split
      · exact ih (h.advance _)
      · exact ih h

def indices (b : Nat) (ms : List HoldBatchMetadata) : List Nat :=
  (ms.filter (·.brokerId = b)).map (·.pbrAbsoluteIndex)

def ExportsInOrder (P : Platform) (s : ExportState) (ms : List HoldBatchMetadata) : Prop :=
  ∀ b < numMaxBrokers, exports P b = true → indices b ms = List.range' (s.sequence b) (indices b ms).length

theorem ExportsInOrder.tail {m : HoldBatchMetadata} {ms : List HoldBatchMetadata} (h : ExportsInOrder P s (m :: ms)) :
    (exports P m.brokerId = true →
      m.pbrAbsoluteIndex = s.sequence m.brokerId ∧ ExportsInOrder P (s.advance P m.brokerId) ms) ∧
    (exports P m.brokerId = false → ExportsInOrder P s ms) := by
  have hsame : ∀ b, m.brokerId ≠ b → indices b (m :: ms) = indices b ms := by
    intro b hne
    rw [indices, filter_cons_of_neg (by simpa using hne)]
    rfl
  refine ⟨fun hexp => ?_, fun hexp b hb hb' => ?_⟩
  · have hb : m.brokerId < numMaxBrokers := of_decide_eq_true (Bool.and_eq_true_iff.mp hexp).1
    have hcons : indices m.brokerId (m :: ms) = m.pbrAbsoluteIndex :: indices m.brokerId ms := by
      rw [indices, filter_cons_of_pos (by simp), map_cons]
      rfl
    have hall := h m.brokerId hb hexp
    rw [hcons, length_cons, List.range'_succ] at hall
    obtain ⟨hhead, hrest⟩ := List.cons.inj hall
    refine ⟨hhead, fun b hb hb' => ?_⟩
    dsimp only [ExportState.advance]
    rw [update_apply]
    split
    next heq =>
      rw [heq]
      exact hrest
    next hne =>
      have := h b hb hb'
      rwa [hsame b (Ne.symm hne)] at this
  · have hne : m.brokerId ≠ b := by
      intro heq
      rw [heq, hb'] at hexp
      cases hexp
    have := h b hb hb'
    rwa [hsame b hne] at this

theorem exportDescriptor_own_slot (kept : List PendingBatch5) :
    ∀ {order : Nat} {s : ExportState}, s.InStep P → ExportsInOrder P s (committed kept) →
      ∀ {a : SlotAddr} {h : BatchHeader}, .exportDescriptor a h ∈ (exportWrites P order s kept).1 →
          ∃ m ∈ committed kept, a = ⟨m.brokerId, m.pbrAbsoluteIndex % P.slots⟩ := by
  induction kept with
  | nil => rintro _ _ _ _ _ _ ⟨⟩
  | cons p rest ih =>
    intro order s hstep horder a h hw
    rw [exportWrites] at hw
    split at hw
    next hmark =>
      have hsame : committed (p :: rest) = committed rest := by
        rw [committed, batches, filter_cons_of_neg (by simpa using hmark)]
        rfl
      rw [hsame] at horder ⊢
      exact ih hstep horder hw
    next hmark =>
      have hcons : committed (p :: rest) = p.commitMeta :: committed rest := by
        rw [committed, batches, filter_cons_of_pos (by simpa using hmark)]
        rfl
      rw [hcons] at horder ⊢
      have hclear : ∀ o : Option SlotAddr, .exportDescriptor a h ∉ (o.map CxlWrite.clearPublishState).toList := by
        intro o
        cases o with
        | none => rintro ⟨⟩
        | some a' =>
          intro hmem
          cases mem_singleton.mp hmem
      obtain ⟨hexports, hother⟩ := horder.tail
      dsimp only at hw
      split at hw
      next hexp =>
        obtain ⟨hindex, hrest⟩ := hexports hexp
        rw [cons_append, mem_cons, mem_append] at hw
        rcases hw with hw | hw | hw
        · cases hw
          exact ⟨_, mem_cons_self, by rw [hstep, hindex]⟩
        · exact absurd hw (hclear _)
        · obtain ⟨m, hm, ha⟩ := ih (hstep.advance _) hrest hw
          exact ⟨m, mem_cons_of_mem _ hm, ha⟩
      next hexp =>
        cases mem_append.mp hw with
        | inl hw => exact absurd hw (hclear _)
        | inr hw =>
          obtain ⟨m, hm, ha⟩ := ih hstep (hother (Bool.eq_false_iff.mpr hexp)) hw
          exact ⟨m, mem_cons_of_mem _ hm, ha⟩

theorem ExportState.InStep.rebuild (P : Platform) (c : CxlMemory) (n : Nat) :
    (rebuildExportDescriptors P c n).2.InStep P := by
  unfold rebuildExportDescriptors
  apply List.foldlRecOn (motive := fun s : CxlMemory × ExportState => s.2.InStep P)
  · intro b
    have hpos : 0 < P.slots := Nat.lt_of_lt_of_le Nat.two_pos P.two_le_slots
    exact (if_neg (Nat.not_le.mpr hpos)).trans (Nat.zero_mod _).symm
  · intro s hs i _
    unfold rebuildExportDescriptor
    dsimp only
    split
    · exact hs
    · exact hs.advance _

end Commit

def Real (phase : Nat → Nat → ReceiverPhase) (p : PendingBatch5) : Prop :=
  p.skipped = false → phase p.brokerId p.cachedPbrAbsoluteIndex = .published

namespace Cluster

variable {P : Platform} {incoming : Nat → Nat → BatchHeader} {s s' : Cluster} {b l : Nat}

def Live (P : Platform) (s : Cluster) (b i : Nat) : Prop :=
  (s.slot b i).exclusiveClaim = true ∨
    (s.slot b i).publishCommitted = true ∧ (s.slot b i).pbrAbsoluteIndex ∉ s.scanned b ∨
    ∃ l, l % P.slots = i ∧ s.topic.Keeps (b, l)

structure Holds (slots : Nat) (phase : Nat → ReceiverPhase) (i : Nat) (h : BatchHeader) : Prop where
  written : phase h.pbrAbsoluteIndex ≠ .reserved
  newest : ∀ l, l % slots = i → phase l ≠ .reserved → l ≤ h.pbrAbsoluteIndex
  claim : h.exclusiveClaim = true → phase h.pbrAbsoluteIndex ≠ .published
  complete : h.batchComplete = true → phase h.pbrAbsoluteIndex = .published

structure Placed (P : Platform) (s : Cluster) : Prop where
  scanned : ∀ b, ∀ l ∈ s.scanned b, s.phase b l ≠ .reserved
  reserved : ∀ b l, s.phase b l ≠ .reserved → l < s.nextSlotSeq b
  holds : ∀ b < numMaxBrokers, ∀ i < P.slots, (s.slot b i).readable = true → Holds P.slots (s.phase b) i (s.slot b i)
  kept : s.topic.From (Real s.phase) s.topic.readyVector
  collected : ∀ p ∈ s.collected, Real s.phase p
  cursor : Commit.ExportState.InStep P ⟨s.topic.exportCursor, s.topic.exportSequence⟩

variable {f : EpochInFlight} {i : Nat} {p : PendingBatch5} {q : ReceiverPhase} {t : Topic}

theorem Real.mono {phase phase' : Nat → Nat → ReceiverPhase}
    (h : ∀ b l, phase b l = .published → phase' b l = .published) (hp : Real phase p) :
    Real phase' p := fun hs => h _ _ (hp hs)

theorem Ok.le_of_unscanned (h : s.Ok P incoming) {l' : Nat} (hb : b < numMaxBrokers) (hl' : l' < s.nextSlotSeq b)
    (hmod : l' % P.slots = l % P.slots) (hnew : l ∉ s.scanned b) : l' ≤ l := by
  by_contra hlt
  have hge : s.frontier b ≤ l := Nat.not_lt.mp fun hlow => hnew (h.passed b hb l hlow)
  have hlap := h.lap hb
  have := Residue.eq_of_mod_eq hge (by omega) (show s.frontier b ≤ l' by omega) (by omega) hmod.symm
  omega

theorem phase_update (phase : Nat → Nat → ReceiverPhase) (b l : Nat) (q : ReceiverPhase) (b' l' : Nat) :
    update phase b (update (phase b) l q) b' l' = if b' = b ∧ l' = l then q else phase b' l' := by
  rw [update_apply]
  split
  next hb =>
    rw [update_apply, hb]
    simp only [true_and]
  next hb => rw [if_neg fun hbl => hb hbl.1]

theorem Holds.other {h : BatchHeader} {b' : Nat} (hh : Holds P.slots (s.phase b') i h)
    (hmod : h.pbrAbsoluteIndex % P.slots = i) (hq : q ≠ .reserved)
    (hne : b' = b ∧ i = l % P.slots → s.phase b l ≠ .reserved ∧ s.phase b l ≠ .published ∧ q ≠ .published) :
    Holds P.slots (update s.phase b (update (s.phase b) l q) b') i h := by
  refine ⟨?_, fun l' hl' hp => ?_, fun hc => ?_, fun hc => ?_⟩
  · rw [phase_update]
    split
    · exact hq
    · exact hh.written
  · rw [phase_update] at hp
    split at hp
    next heq =>
      obtain ⟨rfl, rfl⟩ := heq
      exact hh.newest _ hl' (hne ⟨rfl, hl'.symm⟩).1
    · exact hh.newest l' hl' hp
  · rw [phase_update]
    split
    next heq => exact (hne ⟨heq.1, by rw [← heq.2, hmod]⟩).2.2
    · exact hh.claim hc
  · rw [phase_update]
    split
    next heq =>
      have hpub := hh.complete hc
      rw [heq.1, heq.2] at hpub
      exact absurd hpub (hne ⟨heq.1, by rw [← heq.2, hmod]⟩).2.1
    · exact hh.complete hc

theorem Placed.rephase (h : s.Placed P) (hl : l < s.nextSlotSeq b) (hphase : s.phase b l ≠ .published)
    (hq : q ≠ .reserved) {c : CxlMemory} (hholds : ∀ b' < numMaxBrokers, ∀ i < P.slots, (c.ring b' i).readable = true →
      Holds P.slots (update s.phase b (update (s.phase b) l q) b') i (c.ring b' i)) :
    Placed P { s with
      topic := { s.topic with cxl := c }
      phase := update s.phase b (update (s.phase b) l q) } := by
  have hmono : ∀ b' l', s.phase b' l' = .published →
      update s.phase b (update (s.phase b) l q) b' l' = .published := by
    intro b' l' hp
    rw [phase_update]
    split
    next heq =>
      rw [heq.1, heq.2] at hp
      exact absurd hp hphase
    · exact hp
  refine { h with
    scanned := fun b' l' hl' => ?_
    reserved := fun b' l' hp => ?_
    holds := hholds
    kept := (h.kept.mono fun _ => Real.mono hmono).of_shards rfl
    collected := fun p hp => Real.mono hmono (h.collected p hp) }
  · dsimp only
    rw [phase_update]
    split
    · exact hq
    · exact h.scanned b' l' hl'
  · dsimp only at hp
    rw [phase_update] at hp
    split at hp
    next heq =>
      rw [heq.1, heq.2]
      exact hl
    · exact h.reserved b' l' hp

theorem Placed.writeSlot (h : s.Placed P) (hok : s.Ok P incoming) {hdr : BatchHeader} (hl : l < s.nextSlotSeq b)
    (hindex : hdr.pbrAbsoluteIndex = l) (hnew : l ∉ s.scanned b) (hphase : s.phase b l ≠ .published)
    (hq : q ≠ .reserved) (hclaim : hdr.exclusiveClaim = true → q ≠ .published)
    (hcomplete : hdr.batchComplete = true → q = .published) : (s.writeSlot P b l hdr q).Placed P := by
  refine h.rephase hl hphase hq fun b' hb' i hi hr => ?_
  have hslot := slot_writeSlot (P := P) s b l hdr q b' i
  dsimp only [Cluster.slot, Cluster.writeSlot] at hslot
  rw [hslot] at hr ⊢
  split at hr
  next heq =>
    obtain ⟨rfl, rfl⟩ := heq
    rw [if_pos ⟨rfl, rfl⟩]
    have hself : update s.phase b' (update (s.phase b') l q) b' l = q := by
      rw [phase_update, if_pos ⟨rfl, rfl⟩]
    refine ⟨?_, fun l' hl' hp => ?_, fun hc => ?_, fun hc => ?_⟩
    · rw [hindex, hself]
      exact hq
    · rw [hindex]
      rw [phase_update] at hp
      split at hp
      next heq => exact Nat.le_of_eq heq.2
      · exact hok.le_of_unscanned hb' (h.reserved b' l' hp) hl' hnew
    · rw [hindex, hself]
      exact hclaim hc
    · rw [hindex, hself]
      exact hcomplete hc
  next hne =>
    rw [if_neg hne]
    exact (h.holds b' hb' i hi hr).other (hok.read hb' hi hr).2.2 hq fun heq => absurd heq hne

theorem Placed.reject (h : s.Placed P) (hok : s.Ok P incoming) (hphase : s.phase b l = .claimed) :
    Placed P { s with phase := update s.phase b (update (s.phase b) l .rejected) } := by
  have hmine : s.phase b l ≠ .reserved ∧ s.phase b l ≠ .published := by
    rw [hphase]
    exact ⟨nofun, nofun⟩
  refine h.rephase (h.reserved b l hmine.1) hmine.2 (q := .rejected) nofun fun b' hb' i hi hr => ?_
  exact (h.holds b' hb' i hi hr).other (hok.read hb' hi hr).2.2 (q := .rejected) nofun
    fun _ => ⟨hmine.1, hmine.2, nofun⟩

theorem Placed.push (h : s.Placed P) (hb : b < numMaxBrokers) (hi : i < P.slots) (hr : (s.slot b i).readable = true)
    (hbroker : p.brokerId = b) (hindex : p.cachedPbrAbsoluteIndex = (s.slot b i).pbrAbsoluteIndex)
    (hreal : p.skipped = false → (s.slot b i).batchComplete = true) (lastPushed : Nat → Nat → Option Nat) :
    Placed P { s.push p with lastPushedPbrIndex := lastPushed } := by
  have hholds := h.holds b hb i hi hr
  refine { h with
    scanned := fun b' l hl => ?_
    collected := fun q hq => ?_ }
  · dsimp only [Cluster.push] at hl
    rw [update_apply, hbroker] at hl
    split at hl
    next heq =>
      cases mem_cons.mp hl with
      | inl heq' =>
        rw [heq, heq', hindex]
        exact hholds.written
      | inr hmem => exact h.scanned b' l (heq ▸ hmem)
    · exact h.scanned b' l hl
  · cases mem_append.mp hq with
    | inl hold => exact h.collected q hold
    | inr hnew =>
      intro hs
      rw [mem_singleton.mp hnew] at hs ⊢
      rw [hbroker, hindex]
      exact hholds.complete (hreal hs)

theorem Placed.moved (h : s.Placed P) {t : Topic} (rest : List PendingBatch5)
    (hfades : s.topic.cxl.Fades t.cxl) (hkept : t.From (Real s.phase) t.readyVector)
    (hrest : ∀ p ∈ rest, p ∈ s.collected)
    (hcursor : Commit.ExportState.InStep P ⟨t.exportCursor, t.exportSequence⟩) :
    Placed P { s.observe P t with collected := rest } where
  scanned := h.scanned
  reserved := h.reserved
  holds b hb i hi hr := by
    cases hfades b i with
    | inl hf =>
      have hr' : (t.cxl.ring b i).readable = true := hr
      rw [hf] at hr'
      cases hr'
    | inr heq =>
      have hr' : (t.cxl.ring b i).readable = true := hr
      have hslot : ({ s.observe P t with collected := rest } : Cluster).slot b i =
          { s.slot b i with totalOrder := (t.cxl.ring b i).totalOrder } := heq
      rw [heq] at hr'
      rw [hslot]
      obtain ⟨hwritten, hnewest, hclaim, hcomplete⟩ := h.holds b hb i hi hr'
      exact ⟨hwritten, hnewest, hclaim, hcomplete⟩
  kept := hkept
  collected p hp := h.collected p (hrest p hp)
  cursor := hcursor

theorem Placed.classify (h : s.Placed P) {batchList rest : List PendingBatch5} {clock : PassClock} {t₁ : Topic}
    (hperm : (batchList ++ rest).Perm s.collected) (hx : Extracts P s.topic batchList clock t₁ f)
    (ht : t = { (processLevel5Batches P clock t₁ (s.topic.level5 batchList)).1 with inFlight := some f }) :
    Placed P { s.observe P t with collected := rest } := by
  have hreal : ∀ p ∈ batchList.map (·.markStale s.topic.cxl.controlEpoch), Real s.phase p := by
    intro p hp hs
    obtain ⟨q, hq, rfl⟩ := mem_map.mp hp
    obtain ⟨heq, hskip⟩ := q.markStale_eq s.topic.cxl.controlEpoch
    rw [heq]
    exact h.collected q (hperm.subset (mem_append_left _ hq)) (hskip hs)
  have hshards : t₁.shards = s.topic.shards := by rw [hx.start]
  have hcxl : t₁.cxl = s.topic.cxl := by rw [hx.start]
  have hframe := frame_process (P := P) clock t₁ (s.topic.level5 batchList)
  have hlevel5 : ∀ p ∈ s.topic.level5 batchList, Real s.phase p :=
    fun p hp => hreal p (mem_filter.mp hp).1
  obtain ⟨hkept, -⟩ := (h.kept.atRest.of_shards hshards).process (P := P) clock hlevel5
  refine h.moved _ ?_ ⟨?_, ?_, fun p hp hm => ?_⟩ (fun p hp => hperm.subset (mem_append_right _ hp)) ?_
  · rw [ht, ← hcxl]
    exact fades_process clock t₁ _
  · rw [ht]
    exact hkept.held
  · rw [ht]
    exact hkept.deferred
  · have hp' : p ∈ f.ready := by
      rw [ht] at hp
      exact hp
    rw [hx.ready] at hp'
    cases mem_append.mp hp' with
    | inl hzero => exact ⟨p, hreal p (mem_filter.mp hzero).1, .inl rfl⟩
    | inr hready => exact hkept.ready p hready hm
  · have hcursor := congrArg Topic.exportCursor hframe
    have hsequence := congrArg Topic.exportSequence hframe
    rw [hx.start] at hcursor hsequence
    have hcur : t.exportCursor = s.topic.exportCursor := by
      rw [ht, hx.start]
      exact hcursor
    have hseq : t.exportSequence = s.topic.exportSequence := by
      rw [ht, hx.start]
      exact hsequence
    rw [hcur, hseq]
    exact h.cursor

theorem inStep_commitEpoch (h : Commit.ExportState.InStep P ⟨t.exportCursor, t.exportSequence⟩) :
    Commit.ExportState.InStep P ⟨(commitEpoch P t f).exportCursor, (commitEpoch P t f).exportSequence⟩ := by
  cases hx : t.capacityExhausted with
  | true =>
    rw [commitEpoch_of_exhausted P t f hx]
    exact h
  | false =>
    rw [commitEpoch_of_running P t f hx]
    unfold Commit.localEffects
    split
    · exact h
    · exact h
    · exact h.exportWrites _

theorem inStep_sequencer5 (P : Platform) (c : CxlMemory) : Commit.ExportState.InStep P
    ⟨(sequencer5 P c).exportCursor, (sequencer5 P c).exportSequence⟩ :=
  .rebuild P (c.takeOver (recoverSequencer5State c).nextGoiIndex) _

theorem Placed.sequencer (h : s.Placed P) {e : Event}
    (hstep : s.step incoming P (.sequencer e) = some s') : s'.Placed P := by
  obtain ⟨t, ht, rfl⟩ := sequencer_of_step hstep
  cases ht with
  | idleTick hidle => exact h.classify (.refl ([] ++ s.collected)) ⟨hidle, nofun, rfl, rfl⟩ rfl
  | finalDrain hidle => exact h.classify (.refl ([] ++ s.collected)) ⟨hidle, nofun, rfl, rfl⟩ rfl
  | commit hf =>
    exact h.moved _ (fades_commitEpoch P s.topic _) (h.kept.atRest.of_shards (shards_commit P s.topic _)) (fun _ => id)
      (inStep_commitEpoch h.cursor)
  | tail => exact h.moved _ (fades_finishTail s.topic) (h.kept.of_shards rfl) (fun _ => id) h.cursor
  | beside hb =>
    refine h.moved _ (.of_ring hb.ring) ?_ (fun _ => id) ?_
    · rw [Topic.readyVector, hb.inFlight]
      exact h.kept.of_shards hb.shards
    · rw [hb.exportCursor, hb.exportSequence]
      exact h.cursor

theorem Placed.step (h : s.Placed P) (hok : s.Ok P incoming) {e : ClusterEvent}
    (hc : s.Careful incoming P e) (hstep : s.step incoming P e = some s') : s'.Placed P := by
  cases e with
  | reserve b =>
    obtain ⟨-, rfl⟩ := Runs.of_guard hstep
    exact { h with reserved := fun b' l hp => Nat.lt_of_lt_of_le (h.reserved b' l hp) (s.le_reserve b b') }
  | refresh | stop =>
    cases hstep
    exact { h with }
  | install b l =>
    obtain ⟨hl, rfl⟩ := Runs.of_guard hstep
    refine h.writeSlot hok hl.1 rfl (fun hmem => h.scanned b l hmem hl.2) ?_ (by rintro ⟨⟩) (by rintro _ ⟨⟩)
      (by rintro ⟨⟩)
    rw [hl.2]
    rintro ⟨⟩
  | publish b l =>
    obtain ⟨hl, rfl | rfl⟩ := publish_of_step hstep
    · refine h.writeSlot hok hl.1 rfl hc ?_ (by rintro ⟨⟩) (by rintro ⟨⟩) fun _ => rfl
      rw [hl.2]
      rintro ⟨⟩
    · exact h.reject hok hl.2
  | scan b i =>
    obtain ⟨hscan, rfl⟩ := Runs.of_guard hstep
    have hread := readable_of_canScan hscan
    obtain ⟨hb, hi, hready⟩ := hscan
    have hcomplete : (s.slot b i).batchComplete = true := by
      split at hready
      · rw [BatchHeader.drainReady, Bool.and_eq_true, Bool.and_eq_true] at hready
        exact hready.1.2
      · rw [BatchHeader.batchReady, Bool.and_eq_true, Bool.and_eq_true] at hready
        exact hready.1.1.2
    exact h.push hb hi hread rfl rfl (fun _ => hcomplete) _
  | skip b i =>
    obtain ⟨hs, rfl⟩ := Runs.of_guard hstep
    exact h.push hs.1 hs.2.1 (readable_of_stuck hs.2.2.2) rfl rfl (fun hs => by cases hs) s.lastPushedPbrIndex
  | extract batchList rest clock =>
    obtain ⟨hperm, hidle, hscan, rfl⟩ := extract_of_step hstep
    exact h.classify hperm ⟨hidle, hscan, rfl, rfl⟩ rfl
  | sequencer e => exact h.sequencer hstep
  | restart n =>
    cases hstep
    have hfades : s.topic.cxl.Fades (s.topic.crash P n).cxl :=
      (crash_of_quiet (P := P) hc n).symm ▸ fades_sequencer5 P _
    exact { h.moved [] hfades ⟨by rintro _ _ _ ⟨⟩, by rintro _ _ ⟨⟩, by rintro _ ⟨⟩⟩ (by rintro _ ⟨⟩)
      (inStep_sequencer5 P _) with }

theorem placed_fresh (P : Platform) : (Cluster.fresh P).Placed P where
  scanned _ _ hl := nomatch hl
  reserved _ _ h := absurd rfl h
  holds b _ i _ hr := by cases hr
  kept := ⟨nofun, nofun, nofun⟩
  collected := nofun
  cursor := inStep_sequencer5 P _

def Aligned (P : Platform) (s : Cluster) : ClusterEvent → Prop
  | .sequencer .commit => ∀ f ∈ s.topic.inFlight,
      Commit.ExportsInOrder P ⟨s.topic.exportCursor, s.topic.exportSequence⟩
        (Commit.committed (Commit.accepted s.topic f))
  | .restart _ => ∀ b < numMaxBrokers, ∀ i < P.slots, (s.slot b i).exclusiveClaim = false
  | _ => True

instance (P : Platform) (s : Commit.ExportState) (ms : List HoldBatchMetadata) :
    Decidable (Commit.ExportsInOrder P s ms) := inferInstanceAs (Decidable (∀ _ < _, _ → _))

instance (P : Platform) (s : Cluster) : ∀ e, Decidable (s.Aligned P e)
  | .sequencer .commit => inferInstanceAs (Decidable (∀ f ∈ s.topic.inFlight,
      Commit.ExportsInOrder P ⟨s.topic.exportCursor, s.topic.exportSequence⟩
        (Commit.committed (Commit.accepted s.topic f))))
  | .restart _ => inferInstanceAs (Decidable (
      ∀ b < numMaxBrokers, ∀ i < P.slots, (s.slot b i).exclusiveClaim = false))
  | .reserve _ | .refresh _ | .install .. | .publish .. | .scan .. | .skip .. | .stop
  | .extract .. => .isTrue trivial
  | .sequencer (.slotWrite ..) | .sequencer (.admitSession _) | .sequencer (.epoch ..)
  | .sequencer (.idleTick _) | .sequencer (.finalDrain _) | .sequencer .tail
  | .sequencer (.updateCommittedSeq _) | .sequencer (.crash _) | .sequencer .bumpControlEpoch
  | .sequencer (.takeFenceNote _) | .sequencer (.ackEpochCheck ..) | .sequencer (.ackRelay _) =>
    .isTrue trivial

def ExportsTo (P : Platform) (s : Cluster) : ClusterEvent → Nat → Nat → Prop
  | .sequencer .commit, b, i =>
    s.topic.inFlight.isSome = true ∧ ∃ h, .exportDescriptor ⟨b, i⟩ h ∈ s.topic.pendingWrites P
  | .restart n, b, i => b < numMaxBrokers ∧ i < P.slots ∧
      (s.topic.crash P n).cxl.ring b i ≠ s.topic.cxl.ring b i
  | _, _, _ => False

theorem Ok.not_live (hok : s.Ok P incoming) (h : s.Placed P) {q : PendingBatch5} (hp : p ∈ s.topic.readyVector)
    (hmark : p.isMarker = false) (hq : Pushed P incoming s.scanned q) (hcarry : p.Carries q) :
    ¬s.Live P q.brokerId (q.cachedPbrAbsoluteIndex % P.slots) := by
  rw [PendingBatch5.isMarker, Bool.or_eq_false_iff] at hmark
  obtain ⟨r, hr, hcarry'⟩ := h.kept.ready p hp hmark.2
  have hb := hq.sited.broker
  have hi : q.cachedPbrAbsoluteIndex % P.slots < P.slots :=
    Nat.mod_lt _ (Nat.lt_of_lt_of_le Nat.two_pos P.two_le_slots)
  have hpublished : s.phase q.brokerId q.cachedPbrAbsoluteIndex = .published := by
    have hskip : r.skipped = false := by
      cases hcarry' with
      | inl heq => rw [← heq]; exact hmark.1
      | inr heq => rw [heq] at hmark; exact hmark.1
    have hsame : r.position = q.position := hcarry'.position.symm.trans hcarry.position
    obtain ⟨hbroker, hindex⟩ := Prod.mk.inj hsame
    rw [← hbroker, ← hindex]
    exact hr hskip
  have hready : 0 < (readyPositions s.topic.readyVector).count q.position := by
    refine count_map_pos.mpr ⟨p, mem_filter.mpr ⟨hp, ?_⟩, hcarry.position⟩
    rw [hmark.2]
    rfl
  have huse : 0 < s.uses P incoming (q.brokerId, q.cachedPbrAbsoluteIndex) := by
    rw [uses]
    exact Nat.add_pos_left (Nat.add_pos_right _ hready) _
  have hlow := hok.low _ hb _ huse
  have hlap := hok.lap hb
  -- what the slot holds is the batch itself, or older
  have hown : ∀ i, i < s.nextSlotSeq q.brokerId → i % P.slots = q.cachedPbrAbsoluteIndex % P.slots →
      i ≤ q.cachedPbrAbsoluteIndex := by
    intro i hi hmod
    by_contra hlt
    have := Residue.eq_of_mod_eq hlow (by omega) (show s.frontier q.brokerId ≤ i by omega) (by omega) hmod.symm
    omega
  rintro (hclaim | ⟨hpub, hnew⟩ | ⟨l, hmod, hkeep⟩)
  · have hread : (s.slot q.brokerId (q.cachedPbrAbsoluteIndex % P.slots)).readable = true := by
      rw [BatchHeader.exclusiveClaim, Bool.and_eq_true, Bool.and_eq_true] at hclaim
      rw [BatchHeader.readable, hclaim.1.1, Bool.true_or, Bool.true_or]
    have hholds := h.holds _ hb _ hi hread
    obtain ⟨-, hlt, hmod⟩ := hok.read hb hi hread
    have hle := hown _ hlt hmod
    have hge := hholds.newest q.cachedPbrAbsoluteIndex rfl (by rw [hpublished]; rintro ⟨⟩)
    have heq := Nat.le_antisymm hle hge
    apply hholds.claim hclaim
    rw [heq]
    exact hpublished
  · have hread : (s.slot q.brokerId (q.cachedPbrAbsoluteIndex % P.slots)).readable = true := by
      rw [BatchHeader.readable, hpub, Bool.or_true]
    obtain ⟨-, hlt, hmod⟩ := hok.read hb hi hread
    have hle := hown _ hlt hmod
    cases Nat.eq_or_lt_of_le hle with
    | inl heq =>
      apply hnew
      rw [heq]
      exact hq.known
    | inr hless =>
      refine hnew (hok.passed _ hb _ (Nat.not_le.mp fun hge => ?_))
      have := hok.reserved _ hb _ hq.known
      have := Residue.eq_of_mod_eq hge (by omega) hlow (by omega) hmod
      omega
  · have hpos := hok.filed.keeps_pos (fun p hp => hp.1.sited.owner) hkeep
    have huse' := hok.pos_of_keeps hkeep
    have hlow' := hok.low _ hb _ huse'
    have := hok.reserved _ hb _ (hok.known huse').2
    have := hok.reserved _ hb _ hq.known
    have heq := Residue.eq_of_mod_eq hlow' (by omega) hlow (by omega) hmod
    have honce := hok.once q.position
    rw [uses] at honce
    rw [heq] at hpos
    change 0 < s.topic.keeps P.numShards (owner incoming) q.position at hpos
    omega

theorem Ok.not_live_of_quiet (hok : s.Ok P incoming) (hq : s.Quiet P) (hb : b < numMaxBrokers) (hi : i < P.slots)
    (hclaim : (s.slot b i).exclusiveClaim = false) : ¬s.Live P b i := by
  rintro (hlive | ⟨hpub, hnew⟩ | ⟨l, -, hkeep⟩)
  · rw [hclaim] at hlive
    cases hlive
  · have hread : (s.slot b i).readable = true := by
      rw [BatchHeader.readable, hpub, Bool.or_true]
    obtain ⟨-, hlt, -⟩ := hok.read hb hi hread
    exact hnew (hok.passed b hb _ ((hq.2.2 b hb).1 ▸ hlt))
  · have hlow := hok.low_of_keeps hb hkeep
    have hlt := hok.reserved b hb l (hok.known (hok.pos_of_keeps hkeep)).2
    rw [← (hq.2.2 b hb).1] at hlt
    exact Nat.not_lt.mpr hlow hlt

/-- As long as every position is committed in ring order, no export descriptor is written over a
claim, a publication that has not been scanned, or a batch the sequencer still refers to. -/
theorem export_descriptors_spare_live_slots (P : Platform) (incoming : Nat → Nat → BatchHeader) {es : List ClusterEvent}
    {e : ClusterEvent} {i : Nat}
    (h : Runs.Along (Cluster.step incoming P) (fun s e => s.Careful incoming P e ∧ s.Aligned P e) (.fresh P) es s)
    (hcareful : s.Careful incoming P e) (haligned : s.Aligned P e) (hexport : s.ExportsTo P e b i) : ¬s.Live P b i := by
  have hboth : s.Ok P incoming ∧ s.Placed P :=
    h.invariant (I := fun s => s.Ok P incoming ∧ s.Placed P)
      (fun _ _ _ hc hstep hs => ⟨hs.1.step hc.1 hstep, hs.2.step hs.1 hc.1 hstep⟩)
      ⟨ok_fresh P incoming, placed_fresh P⟩
  obtain ⟨hok, hplaced⟩ := hboth
  cases e with
  | restart n =>
    obtain ⟨hb, hi, -⟩ := hexport
    exact hok.not_live_of_quiet hcareful hb hi (haligned b hb i hi)
  | sequencer e =>
    cases e with
    | commit =>
      obtain ⟨hsome, hdr, hw⟩ := hexport
      obtain ⟨f, hf⟩ := Option.isSome_iff_exists.mp hsome
      rw [Topic.pendingWrites, hf] at hw
      dsimp only at hw
      split at hw
      · cases hw
      next hx =>
        have hmem := mem_exportWrites_of_descriptor (Bool.eq_false_iff.mpr hx) hw rfl
        obtain ⟨m, hm, ha⟩ := Commit.exportDescriptor_own_slot _ hplaced.cursor (haligned f hf) hmem
        obtain ⟨p, hp, rfl⟩ := mem_map.mp hm
        obtain ⟨hacc, hmark⟩ := mem_filter.mp hp
        have hready : p ∈ s.topic.readyVector := by
          rw [Topic.readyVector, hf]
          exact Commit.accepted_subset s.topic f p hacc
        have hmark' : p.isMarker = false := by simpa using hmark
        have hheld : p.isHeldMarker = false := (Bool.or_eq_false_iff.mp hmark').2
        obtain ⟨q, hq, hcarry⟩ := hok.ready p hready hheld
        rw [hcarry.commitMeta hq.raw.1] at ha
        obtain ⟨rfl, rfl⟩ := SlotAddr.mk.inj ha
        exact hok.not_live hplaced hready hmark' hq hcarry
    | _ => exact hexport.elim
  | _ => exact hexport.elim

def inOrderRun : List ClusterEvent :=
  List.flatten [ arrives 1 0, [.scan 1 0], epochOf (.ofSlot 1 0 (reservation (overtaken 1) 1 0)) 1,
    arrives 0 0, [.scan 0 0, .extract [.ofSlot 0 0 (reservation (overtaken 1) 0 0)] [] (scenarioClock 2)]]

theorem export_descriptors_spare_live_slots_inOrderRun :
    ∃ s, Runs.Along (Cluster.step (overtaken 1) .small)
        (fun s e => s.Careful (overtaken 1) .small e ∧ s.Aligned .small e)
        (.fresh .small) inOrderRun s ∧
      s.ExportsTo .small (.sequencer .commit) 0 0 ∧ ¬s.Live .small 0 0 := by
  refine Runs.exists_of_exec (fun s : Cluster =>
    (s.topic.inFlight.isSome,
      decide (∃ w ∈ s.topic.pendingWrites .small, ∃ h ∈ w.descriptor?, w = .exportDescriptor ⟨0, 0⟩ h),
      decide (s.Aligned .small (.sequencer .commit))))
    (true, true, true) (by decide +kernel) fun s hrun hs => ?_
  obtain ⟨hsome, hs⟩ := Prod.mk.inj hs
  obtain ⟨hwrite, halign⟩ := Prod.mk.inj hs
  obtain ⟨w, hw, hdr, -, rfl⟩ := of_decide_eq_true hwrite
  have hexport : s.ExportsTo .small (.sequencer .commit) 0 0 := ⟨hsome, hdr, hw⟩
  exact ⟨hexport, export_descriptors_spare_live_slots (e := .sequencer .commit) .small
    (overtaken 1) hrun trivial (of_decide_eq_true halign) hexport⟩

def abandoned : Nat → Nat → BatchHeader := fun _ l =>
  { arrivedHeader (if l < 2 then 7 else 6 + l) with
    batchSeq := if l = 1 then 1 else 0, epochCreated := 1 }

def abandonedRun : List ClusterEvent :=
  [.refresh 0, .reserve 0, .reserve 0, .install 0 0, .install 0 1, .skip 0 0, .skip 0 1,
    .extract [.skipMarker 0 0 (reservation abandoned 0 0), .skipMarker 0 1 (reservation abandoned 0 1)]
      [] (scenarioClock 1), .sequencer .commit, .sequencer .tail,
    .refresh 0, .reserve 0, .reserve 0, .reserve 0, .install 0 2, .publish 0 2, .scan 0 2,
    .extract [.ofSlot 0 2 (reservation abandoned 0 2)] [] (scenarioClock 2),
    .install 0 4, .publish 0 4]

/-- The first descriptor of broker 0 goes to slot 0, which by now holds a publication that no scanner
has seen. -/
theorem export_descriptor_clobbers_publication :
    ∃ s, Runs.Along (Cluster.step abandoned .small) (Careful abandoned .small)
        (.fresh .small) abandonedRun s ∧
      s.ExportsTo .small (.sequencer .commit) 0 0 ∧
      (s.slot 0 0).pbrAbsoluteIndex = 4 ∧ s.Live .small 0 0 := by
  refine Runs.exists_of_exec (fun s : Cluster =>
    (s.topic.inFlight.isSome,
      decide (∃ w ∈ s.topic.pendingWrites .small, ∃ h ∈ w.descriptor?, w = .exportDescriptor ⟨0, 0⟩ h),
      (s.slot 0 0).pbrAbsoluteIndex,
      decide ((s.slot 0 0).publishCommitted = true ∧ (s.slot 0 0).pbrAbsoluteIndex ∉ s.scanned 0)))
    (true, true, 4, true) (by decide +kernel) fun s hrun hs => ?_
  obtain ⟨hsome, hs⟩ := Prod.mk.inj hs
  obtain ⟨hwrite, hs⟩ := Prod.mk.inj hs
  obtain ⟨hindex, hlive⟩ := Prod.mk.inj hs
  obtain ⟨w, hw, hdr, -, rfl⟩ := of_decide_eq_true hwrite
  exact ⟨⟨hsome, hdr, hw⟩, hindex, .inr (.inl (of_decide_eq_true hlive))⟩

end Cluster

end Embarcadero
