import Embarcadero.Cluster
import Embarcadero.Crash
import Embarcadero.RingContents

namespace Embarcadero

open Function (update update_apply update_self)
open List
open Residue (Points)

section

variable (P : Platform) (incoming : Nat → Nat → BatchHeader) (scanned : Nat → List Nat)

structure Pushed (p : PendingBatch5) : Prop where
  sited : p.Sited P.slots (owner incoming)
  raw : p.Scanned
  known : p.cachedPbrAbsoluteIndex ∈ scanned p.brokerId

def Kept (p : PendingBatch5) : Prop := Pushed P incoming scanned p ∧ p.clientId ≠ 0

structure EpochInFlight.Ok (collected : List PendingBatch5) (frontier : Nat → Nat)
    (f : EpochInFlight) : Prop where
  batch : ∀ p ∈ f.batchList, Pushed P incoming scanned p ∧ (collected.map (·.position)).count p.position = 0
  lane : ∀ b, f.Sees b → ∃ start top, f.Lane P b start top (frontier b)

end

section

variable {P : Platform} {incoming : Nat → Nat → BatchHeader}

theorem position_markStale (p : PendingBatch5) (epoch : Nat) : (p.markStale epoch).position = p.position := by
  rw [(p.markStale_eq epoch).1]
  rfl

theorem Pushed.markStale {scanned : Nat → List Nat} {p : PendingBatch5}
    (h : Pushed P incoming scanned p) (epoch : Nat) :
    Pushed P incoming scanned (p.markStale epoch) := by
  rw [(p.markStale_eq epoch).1]
  exact ⟨⟨h.sited.owner, h.sited.slot, h.sited.broker, h.sited.client⟩, h.raw, h.known⟩

theorem count_levels (t : Topic) (batchList : List PendingBatch5) (x : Position) :
    ((t.level5 batchList).map (·.position)).count x + ((t.level0 batchList).map (·.position)).count x =
      (batchList.map (·.position)).count x := by
  have hperm := (filter_append_perm (fun p : PendingBatch5 => decide (p.clientId ≠ 0))
    (batchList.map (·.markStale t.cxl.controlEpoch))).map (·.position)
  have hcount := hperm.count_eq x
  rw [map_append, count_append, map_map] at hcount
  have hsame : (PendingBatch5.position ∘ fun p : PendingBatch5 => p.markStale t.cxl.controlEpoch) =
      PendingBatch5.position := funext fun p => position_markStale p _
  rw [show (fun p : PendingBatch5 => p.position) = PendingBatch5.position from rfl] at hcount ⊢
  rw [hsame] at hcount
  rw [← hcount, Topic.level5, Topic.level0]
  congr 4
  funext p
  simp

theorem tailConsumed_process (clock : PassClock) (t : Topic) (level5 : List PendingBatch5) :
    (processLevel5Batches P clock t level5).1.tailConsumed = t.tailConsumed :=
  (congrArg Topic.tailConsumed (frame_process clock t level5) :)

theorem readyPositions_level0 {t : Topic} {batchList : List PendingBatch5} (hscan : ∀ p ∈ batchList, p.Scanned) :
    readyPositions (t.level0 batchList) = (t.level0 batchList).map (·.position) := by
  rw [readyPositions, filter_eq_self.mpr]
  intro p hp
  obtain ⟨q, hq, rfl⟩ := mem_map.mp (mem_filter.mp hp).1
  rw [(q.markStale_eq _).1]
  exact congrArg not (hscan q hq).2.1

end

namespace Cluster

section

variable (P : Platform) (incoming : Nat → Nat → BatchHeader) (s : Cluster)

def uses (x : Position) : Nat :=
  s.topic.keeps P.numShards (owner incoming) x + (readyPositions s.topic.readyVector).count x +
    (s.collected.map (·.position)).count x

def TailOk (b : Nat) : Prop :=
  ∃ r, s.frontier b ≤ r ∧ r < s.frontier b + P.slots ∧ Points P.slots (s.topic.finishTail.cxl.consumedThrough b) r ∧
    ∀ l, s.frontier b ≤ l → l < r → l ∈ s.scanned b ∧ s.uses P incoming (b, l) = 0

structure Ok : Prop where
  room : ∀ b < numMaxBrokers, s.nextSlotSeq b ≤ s.cachedConsumedSeq b + (P.slots - 1)
  bounded : ∀ b < numMaxBrokers, s.nextSlotSeq b ≤ sequenceMax
  clients : ∀ b < numMaxBrokers, ∀ l < s.nextSlotSeq b, (incoming b l).clientId < 2 ^ 32
  cached : ∀ b < numMaxBrokers, s.cachedConsumedSeq b ≤ s.frontier b
  points : ∀ b < numMaxBrokers, Points P.slots (s.topic.cxl.consumedThrough b) (s.frontier b)
  passed : ∀ b < numMaxBrokers, ∀ l < s.frontier b, l ∈ s.scanned b
  reserved : ∀ b < numMaxBrokers, ∀ l ∈ s.scanned b, l < s.nextSlotSeq b
  once : ∀ x, s.uses P incoming x ≤ 1
  low : ∀ b < numMaxBrokers, ∀ l, 0 < s.uses P incoming (b, l) → s.frontier b ≤ l
  filed : s.topic.Filed P.numShards (Kept P incoming s.scanned) (Kept P incoming s.scanned)
  collected : ∀ p ∈ s.collected, Pushed P incoming s.scanned p
  ready : ∀ p ∈ s.topic.readyVector, p.isHeldMarker = false → ∃ q, Pushed P incoming s.scanned q ∧ p.Carries q
  slots : ∀ b < numMaxBrokers, ∀ i < P.slots, (s.slot b i).readable = true → ∃ l < s.nextSlotSeq b, l % P.slots = i ∧
      PendingBatch5.ofSlot b i (s.slot b i) = .ofSlot b i (reservation incoming b l)
  pushed : s.stopThreads = false → ∀ b < numMaxBrokers, ∀ i < P.slots,
    (s.slot b i).batchReady = true → (s.slot b i).pbrAbsoluteIndex ∈ s.scanned b →
      s.lastPushedPbrIndex b i = some (s.slot b i).pbrAbsoluteIndex
  flight : ∀ f, s.topic.inFlight = some f →
    s.topic.tailConsumed = [] ∧ f.Ok P incoming s.scanned s.collected s.frontier
  tail : ∀ b < numMaxBrokers, s.TailOk P incoming b

end

variable {P : Platform} {incoming : Nat → Nat → BatchHeader} {s s' : Cluster} {b l : Nat} {e : Event}

theorem slot_writeSlot (s : Cluster) (b l : Nat) (hdr : BatchHeader) (q : ReceiverPhase) (b' i : Nat) :
    (s.writeSlot P b l hdr q).slot b' i = if b' = b ∧ i = l % P.slots then hdr else s.slot b' i := by
  dsimp only [Cluster.slot, Cluster.writeSlot, CxlMemory.setSlot]
  rw [update_apply]
  split
  next hb =>
    rw [update_apply, hb]
    simp only [true_and]
  next hb => rw [if_neg fun hbi => hb hbi.1]

theorem readable_of_canScan {i : Nat} (hc : s.canScan P b i) : (s.slot b i).readable = true := by
  obtain ⟨-, -, hready⟩ := hc
  split at hready
  · rw [BatchHeader.drainReady, Bool.and_eq_true, Bool.and_eq_true] at hready
    rw [BatchHeader.readable, hready.1.1, Bool.or_true, Bool.true_or]
  · exact BatchHeader.readable_of_batchReady hready.1

theorem readable_of_stuck {h : BatchHeader} (hstuck : h.stuck = true) : h.readable = true := by
  rw [BatchHeader.stuck, Bool.and_eq_true, Bool.and_eq_true] at hstuck
  rw [BatchHeader.readable, Bool.or_right_comm, hstuck.2, Bool.true_or]

theorem le_reserve (s : Cluster) (b' b : Nat) :
    s.nextSlotSeq b ≤ update s.nextSlotSeq b' (s.nextSlotSeq b' + 1) b := by
  rw [update_apply]
  split
  next hb =>
    rw [hb]
    exact Nat.le_succ _
  · exact Nat.le_refl _

theorem clients_reserve (h : ∀ b < numMaxBrokers, ∀ l < s.nextSlotSeq b, (incoming b l).clientId < 2 ^ 32) {b' : Nat}
    (hc : s.canReserve incoming P b') : ∀ b < numMaxBrokers,
      ∀ l < update s.nextSlotSeq b' (s.nextSlotSeq b' + 1) b, (incoming b l).clientId < 2 ^ 32 := by
  intro b hb l hl
  rw [update_apply] at hl
  split at hl
  next heq =>
    subst heq
    cases Nat.lt_succ_iff_lt_or_eq.mp hl with
    | inl hl => exact h b hb l hl
    | inr hl => exact hl ▸ hc.2.2.1
  · exact h b hb l hl

theorem publish_of_step (hstep : s.step incoming P (.publish b l) = some s') :
    (l < s.nextSlotSeq b ∧ s.phase b l = .claimed) ∧
      (s' = s.writeSlot P b l (reservation incoming b l).published .published ∨
        s' = { s with phase := update s.phase b (update (s.phase b) l .rejected) }) := by
  rw [Cluster.step] at hstep
  split at hstep
  next hl =>
    split at hstep
    · cases hstep
      exact ⟨hl, .inl rfl⟩
    · cases hstep
      exact ⟨hl, .inr rfl⟩
  · cases hstep

theorem extract_of_step {batchList rest : List PendingBatch5} {clock : PassClock}
    (hstep : s.step incoming P (.extract batchList rest clock) = some s') : (batchList ++ rest).Perm s.collected ∧
      s.topic.Idle ∧ (∀ p ∈ batchList, p.Scanned) ∧
      s' = { s.observe P (s.topic.beginEpoch P batchList clock) with collected := rest } := by
  rw [Cluster.step] at hstep
  split at hstep
  next hperm =>
    obtain ⟨t, ht, rfl⟩ := Option.map_eq_some_iff.mp hstep
    obtain ⟨hguard, rfl⟩ := Runs.of_guard ht
    exact ⟨hperm, hguard.1, hguard.2, rfl⟩
  · cases hstep

structure Beside (t t' : Topic) : Prop where
  shards : t'.shards = t.shards
  inFlight : t'.inFlight = t.inFlight
  tailConsumed : t'.tailConsumed = t.tailConsumed
  ring : t'.cxl.ring = t.cxl.ring
  consumedThrough : t'.cxl.consumedThrough = t.cxl.consumedThrough
  capacityExhausted : t'.capacityExhausted = t.capacityExhausted
  exportCursor : t'.exportCursor = t.exportCursor
  exportSequence : t'.exportSequence = t.exportSequence

inductive Sequences (P : Platform) (t : Topic) : Event → Topic → Prop where
  | idleTick {clock : PassClock} (h : t.Idle) : Sequences P t (.idleTick clock) (t.idleTick P clock)
  | finalDrain {clock : PassClock} (h : t.Idle) : Sequences P t (.finalDrain clock) (t.finalDrain P clock)
  | commit {f : EpochInFlight} (h : t.inFlight = some f) : Sequences P t .commit (t.commit P f)
  | tail : Sequences P t .tail t.finishTail
  | beside {e : Event} {t' : Topic} (h : Beside t t') : Sequences P t e t'

theorem sequencer_of_step (hstep : s.step incoming P (.sequencer e) = some s') :
    ∃ t, Sequences P s.topic e t ∧ s' = s.observe P t := by
  have hmap : ∃ t, Embarcadero.step P s.topic e = some t ∧ s' = s.observe P t := by
    cases e with
    | slotWrite | epoch | crash => cases hstep
    | admitSession | tail | updateCommittedSeq | bumpControlEpoch | ackEpochCheck =>
      cases hstep
      exact ⟨_, rfl, rfl⟩
    | idleTick | finalDrain | commit | takeFenceNote | ackRelay =>
      obtain ⟨t, ht, rfl⟩ := Option.map_eq_some_iff.mp hstep
      exact ⟨t, ht, rfl⟩
  obtain ⟨t, ht, rfl⟩ := hmap
  refine ⟨t, ?_, rfl⟩
  cases e with
  | slotWrite | epoch | crash => cases hstep
  | idleTick clock =>
    obtain ⟨hguard, rfl⟩ := Runs.of_guard ht
    exact .idleTick hguard
  | finalDrain clock =>
    obtain ⟨hguard, rfl⟩ := Runs.of_guard ht
    exact .finalDrain hguard
  | commit =>
    obtain ⟨f, hf, rfl⟩ := Option.map_eq_some_iff.mp ht
    exact .commit hf
  | tail =>
    cases ht
    exact .tail
  | admitSession k | bumpControlEpoch =>
    cases ht
    exact .beside ⟨rfl, rfl, rfl, rfl, rfl, rfl, rfl, rfl⟩
  | updateCommittedSeq n =>
    cases ht
    refine .beside ⟨rfl, rfl, rfl, ?_, ?_, rfl, rfl, rfl⟩
    all_goals
      dsimp only [Topic.committedSeqUpdater]
      split <;> rfl
  | takeFenceNote _ | ackEpochCheck _ _ | ackRelay _ =>
    obtain ⟨_, _, _, _, rfl⟩ := relays_of_step rfl ht
    exact .beside ⟨rfl, rfl, rfl, rfl, rfl, rfl, rfl, rfl⟩

theorem shards_commit (P : Platform) (t : Topic) (f : EpochInFlight) : (t.commit P f).shards = t.shards :=
  (congrArg Topic.shards (commitEpoch_shape P t f) :)

theorem keeps_of_shards {t t' : Topic} (h : t'.shards = t.shards) (n : Nat) (owner : Position → SessionKey × Nat)
    (x : Position) : t'.keeps n owner x = t.keeps n owner x := by
  rw [Topic.keeps, h]
  rfl

theorem fades_finishTail (t : Topic) : t.cxl.Fades t.finishTail.cxl :=
  CxlMemory.fades_writes fun w hw => by
    obtain ⟨x, -, rfl⟩ := mem_map.mp hw
    exact nofun

theorem finishTail_of_nil {t : Topic} (h : t.tailConsumed = []) : t.finishTail.cxl = t.cxl := by
  rw [Topic.finishTail, Topic.tailWrites, h]
  rfl

theorem below_update {α : Type} {Q : Nat → α → Prop} {f : Nat → α} (h : ∀ b < numMaxBrokers, Q b (f b))
    {b' : Nat} {v : α}
    (hv : b' < numMaxBrokers → Q b' v) : ∀ b < numMaxBrokers, Q b (update f b' v b) := by
  intro b hb
  rw [update_apply]
  split
  next heq => exact heq ▸ hv (heq ▸ hb)
  · exact h b hb

namespace Ok

variable (h : s.Ok P incoming)

include h

theorem frontier_le (hb : b < numMaxBrokers) : s.frontier b ≤ s.nextSlotSeq b := by
  by_contra hlt
  exact Nat.lt_irrefl _ (h.reserved b hb _ (h.passed b hb _ (Nat.not_le.mp hlt)))

theorem lap (hb : b < numMaxBrokers) : s.nextSlotSeq b < s.frontier b + P.slots := by
  have := h.room b hb
  have := h.cached b hb
  have := P.two_le_slots
  omega

theorem unwrap (hb : b < numMaxBrokers) :
    unwrapPBRConsumed (s.cachedConsumedSeq b) (s.topic.cxl.consumedSlot P.slots b) P.slots = s.frontier b := by
  have hslot : s.topic.cxl.consumedSlot P.slots b = s.frontier b % P.slots := (h.points b hb).slot
  have hle := h.frontier_le hb
  have := h.room b hb
  have := P.two_le_slots
  rw [hslot]
  exact unwrapPBRConsumed_eq P.two_le_slots (h.cached b hb) (by omega) (hle.trans (h.bounded b hb))

theorem exists_of_uses {x : Position} (hx : 0 < s.uses P incoming x) :
    ∃ p, Pushed P incoming s.scanned p ∧ p.position = x := by
  rw [uses, Nat.add_pos_iff_pos_or_pos, Nat.add_pos_iff_pos_or_pos] at hx
  rcases hx with (hx | hx) | hx
  · exact (h.filed.exists_of_keeps (fun _ => id) hx).imp fun p hp => hp.imp_left And.left
  · exact exists_of_readyPositions h.ready hx
  · exact (count_map_pos.mp hx).imp fun p hp => hp.imp_left (h.collected p)

theorem known {x : Position} (hx : 0 < s.uses P incoming x) :
    x.1 < numMaxBrokers ∧ x.2 ∈ s.scanned x.1 := by
  obtain ⟨p, hp, rfl⟩ := h.exists_of_uses hx
  exact ⟨hp.sited.broker, hp.known⟩

theorem pos_of_keeps {x : Position} (hk : s.topic.Keeps x) : 0 < s.uses P incoming x := by
  have hpos := h.filed.keeps_pos (fun p hp => hp.1.sited.owner) hk
  rw [uses]
  omega

theorem low_of_keeps (hb : b < numMaxBrokers) (hk : s.topic.Keeps (b, l)) : s.frontier b ≤ l :=
  h.low b hb l (h.pos_of_keeps hk)

theorem uses_eq_zero (hl : l ∉ s.scanned b) : s.uses P incoming (b, l) = 0 :=
  Nat.eq_zero_of_not_pos fun hx => hl (h.known hx).2

end Ok

theorem TailOk.of_nil (hpoints : Points P.slots (s.topic.cxl.consumedThrough b) (s.frontier b))
    (ht : s.topic.tailConsumed = []) : s.TailOk P incoming b := by
  have := P.two_le_slots
  refine ⟨s.frontier b, Nat.le_refl _, by omega, ?_, fun l hl hl' => absurd hl' (Nat.not_lt.mpr hl)⟩
  rw [finishTail_of_nil ht]
  exact hpoints

theorem consumedThrough_writes_congr (ws : List CxlWrite) : ∀ {c c' : CxlMemory},
    c'.consumedThrough = c.consumedThrough →
      (c'.writes ws).consumedThrough = (c.writes ws).consumedThrough := by
  induction ws with
  | nil => exact id
  | cons w ws ih =>
    intro c c' h
    apply ih
    cases w with
    | consumedThrough b v =>
      dsimp only [CxlMemory.write]
      rw [h]
    | _ => exact h

theorem TailOk.of_eq (h : s.TailOk P incoming b) (hf : s'.frontier b = s.frontier b)
    (ht : s'.topic.tailConsumed = s.topic.tailConsumed)
    (hc : s'.topic.cxl.consumedThrough = s.topic.cxl.consumedThrough)
    (huse : ∀ l ∈ s.scanned b, l ∈ s'.scanned b ∧ (s.uses P incoming (b, l) = 0 → s'.uses P incoming (b, l) = 0)) :
    s'.TailOk P incoming b := by
  obtain ⟨r, hr, hlap, hpoints, hfree⟩ := h
  rw [TailOk, hf]
  refine ⟨r, hr, hlap, ?_, fun l hl hl' => ?_⟩
  · rw [Topic.finishTail, Topic.tailWrites, ht]
    dsimp only
    rw [consumedThrough_writes_congr _ hc]
    exact hpoints
  · obtain ⟨hscan, hzero⟩ := hfree l hl hl'
    exact (huse l hscan).imp_right fun h => h hzero

variable {f : EpochInFlight} {batchList : List PendingBatch5} {b' i : Nat}
  {lastPushed : Nat → Nat → Option Nat} {p : PendingBatch5}

namespace Ok

variable (h : s.Ok P incoming)

include h

theorem reserve (hc : s.canReserve incoming P b') :
    Ok P incoming { s with nextSlotSeq := update s.nextSlotSeq b' (s.nextSlotSeq b' + 1) } := by
  have hle := s.le_reserve b'
  obtain ⟨-, -, -, hcached, hroom, hmax, -⟩ := id hc
  exact { h with
    room := below_update (Q := fun b n => n ≤ s.cachedConsumedSeq b + (P.slots - 1)) h.room fun _ => by omega
    bounded := below_update (Q := fun _ n => n ≤ sequenceMax) h.bounded fun hb => by
      have := h.bounded b' hb
      omega
    clients := clients_reserve h.clients hc
    reserved := fun b hb l hl => Nat.lt_of_lt_of_le (h.reserved b hb l hl) (hle b)
    slots := fun b hb i hi hr => (h.slots b hb i hi hr).imp fun l hl =>
      hl.imp_left fun hlt => Nat.lt_of_lt_of_le hlt (hle b) }

theorem refresh (b' : Nat) :
    Ok P incoming { s with
      cachedConsumedSeq := update s.cachedConsumedSeq b'
        (PBR.refreshed P.slots (s.cachedConsumedSeq b') (s.topic.cxl.consumedThrough b')) } := by
  have hval : b' < numMaxBrokers → PBR.refreshed P.slots (s.cachedConsumedSeq b')
      (s.topic.cxl.consumedThrough b') = s.frontier b' := by
    intro hb
    rw [PBR.refreshed, if_pos ⟨(h.points b' hb).1, P.two_le_slots⟩]
    exact h.unwrap hb
  exact { h with
    room := below_update (Q := fun b n => s.nextSlotSeq b ≤ n + (P.slots - 1)) h.room fun hb => by
      have := h.room b' hb
      have := h.cached b' hb
      rw [hval hb]
      omega
    cached := below_update (Q := fun b n => n ≤ s.frontier b) h.cached fun hb => Nat.le_of_eq (hval hb) }

theorem writeSlot {l' : Nat} {hdr : BatchHeader} (q : ReceiverPhase)
    (hl : l' < s.nextSlotSeq b') (hhdr : ∀ i, PendingBatch5.ofSlot b' i hdr = .ofSlot b' i (reservation incoming b' l'))
    (hnew : hdr.batchReady = true → l' ∉ s.scanned b') : (s.writeSlot P b' l' hdr q).Ok P incoming := by
  have hindex : hdr.pbrAbsoluteIndex = l' := congrArg PendingBatch5.cachedPbrAbsoluteIndex (hhdr 0)
  exact { h with
    slots := fun b hb i hi hr => by
      rw [slot_writeSlot] at hr ⊢
      split
      next heq =>
        rw [heq.1]
        exact ⟨l', hl, heq.2.symm, hhdr i⟩
      next hne =>
        rw [if_neg hne] at hr
        exact h.slots b hb i hi hr
    pushed := fun hstop b hb i hi hr hscan => by
      rw [slot_writeSlot] at hr hscan ⊢
      split at hr
      next heq =>
        rw [if_pos heq, hindex, heq.1] at hscan
        exact absurd hscan (hnew hr)
      next hne =>
        rw [if_neg hne] at hscan ⊢
        exact h.pushed hstop b hb i hi hr hscan
    tail := fun b hb => (h.tail b hb).of_eq rfl rfl rfl fun l hl => ⟨hl, id⟩ }

theorem push (hsite : p.Sited P.slots (owner incoming)) (hraw : p.Scanned)
    (hlt : p.cachedPbrAbsoluteIndex < s.nextSlotSeq p.brokerId) (hnew : p.cachedPbrAbsoluteIndex ∉ s.scanned p.brokerId)
    (hlast : s.stopThreads = false → ∀ b < numMaxBrokers, ∀ i < P.slots,
      (s.slot b i).batchReady = true →
      (s.slot b i).pbrAbsoluteIndex ∈ (s.push p).scanned b → lastPushed b i = some (s.slot b i).pbrAbsoluteIndex) :
    Ok P incoming { s.push p with lastPushedPbrIndex := lastPushed } := by
  have hmore : ∀ b l, l ∈ s.scanned b → l ∈ (s.push p).scanned b := by
    intro b l hl
    dsimp only [Cluster.push]
    rw [update_apply]
    split
    next hb => exact mem_cons_of_mem _ (hb ▸ hl)
    · exact hl
  have hpushed : ∀ q, Pushed P incoming s.scanned q → Pushed P incoming (s.push p).scanned q :=
    fun q hq => { hq with known := hmore _ _ hq.known }
  have hthis : Pushed P incoming (s.push p).scanned p := by
    refine ⟨hsite, hraw, ?_⟩
    dsimp only [Cluster.push]
    rw [update_self]
    exact mem_cons_self
  have huses : ∀ x, uses P incoming { s.push p with lastPushedPbrIndex := lastPushed } x =
      s.uses P incoming x + [p.position].count x := by
    intro x
    dsimp only [uses, Cluster.push]
    rw [map_append, count_append]
    exact (Nat.add_assoc ..).symm
  have hzero : s.uses P incoming p.position = 0 := h.uses_eq_zero hnew
  have hne : ∀ x, x.2 ∈ s.scanned x.1 → [p.position].count x = 0 := by
    intro x hx
    rw [count_singleton]
    refine if_neg fun heq => hnew ?_
    rw [← beq_iff_eq.mp heq] at hx
    exact hx
  refine { h with
    passed := fun b hb l hl => hmore b l (h.passed b hb l hl)
    reserved := fun b hb l hl => ?_
    once := fun x => ?_
    low := fun b hb l hx => ?_
    filed := ?_
    collected := fun q hq => ?_
    ready := fun q hq hm => (h.ready q hq hm).imp fun r hr => hr.imp_left (hpushed r)
    pushed := hlast
    flight := fun f hf => ?_
    tail := fun b hb => (h.tail b hb).of_eq rfl rfl rfl fun l hl => ⟨hmore b l hl, fun h0 => ?_⟩ }
  · refine below_update (Q := fun b ls => ∀ l ∈ ls, l < s.nextSlotSeq b) h.reserved (fun hb l hl => ?_) b hb l hl
    cases mem_cons.mp hl with
    | inl hl => exact hl ▸ hlt
    | inr hl => exact h.reserved _ hb l hl
  · rw [huses]
    by_cases hx : p.position = x
    · rw [← hx, hzero, count_singleton_self]
    · rw [count_singleton, if_neg (by simpa using hx)]
      exact h.once x
  · rw [huses] at hx
    by_cases hscan : l ∈ s.scanned b
    · rw [hne (b, l) hscan] at hx
      exact h.low b hb l hx
    · exact Nat.not_lt.mp fun hlt => hscan (h.passed b hb l hlt)
  · exact h.filed.mono (fun q => And.imp_left (hpushed q)) (fun q => And.imp_left (hpushed q))
  · cases mem_append.mp hq with
    | inl hold => exact hpushed q (h.collected q hold)
    | inr hnew => exact mem_singleton.mp hnew ▸ hthis
  · refine (h.flight f hf).imp_right fun hok => { hok with
      batch := fun q hq => (hok.batch q hq).imp (hpushed q) fun h0 => ?_ }
    dsimp only [Cluster.push]
    rw [map_append, count_append, h0, Nat.zero_add]
    exact hne q.position (hok.batch q hq).1.known
  · rw [huses, h0, Nat.zero_add]
    exact hne (b, l) hl

theorem read (hb : b < numMaxBrokers) (hi : i < P.slots) (hr : (s.slot b i).readable = true) :
    (PendingBatch5.ofSlot b i (s.slot b i)).Sited P.slots (owner incoming) ∧
      (s.slot b i).pbrAbsoluteIndex < s.nextSlotSeq b ∧
      (s.slot b i).pbrAbsoluteIndex % P.slots = i := by
  obtain ⟨l, hl, hmod, heq⟩ := h.slots b hb i hi hr
  have hindex : (s.slot b i).pbrAbsoluteIndex = l :=
    congrArg PendingBatch5.cachedPbrAbsoluteIndex heq
  rw [heq, hindex]
  exact ⟨⟨rfl, hmod.symm, hb, h.clients b hb l hl⟩, hl, hmod⟩

theorem pushSlot (hb : b < numMaxBrokers) (hi : i < P.slots)
    (hr : (s.slot b i).readable = true) (hnew : (s.slot b i).pbrAbsoluteIndex ∉ s.scanned b)
    (hp : p = .ofSlot b i (s.slot b i) ∨ p = .skipMarker b i (s.slot b i))
    (hsame : ∀ b' i', (b', i') ≠ (b, i) → lastPushed b' i' = s.lastPushedPbrIndex b' i')
    (hthis : s.stopThreads = false → (s.slot b i).batchReady = true →
      lastPushed b i = some (s.slot b i).pbrAbsoluteIndex) :
    Ok P incoming { s.push p with lastPushedPbrIndex := lastPushed } := by
  obtain ⟨hsite, hlt, hmod⟩ := h.read hb hi hr
  obtain ⟨hsite', hraw, hbroker, hindex⟩ : p.Sited P.slots (owner incoming) ∧ p.Scanned ∧ p.brokerId = b ∧
      p.cachedPbrAbsoluteIndex = (s.slot b i).pbrAbsoluteIndex := by
    rcases hp with rfl | rfl
    · exact ⟨hsite, ⟨rfl, rfl, rfl⟩, rfl, rfl⟩
    · exact ⟨⟨hsite.owner, hsite.slot, hsite.broker, hsite.client⟩, ⟨rfl, rfl, rfl⟩, rfl, rfl⟩
  refine h.push hsite' hraw (by rwa [hbroker, hindex]) (by rwa [hbroker, hindex]) ?_
  intro hstop b' hb' i' hi' hready hscan
  by_cases hsame' : (b', i') = (b, i)
  · cases hsame'
    exact hthis hstop hready
  · rw [hsame b' i' hsame']
    apply h.pushed hstop b' hb' i' hi' hready
    dsimp only [Cluster.push] at hscan
    rw [update_apply, hbroker, hindex] at hscan
    split at hscan
    next heq =>
      cases mem_cons.mp hscan with
      | inl hidx =>
        -- the same position would be in the same slot
        have hmod' := (h.read hb' hi' (BatchHeader.readable_of_batchReady hready)).2.2
        rw [hidx, hmod] at hmod'
        exact absurd (by rw [heq, hmod']) hsame'
      | inr hscan => exact heq ▸ hscan
    · exact hscan

theorem frontier_observe (hb : b < numMaxBrokers) {t : Topic} {r : Nat}
    (hpoints : Points P.slots (t.cxl.consumedThrough b) r) (hle : s.frontier b ≤ r) (hlap : r < s.frontier b + P.slots)
    (hscan : ∀ l, s.frontier b ≤ l → l < r → l ∈ s.scanned b) : (s.observe P t).frontier b = r := by
  have hslot : t.cxl.consumedSlot P.slots b = r % P.slots := hpoints.slot
  have hnext : r ≤ s.nextSlotSeq b := by
    by_cases heq : r = s.frontier b
    · exact heq ▸ h.frontier_le hb
    · have := h.reserved b hb (r - 1) (hscan (r - 1) (by omega) (by omega))
      omega
  dsimp only [observe]
  rw [hslot]
  exact unwrapPBRConsumed_eq P.two_le_slots hle hlap (hnext.trans (h.bounded b hb))

theorem frontier_observe_same (hb : b < numMaxBrokers) {t : Topic}
    (hconsumed : t.cxl.consumedThrough = s.topic.cxl.consumedThrough) : (s.observe P t).frontier b = s.frontier b := by
  have := P.two_le_slots
  exact h.frontier_observe hb (hconsumed ▸ h.points b hb) (Nat.le_refl _) (by omega)
    fun l hl hl' => absurd hl' (Nat.not_lt.mpr hl)

end Ok

/-- The topic changes under the producers and scanners; `frontier'` is where the new values of
`consumed_through` point. -/
structure Moves (P : Platform) (incoming : Nat → Nat → BatchHeader) (s : Cluster) (t : Topic)
    (rest : List PendingBatch5) (frontier' : Nat → Nat) : Prop where
  points : ∀ b < numMaxBrokers, Points P.slots (t.cxl.consumedThrough b) (frontier' b)
  start : ∀ b < numMaxBrokers, s.frontier b ≤ frontier' b
  lap : ∀ b < numMaxBrokers, frontier' b < s.frontier b + P.slots
  passed : ∀ b < numMaxBrokers, ∀ l, s.frontier b ≤ l → l < frontier' b → l ∈ s.scanned b
  fades : s.topic.cxl.Fades t.cxl
  once : ∀ x, uses P incoming { s with topic := t, collected := rest } x ≤ 1
  low : ∀ b < numMaxBrokers, ∀ l,
    0 < uses P incoming { s with topic := t, collected := rest } (b, l) → frontier' b ≤ l
  filed : t.Filed P.numShards (Kept P incoming s.scanned) (Kept P incoming s.scanned)
  collected : ∀ p ∈ rest, p ∈ s.collected
  ready : ∀ p ∈ t.readyVector, p.isHeldMarker = false → ∃ q, Pushed P incoming s.scanned q ∧ p.Carries q

namespace Moves

variable {t : Topic} {rest : List PendingBatch5} {frontier' : Nat → Nat}

theorem frontier_observe (hm : Moves P incoming s t rest frontier') (h : s.Ok P incoming)
    (hb : b < numMaxBrokers) : (s.observe P t).frontier b = frontier' b :=
  h.frontier_observe hb (hm.points b hb) (hm.start b hb) (hm.lap b hb) (hm.passed b hb)

theorem ok (hm : Moves P incoming s t rest frontier') (h : s.Ok P incoming)
    (hflight : ∀ f, t.inFlight = some f → t.tailConsumed = [] ∧
      (∀ p ∈ f.batchList, Pushed P incoming s.scanned p ∧ (rest.map (·.position)).count p.position = 0) ∧
      ∀ b, f.Sees b → ∃ start top, f.Lane P b start top (frontier' b))
    (htail : t.tailConsumed = [] ∨ ∀ b < numMaxBrokers, TailOk P incoming { s.observe P t with collected := rest } b) :
    Ok P incoming { s.observe P t with collected := rest } := by
  have hfront : ∀ b < numMaxBrokers, (s.observe P t).frontier b = frontier' b :=
    fun b hb => hm.frontier_observe h hb
  have hpoints : ∀ b < numMaxBrokers, Points P.slots (t.cxl.consumedThrough b) ((s.observe P t).frontier b) :=
    fun b hb => hfront b hb ▸ hm.points b hb
  exact {
    room := h.room
    bounded := h.bounded
    clients := h.clients
    cached := fun b hb => (h.cached b hb).trans (hfront b hb ▸ hm.start b hb)
    points := hpoints
    passed := fun b hb l hl => by
      rw [hfront b hb] at hl
      by_cases hlow : l < s.frontier b
      · exact h.passed b hb l hlow
      · exact hm.passed b hb l (Nat.not_lt.mp hlow) hl
    reserved := h.reserved
    once := hm.once
    low := fun b hb l hl => hfront b hb ▸ hm.low b hb l hl
    filed := hm.filed
    collected := fun p hp => h.collected p (hm.collected p hp)
    ready := hm.ready
    slots := fun b hb i hi hr => by
      obtain ⟨hread, -, -, hsame⟩ := (hm.fades b i).same hr
      exact (h.slots b hb i hi hread).imp fun l hl =>
        hl.imp_right fun hl => hl.imp_right ((hsame b i).trans)
    pushed := fun hstop b hb i hi hr hscan => by
      obtain ⟨-, hready, hindex, -⟩ :=
        (hm.fades b i).same (BatchHeader.readable_of_batchReady hr)
      have hidx : (s.slot b i).pbrAbsoluteIndex ∈ s.scanned b := hindex ▸ hscan
      exact (h.pushed hstop b hb i hi (hready ▸ hr) hidx).trans (congrArg some hindex.symm)
    flight := fun f hf => by
      obtain ⟨hnil, hbatch, hlane⟩ := hflight f hf
      refine ⟨hnil, hbatch, fun b hb => ?_⟩
      rw [show frontier _ b = frontier' b from hfront b hb.1]
      exact hlane b hb
    tail := fun b hb => by
      cases htail with
      | inl hnil => exact .of_nil (hpoints b hb) hnil
      | inr htail => exact htail b hb }

end Moves

def Waiting (P : Platform) (incoming : Nat → Nat → BatchHeader) (s : Cluster)
    (batchList : List PendingBatch5) (p : PendingBatch5) : Prop :=
  Kept P incoming s.scanned p ∧
    (p ∈ s.topic.level5 batchList ∨ 0 < s.topic.waiting P.numShards (owner incoming) p.position)

theorem Ok.uses_idle {rest : List PendingBatch5} (hidle : s.topic.Idle) (hperm : (batchList ++ rest).Perm s.collected)
    (x : Position) :
    s.uses P incoming x = s.topic.keeps P.numShards (owner incoming) x +
      (batchList.map (·.position)).count x + (rest.map (·.position)).count x := by
  have hready : s.topic.readyVector = [] := by
    rw [Topic.readyVector, Option.isNone_iff_eq_none.mp hidle.1]
    rfl
  rw [uses, hready, ← (hperm.map (·.position)).count_eq x, map_append, count_append]
  exact (Nat.add_assoc ..).symm

theorem Ok.classify (h : s.Ok P incoming) {rest : List PendingBatch5} {clock : PassClock} {t₁ : Topic}
    (hperm : (batchList ++ rest).Perm s.collected) (hx : Extracts P s.topic batchList clock t₁ f) {t : Topic}
    (ht : t = { (processLevel5Batches P clock t₁ (s.topic.level5 batchList)).1 with inFlight := some f }) :
    ∃ frontier', Moves P incoming s t rest frontier' ∧
      Frontiers P.slots s.frontier s.nextSlotSeq (Waiting P incoming s batchList)
        (uses P incoming { s with topic := t, collected := rest }) t.cxl.consumedThrough
        frontier' := by
  have hsub : ∀ p ∈ batchList, p ∈ s.collected :=
    fun p hp => hperm.subset (mem_append_left _ hp)
  have hpushed : ∀ p ∈ batchList.map (·.markStale s.topic.cxl.controlEpoch), Pushed P incoming s.scanned p := by
    intro p hp
    obtain ⟨q, hq, rfl⟩ := mem_map.mp hp
    exact (h.collected q (hsub q hq)).markStale _
  have hl : ∀ p ∈ s.topic.level5 batchList, Waiting P incoming s batchList p := by
    intro p hp
    obtain ⟨hmem, hc⟩ := mem_filter.mp hp
    exact ⟨⟨hpushed p hmem, of_decide_eq_true hc⟩, .inl hp⟩
  have hshards : t₁.shards = s.topic.shards := by rw [hx.start]
  have hcxl : t₁.cxl = s.topic.cxl := by rw [hx.start]
  have hfiled : t₁.Filed P.numShards (Kept P incoming s.scanned) (Waiting P incoming s batchList) := by
    intro i
    rw [hshards]
    exact h.filed.waiting (fun p hp => hp.1.sited.owner) (· ∈ s.topic.level5 batchList) i
  have huse : s.uses P incoming = fun x => t₁.keeps P.numShards (owner incoming) x +
      ((s.topic.level5 batchList).map (·.position)).count x +
        (((s.topic.level0 batchList).map (·.position)).count x + (rest.map (·.position)).count x) := by
    funext x
    have := count_levels s.topic batchList x
    rw [Ok.uses_idle hx.idle hperm, keeps_of_shards hshards]
    omega
  have hstart : Frontiers P.slots s.frontier s.nextSlotSeq (Waiting P incoming s batchList) (s.uses P incoming)
      t₁.cxl.consumedThrough s.frontier := by
    rw [hcxl]
    refine ⟨h.once, fun b hb => ?_, fun b hb l hl hl' => absurd hl' (Nat.not_lt.mpr hl)⟩
    exact ⟨h.points b hb, Nat.le_refl _, h.frontier_le hb, h.lap hb, fun l hl =>
      ⟨h.low b hb l hl, h.reserved b hb l (h.known hl).2⟩⟩
  rw [huse] at hstart
  obtain ⟨hfiled', hready', frontier', hf⟩ := Classifying.process (fun _ hp => hp.1)
    (fun p hp => hp.1.sited) hl hfiled clock hstart
  have hvector : t.readyVector = f.ready := by
    rw [ht]
    rfl
  have huses : ∀ x, uses P incoming { s with topic := t, collected := rest } x =
      Topic.uses P.numShards (owner incoming) (fun x =>
        ((s.topic.level0 batchList).map (·.position)).count x + (rest.map (·.position)).count x) []
        P.numShards (processLevel5Batches P clock t₁ (s.topic.level5 batchList)) x := by
    intro x
    have hshards : t.shards = (processLevel5Batches P clock t₁ (s.topic.level5 batchList)).1.shards := by rw [ht]
    have hkeep := keeps_of_shards hshards P.numShards (owner incoming) x
    dsimp only [uses]
    rw [hvector, hkeep, hx.ready, readyPositions_append, count_append, readyPositions_level0 hx.scanned, Topic.uses]
    simp only [fromShard, filter_nil, map_nil, count_nil]
    omega
  have hconsumed : t.cxl = (processLevel5Batches P clock t₁ (s.topic.level5 batchList)).1.cxl := by
    rw [ht]
  have hf' : Frontiers P.slots s.frontier s.nextSlotSeq (Waiting P incoming s batchList)
      (uses P incoming { s with topic := t, collected := rest }) t.cxl.consumedThrough
      frontier' := by
    rw [hconsumed]
    exact hf.mono fun x => Nat.le_of_eq (huses x)
  refine ⟨frontier', ?_, hf'⟩
  exact {
    points := fun b hb => (hf'.lane b hb).points
    start := fun b hb => (hf'.lane b hb).start
    lap := fun b hb => Nat.lt_of_le_of_lt (hf'.lane b hb).reach (hf'.lane b hb).lap
    passed := fun b hb l hl hl' => by
      obtain ⟨p, hp, hat⟩ := hf'.passed b hb l hl hl'
      obtain ⟨rfl, rfl⟩ := Prod.mk.inj hat
      exact hp.1.1.known
    fades := by
      rw [hconsumed, ← hcxl]
      exact fades_process clock t₁ _
    once := hf'.once
    low := fun b hb l hl => ((hf'.lane b hb).inUse l hl).1
    filed := by
      rw [ht]
      exact hfiled'.mono (fun _ => id) fun _ => And.left
    collected := fun p hp => hperm.subset (mem_append_right _ hp)
    ready := fun p hp hm => by
      rw [hvector, hx.ready] at hp
      cases mem_append.mp hp with
      | inl hp => exact ⟨p, hpushed p (mem_filter.mp hp).1, .inl rfl⟩
      | inr hp => exact (hready' p hp hm).imp fun q hq => hq.imp_left fun hq => hq.1.1 }

theorem lane_ready {t : Topic} {rest : List PendingBatch5} {S : PendingBatch5 → Prop} {frontier' : Nat → Nat}
    (hb : b < numMaxBrokers) (hf : Frontiers P.slots s.frontier s.nextSlotSeq S
      (uses P incoming { s with topic := t, collected := rest }) t.cxl.consumedThrough frontier')
    (hflight : t.inFlight = some f) (hl : 0 < (readyPositions f.ready).count (b, l)) :
    frontier' b ≤ l ∧ l < s.nextSlotSeq b := by
  apply (hf.lane b hb).inUse
  dsimp only [uses]
  rw [Topic.readyVector, hflight]
  dsimp only [Option.map, Option.getD]
  omega

theorem Ok.extract (h : s.Ok P incoming) {rest : List PendingBatch5} (hperm : (batchList ++ rest).Perm s.collected)
    (hidle : s.topic.Idle) (hscan : ∀ p ∈ batchList, p.Scanned)
    (hwait : ∀ p ∈ batchList, ∀ l < s.nextSlotSeq p.brokerId,
      s.topic.waiting P.numShards (owner incoming) (p.brokerId, l) = 0) (clock : PassClock) :
    Ok P incoming { s.observe P (s.topic.beginEpoch P batchList clock) with collected := rest } := by
  obtain ⟨frontier', hm, hf⟩ := h.classify hperm ⟨hidle, hscan, rfl, rfl⟩
    (t := s.topic.beginEpoch P batchList clock) rfl
  have htail : (s.topic.beginEpoch P batchList clock).tailConsumed = [] :=
    (tailConsumed_process clock _ _).trans hidle.2
  refine hm.ok h (fun f hflight => ⟨htail, fun p hp => ?_, fun b hb => ?_⟩) (.inl htail)
  · cases hflight
    obtain ⟨q, hq, rfl⟩ := mem_map.mp hp
    have hmem := hperm.subset (mem_append_left _ hq)
    refine ⟨(h.collected q hmem).markStale _, ?_⟩
    have honce := h.once q.position
    rw [Ok.uses_idle hidle hperm] at honce
    have hpos := (count_map_pos (f := fun p : PendingBatch5 => p.position)).mpr ⟨q, hq, rfl⟩
    rw [position_markStale]
    omega
  · have hready := fun l => lane_ready (l := l) hb.1 hf hflight
    cases hflight
    obtain ⟨-, hany⟩ := Bool.and_eq_true_iff.mp hb.2
    obtain ⟨p, hp, hpb⟩ := any_eq_true.mp hany
    obtain ⟨q, hq, rfl⟩ := mem_map.mp hp
    have hqb : q.brokerId = b := by
      rw [(q.markStale_eq _).1] at hpb
      exact of_decide_eq_true hpb
    refine ⟨s.frontier b, s.nextSlotSeq b, ?_⟩
    exact {
      snapshot := (if_pos hb.2).trans (h.points b hb.1).slot
      start_le := hm.start b hb.1
      le_top := (hf.lane b hb.1).reach
      lap := h.lap hb.1
      batch := fun p hp hpb => by
        obtain ⟨r, hr, rfl⟩ := mem_map.mp hp
        have huse : 0 < s.uses P incoming r.position := by
          rw [Ok.uses_idle hidle hperm]
          have hpos := (count_map_pos (f := fun p : PendingBatch5 => p.position)).mpr ⟨r, hr, rfl⟩
          omega
        rw [(r.markStale_eq _).1] at hpb ⊢
        obtain rfl : r.brokerId = b := hpb
        exact ⟨h.low _ hb.1 _ huse, h.reserved _ hb.1 _ (h.known huse).2⟩
      ready := hready
      passed := fun l hl hl' => by
        obtain ⟨p, hp, hat⟩ := hf.passed b hb.1 l hl hl'
        cases hp.2 with
        | inl hmem => exact ⟨p, (mem_filter.mp hmem).1, hat⟩
        | inr hpos =>
          have hlt := Nat.lt_of_lt_of_le hl' (hf.lane b hb.1).reach
          rw [hat, ← hqb, hwait q hq l (hqb ▸ hlt)] at hpos
          cases hpos }

theorem Ok.idleTick (h : s.Ok P incoming) (hidle : s.topic.Idle) (clock : PassClock) :
    (s.observe P (s.topic.idleTick P clock)).Ok P incoming := by
  obtain ⟨frontier', hm, hf⟩ := h.classify (.refl ([] ++ s.collected))
    ⟨hidle, nofun, rfl, rfl⟩ (t := s.topic.idleTick P clock) rfl
  have htail : (s.topic.idleTick P clock).tailConsumed = [] :=
    (tailConsumed_process clock _ _).trans hidle.2
  refine hm.ok h (fun f hflight => ⟨htail, fun p hp => ?_, fun b hb => ?_⟩) (.inl htail)
  · cases hflight
    cases hp
  · cases hflight
    cases hb.2

theorem Ok.finalDrain (h : s.Ok P incoming) (hidle : s.topic.Idle) (clock : PassClock) :
    (s.observe P (s.topic.finalDrain P clock)).Ok P incoming := by
  obtain ⟨frontier', hm, hf⟩ := h.classify (.refl ([] ++ s.collected))
    ⟨hidle, nofun, rfl, rfl⟩ (t := s.topic.finalDrain P clock) rfl
  have htail : (s.topic.finalDrain P clock).tailConsumed = [] :=
    (tailConsumed_process clock _ _).trans hidle.2
  refine hm.ok h (fun f hflight => ⟨htail, fun p hp => ?_, fun b hb => ?_⟩) (.inl htail)
  · cases hflight
    cases hp
  · have hready := fun l => lane_ready (l := l) hb.1 hf hflight
    cases hflight
    have hlane := hf.lane b hb.1
    have hlap := hlane.lap
    have hstart := hlane.start
    refine ⟨frontier' b, s.nextSlotSeq b, ?_⟩
    exact {
      snapshot := (if_pos hb.2).trans hlane.points.slot
      start_le := Nat.le_refl _
      le_top := hlane.reach
      lap := by omega
      batch := nofun
      ready := hready
      passed := fun l hl hl' => absurd hl' (Nat.not_lt.mpr hl) }

structure Frees (P : Platform) (incoming : Nat → Nat → BatchHeader) (s : Cluster) (b v r : Nat) :
    Prop where
  start : s.frontier b ≤ r
  lap : r < s.frontier b + P.slots
  points : Points P.slots v r
  free : ∀ l, s.frontier b ≤ l → l < r → l ∈ s.scanned b ∧ s.topic.keeps P.numShards (owner incoming) (b, l) +
      (s.collected.map (·.position)).count (b, l) = 0

theorem Ok.frees_self (h : s.Ok P incoming) (hb : b < numMaxBrokers) :
    s.Frees P incoming b (s.topic.cxl.consumedThrough b) (s.frontier b) := by
  have := P.two_le_slots
  exact ⟨Nat.le_refl _, by omega, h.points b hb, fun l hl hl' => absurd hl' (Nat.not_lt.mpr hl)⟩

theorem Ok.frees_contiguousAfter (h : s.Ok P incoming) (hf : s.topic.inFlight = some f) (hb : f.Sees b) :
    ∃ r, s.Frees P incoming b (Commit.contiguousAfter P s.topic f b) r ∧
      ∀ p ∈ f.batchList, p.position = (b, r) → 0 < s.topic.keeps P.numShards (owner incoming) (b, r) := by
  obtain ⟨-, hok⟩ := h.flight f hf
  obtain ⟨start, top, hlane⟩ := hok.lane b hb
  have hready : s.topic.readyVector = f.ready := by
    rw [Topic.readyVector, hf]
    rfl
  have honce : ∀ l, s.topic.keeps P.numShards (owner incoming) (b, l) +
      (readyPositions f.ready).count (b, l) + (s.collected.map (·.position)).count (b, l) ≤ 1 := by
    intro l
    have := h.once (b, l)
    rwa [uses, hready] at this
  obtain ⟨r, hle, htop, hpoints, hfree, hstop⟩ := contiguousAfter_frontier hb.1 hb.2 hlane
    (fun q hq => ⟨hq.1.sited, hq.2⟩) h.filed (fun p hp => (hok.batch p hp).1.sited)
    (fun p hp hm => (h.ready p (hready ▸ hp) hm).imp fun q hq => ⟨⟨hq.1.sited, hq.1.raw.1⟩, hq.2⟩)
    (fun l => Nat.le_of_add_right_le (honce l)) fun l hl => h.low b hb.1 l (by rw [uses]; omega)
  have hlap := hlane.lap
  have hstart := hlane.start_le
  refine ⟨r, ⟨hle, by omega, hpoints, fun l hl hl' => ?_⟩, hstop⟩
  obtain ⟨hkeep, hfrom⟩ := hfree l hl hl'
  cases hfrom with
  | inl hcount =>
    have huse : 0 < s.uses P incoming (b, l) := by
      rw [uses, hready]
      omega
    have := honce l
    exact ⟨(h.known huse).2, by omega⟩
  | inr hbatch =>
    obtain ⟨p, hp, hat⟩ := hbatch
    obtain ⟨hpush, hzero⟩ := hok.batch p hp
    rw [hat] at hzero
    obtain ⟨rfl, rfl⟩ := Prod.mk.inj hat
    exact ⟨hpush.known, by omega⟩

theorem consumedThrough_finishTail {t : Topic} {contiguous : Nat → Nat}
    (ht : t.tailConsumed = Commit.tailConsumed f contiguous) (b : Nat) :
    t.finishTail.cxl.consumedThrough b = if f.Sees b then contiguous b else t.cxl.consumedThrough b := by
  have hw : t.tailWrites = ((List.range numMaxBrokers).filter f.brokerSeen).map
      fun b => .consumedThrough b (contiguous b) := by
    rw [Topic.tailWrites, ht, Commit.tailConsumed, map_map]
    rfl
  rw [Topic.finishTail]
  dsimp only
  rw [hw, consumedThrough_stores]
  simp only [mem_seen]

theorem uses_commit (P : Platform) (incoming : Nat → Nat → BatchHeader) (s : Cluster)
    (f : EpochInFlight) (x : Position) :
    uses P incoming { s with topic := s.topic.commit P f } x =
      s.topic.keeps P.numShards (owner incoming) x + (s.collected.map (·.position)).count x := by
  dsimp only [uses]
  rw [keeps_of_shards (shards_commit P s.topic f)]
  rfl

theorem Ok.moves_commit (h : s.Ok P incoming) (f : EpochInFlight) {r : Nat → Nat}
    (hr : ∀ b < numMaxBrokers, s.Frees P incoming b ((s.topic.commit P f).cxl.consumedThrough b) (r b)) :
    Moves P incoming s (s.topic.commit P f) s.collected r := by
  have hmono : ∀ x, uses P incoming { s with topic := s.topic.commit P f } x ≤
      s.uses P incoming x := by
    intro x
    rw [uses_commit, uses]
    omega
  exact {
    points := fun b hb => (hr b hb).points
    start := fun b hb => (hr b hb).start
    lap := fun b hb => (hr b hb).lap
    passed := fun b hb l hl hl' => ((hr b hb).free l hl hl').1
    fades := fades_commitEpoch P s.topic f
    once := fun x => (hmono x).trans (h.once x)
    low := fun b hb l hl => by
      have hlow := h.low b hb l (Nat.lt_of_lt_of_le hl (hmono _))
      by_contra hlt
      have hzero := ((hr b hb).free l hlow (Nat.not_le.mp hlt)).2
      rw [uses_commit, hzero] at hl
      cases hl
    filed := fun i => shards_commit P s.topic f ▸ h.filed i
    collected := fun _ => id
    ready := nofun }

theorem Ok.commit (h : s.Ok P incoming) (hf : s.topic.inFlight = some f) :
    (s.observe P (s.topic.commit P f)).Ok P incoming := by
  have hnil := (h.flight f hf).1
  cases commitsRings_commitEpoch P s.topic f with
  | stopped hconsumed htail hx =>
    refine (h.moves_commit f (r := s.frontier) fun b hb => ?_).ok h nofun (.inl (htail.trans hnil))
    rw [show (s.topic.commit P f).cxl.consumedThrough = _ from hconsumed]
    exact h.frees_self hb
  | done hx hconsumed htail =>
    choose! r hr using fun b (hb : f.Sees b) =>
      (h.frees_contiguousAfter hf hb).imp fun r hr => hr.1
    have hm := h.moves_commit f (r := fun b =>
        if f.batchList ≠ [] ∧ f.Sees b then r b else s.frontier b) fun b hb => by
      rw [show (s.topic.commit P f).cxl.consumedThrough b = _ from hconsumed b]
      split
      · exact hr b (And.right ‹_›)
      · exact h.frees_self hb
    refine hm.ok h nofun ?_
    cases htail with
    | inl htail => exact .inl (htail.trans hnil)
    | inr htail =>
      refine .inr fun b hb => ?_
      have hfront := hm.frontier_observe h hb
      have htail' := consumedThrough_finishTail (t := s.topic.commit P f) htail b
      have hpos : 0 < P.slots := Nat.lt_of_lt_of_le Nat.two_pos P.two_le_slots
      -- the tail brings the brokers of the epoch to the value already computed
      change ∃ _, (s.observe P (s.topic.commit P f)).frontier b ≤ _ ∧ _ ∧
        Points P.slots ((s.topic.commit P f).finishTail.cxl.consumedThrough b) _ ∧ _
      rw [hfront, htail']
      by_cases hsee : f.Sees b
      · rw [if_pos hsee]
        refine ⟨r b, ?_, ?_, (hr b hsee).points, fun l hl hl' => ?_⟩
        · split
          · exact Nat.le_refl _
          · exact (hr b hsee).start
        · split
          · exact Nat.lt_add_of_pos_right hpos
          · exact (hr b hsee).lap
        · have hlow : s.frontier b ≤ l := Nat.le_trans (hm.start b hb) (hfront ▸ hl)
          refine ((hr b hsee).free l hlow hl').imp_right fun hzero => ?_
          exact (uses_commit P incoming s f (b, l)).trans hzero
      · rw [if_neg hsee, if_neg fun hs => hsee hs.2]
        refine ⟨s.frontier b, Nat.le_refl _, Nat.lt_add_of_pos_right hpos, ?_, fun l hl hl' => ?_⟩
        · have hsame := hm.points b hb
          rwa [if_neg fun hs => hsee hs.2] at hsame
        · omega

theorem Ok.moves_same (h : s.Ok P incoming) {t : Topic} {rest : List PendingBatch5}
    (hconsumed : t.cxl.consumedThrough = s.topic.cxl.consumedThrough) (hfades : s.topic.cxl.Fades t.cxl)
    (huses : ∀ x, uses P incoming { s with topic := t, collected := rest } x ≤ s.uses P incoming x)
    (hfiled : t.Filed P.numShards (Kept P incoming s.scanned) (Kept P incoming s.scanned))
    (hrest : ∀ p ∈ rest, p ∈ s.collected) (hready : ∀ p ∈ t.readyVector, p.isHeldMarker = false →
      ∃ q, Pushed P incoming s.scanned q ∧ p.Carries q) : Moves P incoming s t rest s.frontier where
  points b hb := hconsumed ▸ h.points b hb
  start _ _ := Nat.le_refl _
  lap _ hb := (h.frees_self hb).lap
  passed _ _ _ hl hl' := absurd hl' (Nat.not_lt.mpr hl)
  fades := hfades
  once x := (huses x).trans (h.once x)
  low b hb l hl := h.low b hb l (Nat.lt_of_lt_of_le hl (huses _))
  filed := hfiled
  collected := hrest
  ready := hready

theorem Ok.beside (h : s.Ok P incoming) {t : Topic} (hb : Beside s.topic t) : (s.observe P t).Ok P incoming := by
  have hready : t.readyVector = s.topic.readyVector := by
    rw [Topic.readyVector, hb.inFlight]
    rfl
  have huses : ∀ x, uses P incoming { s with topic := t } x = s.uses P incoming x := by
    intro x
    dsimp only [uses]
    rw [keeps_of_shards hb.shards, hready]
  have hm := h.moves_same hb.consumedThrough (.of_ring hb.ring) (fun x => Nat.le_of_eq (huses x))
    (fun i => hb.shards ▸ h.filed i) (fun _ => id) fun p hp => h.ready p (hready ▸ hp)
  refine hm.ok h (fun f hf => ?_) (.inr fun b hb' => ?_)
  · exact (h.flight f (hb.inFlight ▸ hf)).imp hb.tailConsumed.trans fun hok => ⟨hok.batch, hok.lane⟩
  · apply (h.tail b hb').of_eq (hm.frontier_observe h hb') hb.tailConsumed hb.consumedThrough
    exact fun l hl => ⟨hl, (huses (b, l)).trans⟩

theorem Ok.finishTail (h : s.Ok P incoming) : (s.observe P s.topic.finishTail).Ok P incoming := by
  by_cases hnil : s.topic.tailConsumed = []
  · have hcxl := finishTail_of_nil hnil
    exact h.beside ⟨rfl, rfl, hnil.symm, congrArg CxlMemory.ring hcxl, congrArg CxlMemory.consumedThrough hcxl,
      rfl, rfl, rfl⟩
  · have hflight : ∀ f, s.topic.inFlight ≠ some f := fun f hf => hnil (h.flight f hf).1
    choose! r hle hlap hpoints hfree using h.tail
    have hm : Moves P incoming s s.topic.finishTail s.collected r := {
      points := hpoints
      start := hle
      lap := hlap
      passed := fun b hb l hl hl' => (hfree b hb l hl hl').1
      fades := fades_finishTail s.topic
      once := h.once
      low := fun b hb l hl => by
        by_contra hlt
        have hzero := (hfree b hb l (h.low b hb l hl) (Nat.not_le.mp hlt)).2
        exact absurd (hzero ▸ hl) (Nat.lt_irrefl 0)
      filed := h.filed
      collected := fun _ => id
      ready := h.ready }
    exact hm.ok h (fun f hf => absurd hf (hflight f)) (.inl rfl)

def Quiet (P : Platform) (s : Cluster) : Prop :=
  s.topic.Idle ∧ s.collected = [] ∧ ∀ b < numMaxBrokers, s.frontier b = s.nextSlotSeq b ∧
    ∀ i < P.slots, (s.slot b i).batchReady = false

instance (P : Platform) (s : Cluster) : Decidable (s.Quiet P) :=
  inferInstanceAs (Decidable (_ ∧ _ ∧ _))

theorem crash_of_quiet (hq : s.Quiet P) (n : Nat) : (s.topic.crash P n).cxl = (sequencer5 P s.topic.cxl).cxl := by
  have hpending : s.topic.pendingWrites P = [] := by
    rw [Topic.pendingWrites, Option.isNone_iff_eq_none.mp hq.1.1]
    dsimp only
    rw [Topic.tailWrites, hq.1.2]
    rfl
  rw [Topic.crash, Topic.surviving, hpending, take_nil]
  rfl

theorem Ok.restart (h : s.Ok P incoming) (hq : s.Quiet P) (n : Nat) :
    Ok P incoming { s.observe P (s.topic.crash P n) with
      collected := [], lastPushedPbrIndex := fun _ _ => none, stopThreads := false } := by
  have hcxl := crash_of_quiet hq n
  have hconsumed : (s.topic.crash P n).cxl.consumedThrough = s.topic.cxl.consumedThrough := by
    rw [hcxl]
    exact (congrArg CxlMemory.consumedThrough (rebuildExportDescriptors_eq P _ _) :)
  have hfades : s.topic.cxl.Fades (s.topic.crash P n).cxl := hcxl ▸ fades_sequencer5 P _
  have hm : Moves P incoming s (s.topic.crash P n) [] _ := h.moves_same hconsumed hfades (fun _ => Nat.zero_le _)
    (fun i => ⟨nofun, nofun, fun k => ⟨nofun, .nil⟩, nofun⟩) nofun nofun
  exact { hm.ok h nofun (.inl rfl) with
    pushed := fun _ b hb i hi hr => by
      obtain ⟨-, hready, -⟩ := (hfades b i).same (BatchHeader.readable_of_batchReady hr)
      exact absurd (hready ▸ hr) (Bool.eq_false_iff.mp ((hq.2.2 b hb).2 i hi)) }

theorem ok_fresh (P : Platform) (incoming : Nat → Nat → BatchHeader) : (Cluster.fresh P).Ok P incoming := by
  have hslots := P.two_le_slots
  have hpoints : Points P.slots P.slots 0 := ⟨Nat.le_refl _, by rw [Nat.mod_self, Nat.zero_mod]⟩
  have hread : ∀ b i, ((Cluster.fresh P).slot b i).readable = false := fun _ _ => rfl
  exact {
    room := fun b _ => Nat.zero_le _
    bounded := fun b _ => Nat.zero_le _
    clients := fun b _ l hl => absurd hl (Nat.not_lt_zero l)
    cached := fun b _ => Nat.le_refl _
    points := fun b _ => hpoints
    passed := fun b _ l hl => absurd hl (Nat.not_lt_zero l)
    reserved := nofun
    once := fun x => Nat.zero_le 1
    low := fun b hb l hl => absurd hl (Nat.lt_irrefl 0)
    filed := fun i => ⟨nofun, nofun, fun k => ⟨nofun, .nil⟩, nofun⟩
    collected := nofun
    ready := nofun
    slots := fun b _ i _ hr => absurd hr (Bool.eq_false_iff.mp (hread b i))
    pushed := fun _ b _ i _ hr => absurd (BatchHeader.readable_of_batchReady hr) (Bool.eq_false_iff.mp (hread b i))
    flight := nofun
    tail := fun b _ => .of_nil hpoints rfl }

def Careful (incoming : Nat → Nat → BatchHeader) (P : Platform) (s : Cluster) : ClusterEvent → Prop
  | .publish b l => l ∉ s.scanned b
  | .scan b i => s.stopThreads = true → (s.slot b i).pbrAbsoluteIndex ∉ s.scanned b
  | .skip b i => (s.slot b i).pbrAbsoluteIndex ∉ s.scanned b
  | .extract batchList _ _ => ∀ p ∈ batchList, ∀ l < s.nextSlotSeq p.brokerId,
      s.topic.waiting P.numShards (owner incoming) (p.brokerId, l) = 0
  | .restart _ => s.Quiet P
  | _ => True

instance (incoming : Nat → Nat → BatchHeader) (P : Platform) (s : Cluster) (e : ClusterEvent) :
    Decidable (s.Careful incoming P e) := by
  cases e <;> dsimp only [Careful] <;> infer_instance

theorem Ok.scan (h : s.Ok P incoming) (hc : s.canScan P b i)
    (hnew : s.stopThreads = true → (s.slot b i).pbrAbsoluteIndex ∉ s.scanned b) : (s.scan b i).Ok P incoming := by
  have hread := readable_of_canScan hc
  obtain ⟨hb, hi, hready⟩ := hc
  cases hstop : s.stopThreads with
  | true =>
    rw [Cluster.scan, hstop, if_pos rfl]
    exact h.pushSlot hb hi hread (hnew hstop) (.inl rfl) (fun _ _ _ => rfl) fun hf => by
      rw [hstop] at hf
      cases hf
  | false =>
    rw [hstop, if_neg Bool.false_ne_true] at hready
    have hfirst : (s.slot b i).pbrAbsoluteIndex ∉ s.scanned b :=
      fun hmem => hready.2 (h.pushed hstop b hb i hi hready.1 hmem)
    rw [Cluster.scan, hstop, if_neg Bool.false_ne_true]
    refine h.pushSlot hb hi hread hfirst (.inl rfl) (fun b' i' hne => ?_) fun _ _ => ?_
    · rw [update_apply]
      split
      next heq => rw [Function.update_of_ne fun hi' => hne (by rw [heq, hi']), heq]
      · rfl
    · rw [update_self, update_self]

theorem Ok.skip (h : s.Ok P incoming) (hb : b < numMaxBrokers) (hi : i < P.slots) (hstuck : (s.slot b i).stuck = true)
    (hnew : (s.slot b i).pbrAbsoluteIndex ∉ s.scanned b) : (s.push (.skipMarker b i (s.slot b i))).Ok P incoming := by
  have hread := readable_of_stuck hstuck
  rw [BatchHeader.stuck, Bool.and_eq_true, Bool.and_eq_true, Bool.not_eq_true'] at hstuck
  exact h.pushSlot hb hi hread hnew (.inr rfl) (fun _ _ _ => rfl) fun _ hr => by
    rw [hstuck.1.1] at hr
    cases hr

theorem Ok.sequencer (h : s.Ok P incoming) (hstep : s.step incoming P (.sequencer e) = some s') : s'.Ok P incoming := by
  obtain ⟨t, ht, rfl⟩ := sequencer_of_step hstep
  cases ht with
  | idleTick hidle => exact h.idleTick hidle _
  | finalDrain hidle => exact h.finalDrain hidle _
  | commit hf => exact h.commit hf
  | tail => exact h.finishTail
  | beside hb => exact h.beside hb

theorem Ok.step (h : s.Ok P incoming) {e : ClusterEvent} (hc : s.Careful incoming P e)
    (hstep : s.step incoming P e = some s') : s'.Ok P incoming := by
  cases e with
  | reserve b =>
    obtain ⟨hguard, rfl⟩ := Runs.of_guard hstep
    exact h.reserve hguard
  | refresh b =>
    cases hstep
    exact h.refresh b
  | install b l =>
    obtain ⟨hl, rfl⟩ := Runs.of_guard hstep
    exact h.writeSlot .claimed hl.1 (fun _ => rfl) fun hr => by cases hr
  | publish b l =>
    obtain ⟨hl, rfl | rfl⟩ := publish_of_step hstep
    · exact h.writeSlot .published hl.1 (fun _ => rfl) fun _ => hc
    · exact { h with tail := fun b hb => (h.tail b hb).of_eq rfl rfl rfl fun l hl => ⟨hl, id⟩ }
  | scan b i =>
    obtain ⟨hguard, rfl⟩ := Runs.of_guard hstep
    exact h.scan hguard hc
  | skip b i =>
    obtain ⟨hs, rfl⟩ := Runs.of_guard hstep
    exact h.skip hs.1 hs.2.1 hs.2.2.2 hc
  | stop =>
    cases hstep
    exact { h with
      pushed := nofun
      tail := fun b hb => (h.tail b hb).of_eq rfl rfl rfl fun l hl => ⟨hl, id⟩ }
  | extract batchList rest clock =>
    obtain ⟨hperm, hidle, hscan, rfl⟩ := extract_of_step hstep
    exact h.extract hperm hidle hscan hc clock
  | sequencer e => exact h.sequencer hstep
  | restart n =>
    cases hstep
    exact h.restart hc n

theorem frontier_le_step {e : ClusterEvent} (hstep : s.step incoming P e = some s') (b : Nat) :
    s.frontier b ≤ s'.frontier b := by
  have hobserve : ∀ t, s.frontier b ≤ (s.observe P t).frontier b :=
    fun t => le_unwrapPBRConsumed ..
  cases e with
  | reserve | install | scan | skip =>
    obtain ⟨-, rfl⟩ := Runs.of_guard hstep
    exact Nat.le_refl _
  | publish =>
    obtain ⟨-, rfl | rfl⟩ := publish_of_step hstep <;> exact Nat.le_refl _
  | refresh | stop =>
    cases hstep
    exact Nat.le_refl _
  | extract =>
    obtain ⟨-, -, -, rfl⟩ := extract_of_step hstep
    exact hobserve _
  | sequencer e =>
    obtain ⟨t, -, rfl⟩ := sequencer_of_step hstep
    exact hobserve t
  | restart =>
    cases hstep
    exact hobserve _

/-- In a careful run `consumed_through` is the residue of a frontier that only moves forward, over
positions that have been scanned and that the sequencer does not refer to any more, and the producers
read this frontier off it. -/
theorem consumed_through_safe (P : Platform) (incoming : Nat → Nat → BatchHeader) {es : List ClusterEvent}
    (h : Runs.Along (Cluster.step incoming P) (Careful incoming P) (.fresh P) es s) (hb : b < numMaxBrokers) :
    s.topic.cxl.consumedSlot P.slots b = s.frontier b % P.slots ∧
      (∀ l < s.frontier b, l ∈ s.scanned b ∧ ¬s.topic.Keeps (b, l)) ∧
      unwrapPBRConsumed (s.cachedConsumedSeq b) (s.topic.cxl.consumedSlot P.slots b) P.slots = s.frontier b ∧
      ∀ es' s', Runs.Along (Cluster.step incoming P) (Careful incoming P) s es' s' →
        s.frontier b ≤ s'.frontier b := by
  have hok : s.Ok P incoming :=
    h.invariant (fun _ _ _ hc hstep hs => hs.step hc hstep) (ok_fresh P incoming)
  refine ⟨(hok.points b hb).slot, fun l hl => ⟨hok.passed b hb l hl, fun hk => ?_⟩,
    hok.unwrap hb, fun es' s' hrun => ?_⟩
  · exact Nat.not_lt.mpr (hok.low_of_keeps hb hk) hl
  · exact hrun.invariant (I := fun s' => s.frontier b ≤ s'.frontier b)
      (fun _ _ _ _ hstep hle => hle.trans (frontier_le_step hstep b)) (Nat.le_refl _)

def overtaken (b : Nat) : Nat → Nat → BatchHeader := fun b' l =>
  { arrivedHeader 7 with batchSeq := if b' = b ∧ (b', l) ≠ (0, 0) then 0 else 1, epochCreated := 1 }

def arrives (b l : Nat) : List ClusterEvent := [.refresh b, .reserve b, .install b l, .publish b l]

def epochOf (p : PendingBatch5) (nowNs : Nat) : List ClusterEvent :=
  [.extract [p] [] (scenarioClock nowNs), .sequencer .commit, .sequencer .tail]

def twoBrokersRun : List ClusterEvent :=
  List.flatten [ arrives 0 0, [.scan 0 0], epochOf (.ofSlot 0 0 (reservation (overtaken 1) 0 0)) 1,
    arrives 1 0, [.scan 1 0], epochOf (.ofSlot 1 0 (reservation (overtaken 1) 1 0)) 2]

theorem consumed_through_safe_twoBrokersRun :
    ∃ s, Runs.Along (Cluster.step (overtaken 1) .small) (Careful (overtaken 1) .small)
        (.fresh .small) twoBrokersRun s ∧
      (s.frontier 0, s.frontier 1, s.topic.globalBatchSeq) = (0, 1, 2) ∧
      ∀ l < s.frontier 1, l ∈ s.scanned 1 ∧ ¬s.topic.Keeps (1, l) := by
  refine Runs.exists_of_exec (fun s : Cluster => (s.frontier 0, s.frontier 1, s.topic.globalBatchSeq))
    (0, 1, 2) (by decide +kernel) fun s hrun hs => ?_
  exact ⟨hs, (consumed_through_safe .small (overtaken 1) hrun (by decide)).2.1⟩

def skippedRun : List ClusterEvent :=
  List.flatten [ arrives 0 0, [.scan 0 0], epochOf (.ofSlot 0 0 (reservation (overtaken 0) 0 0)) 1,
    [.refresh 0, .reserve 0, .install 0 1, .skip 0 1,
      .extract [.skipMarker 0 1 (reservation (overtaken 0) 0 1)] [] (scenarioClock 2)]]

/-- `CommitEpoch` then takes `consumed_through` back from slot 1 to slot 0, where it was when the
epoch was extracted.  Read as a frontier this is a jump to position 4, and only two positions have
been reserved. -/
theorem consumed_through_moves_back :
    ∃ s, Runs.Along (Cluster.step (overtaken 0) .small) (fun _ _ => True) (.fresh .small) skippedRun s ∧
      s.topic.cxl.consumedSlot Platform.small.slots 0 = 1 ∧
      (s.step (overtaken 0) .small (.sequencer .commit)).map (fun s' =>
        (s'.topic.cxl.consumedSlot Platform.small.slots 0, s'.frontier 0, s'.nextSlotSeq 0,
          s'.scanned 0)) = some (0, 4, 2, [1, 0]) := by
  refine Runs.exists_of_exec (fun s : Cluster => (s.topic.cxl.consumedSlot Platform.small.slots 0,
    (s.step (overtaken 0) .small (.sequencer .commit)).map fun s' =>
      (s'.topic.cxl.consumedSlot Platform.small.slots 0, s'.frontier 0, s'.nextSlotSeq 0, s'.scanned 0)))
    (1, some (0, 4, 2, [1, 0])) (by decide +kernel) fun s _ hs => Prod.mk.inj hs

end Cluster

end Embarcadero
