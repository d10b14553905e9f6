import Embarcadero.HoldBuffer
import Embarcadero.SlotReuse

namespace Embarcadero

open Function (update update_apply)
open List

def IsOrder5HeldSlot (P : Platform) (shards : Nat → Level5ShardState) (x : Order5SlotIdentity) : Prop :=
  ∃ i < P.numShards, (∃ p ∈ (shards i).deferredLevel5, p.slotIdentity = x) ∨ x ∈ (shards i).backpressuredLevel5Slots ∨
    ∃ k, ∃ e ∈ (shards i).holdBuffer k, e.2.holdMeta.slotIdentity = x

variable {P : Platform} {t t' : Topic} {p : PendingBatch5}

theorem isOrder5HeldSlot_of_slotHeld {shards : Nat → Level5ShardState} (h : Commit.slotHeld P shards p = true) :
    IsOrder5HeldSlot P shards p.slotIdentity := by
  rw [Commit.slotHeld, Bool.or_eq_true, any_eq_true] at h
  cases h with
  | inl h =>
    obtain ⟨i, hi, hmem⟩ := h
    refine ⟨i, mem_range.mp hi, ?_⟩
    cases mem_append.mp (contains_iff_mem.mp hmem) with
    | inl hmem => exact .inl (mem_map.mp hmem)
    | inr hmem => exact .inr (.inl hmem)
  | inr h =>
    refine ⟨p.clientId % P.numShards, Nat.mod_lt _ P.numShards_pos, .inr (.inr ?_)⟩
    rw [Level5ShardState.holdsSlotOf, Bool.and_eq_true] at h
    have hlookup := h.2
    split at hlookup
    · exact ⟨p.key, _, Assoc.mem_of_lookup ‹_›, beq_iff_eq.mp hlookup⟩
    · cases hlookup

theorem slotHeld_of_isOrder5HeldSlot {owner : Position → SessionKey × Nat} {S : PendingBatch5 → Prop}
    (hS : ∀ q, S q → q.Keepable P.slots owner) (hfiled : t.Filed P.numShards S S) (hp : p.Sited P.slots owner)
    (h : IsOrder5HeldSlot P t.shards p.slotIdentity) : Commit.slotHeld P t.shards p = true := by
  rw [slotHeld_iff hS hfiled hp]
  apply hfiled.keeps_pos fun q hq => (hS q hq).1.owner
  obtain ⟨i, -, ⟨q, hq, heq⟩ | hmem | ⟨k, e, he, heq⟩⟩ := h
  · exact ⟨i, .inr (.inl ⟨q, hq, congrArg Order5SlotIdentity.position heq⟩)⟩
  · exact ⟨i, .inr (.inr ⟨_, hmem, rfl⟩)⟩
  · rw [((hfiled i).held k e he).2] at heq
    exact ⟨i, .inl ⟨k, e, he, congrArg Order5SlotIdentity.position heq⟩⟩

section Filed

variable {B S : PendingBatch5 → Prop} {level5 : List PendingBatch5}

theorem Topic.Filed.processShard (hB : ∀ p, S p → B p) (hl : ∀ p ∈ level5, S p) (clock : PassClock)
    {s : Topic × List PendingBatch5} (h : s.1.Filed P.numShards B S) (i : Nat) :
    (processShard P clock level5 s i).1.Filed P.numShards B S := by
  obtain ⟨t, ready⟩ := s
  have hshards := congrArg Topic.shards (Pass.frame_shard (P := P) clock t (t.shards i)
    (level5.filter (·.clientId % P.numShards = i)))
  dsimp only [Topic.frame] at hshards
  have hin : ∀ p ∈ level5.filter (·.clientId % P.numShards = i), ofShard P.numShards S i p := by
    intro p hp
    obtain ⟨hmem, hi⟩ := mem_filter.mp hp
    exact ⟨hl p hmem, of_decide_eq_true hi⟩
  have hend := (Pass.moves_shard (P := P) clock t (t.shards i)
    (level5.filter (·.clientId % P.numShards = i))).invariant
      (I := fun v => v.Filed (ofShard P.numShards B i) (ofShard P.numShards S i))
      (fun v w hm hv => hv.move (fun p hp => hp.imp_left (hB p)) hm) ((h i).start hin)
  intro j
  dsimp only [Embarcadero.processShard]
  rw [hshards]
  exact (Function.forall_update_iff t.shards (fun j sh =>
    sh.Filed (ofShard P.numShards B j) (ofShard P.numShards S j))).mpr ⟨hend.shard, fun j _ => h j⟩ j

theorem Topic.Filed.process (hB : ∀ p, S p → B p) (hl : ∀ p ∈ level5, S p) (clock : PassClock)
    (h : t.Filed P.numShards B S) : (processLevel5Batches P clock t level5).1.Filed P.numShards B S :=
  processLevel5Batches_induction (I := fun s => s.1.Filed P.numShards B S) h
    fun i _ hs => hs.processShard hB hl clock i

end Filed

theorem fades_crash (P : Platform) (t : Topic) (n : Nat) : t.cxl.Fades (t.crash P n).cxl := by
  refine .trans ?_ (fades_sequencer5 P (t.surviving P n))
  refine CxlMemory.fades_writes fun w hw h hd => ?_
  have hw := mem_of_mem_take hw
  rw [Topic.pendingWrites] at hw
  split at hw
  · split at hw
    · cases hw
    next hx =>
      exact readable_exportWrites _ w (mem_exportWrites_of_descriptor (Bool.eq_false_iff.mpr hx) hw hd) h hd
  · obtain ⟨x, -, rfl⟩ := mem_map.mp hw
    cases hd

theorem PendingBatch5.Sited.markStale {owner : Position → SessionKey × Nat} {slots : Nat} (h : p.Sited slots owner)
    (epoch : Nat) :
    (p.markStale epoch).Sited slots owner := by
  rw [(p.markStale_eq epoch).1]
  exact ⟨h.owner, h.slot, h.broker, h.client⟩

namespace Cluster

variable {incoming : Nat → Nat → BatchHeader} {s s' : Cluster} {b l : Nat} {e : ClusterEvent}

structure Sourced (P : Platform) (incoming : Nat → Nat → BatchHeader) (s : Cluster) : Prop where
  clients : ∀ b < numMaxBrokers, ∀ l < s.nextSlotSeq b, (incoming b l).clientId < 2 ^ 32
  slots : ∀ b < numMaxBrokers, ∀ i < P.slots, (s.slot b i).readable = true → ∃ l < s.nextSlotSeq b, l % P.slots = i ∧
      PendingBatch5.ofSlot b i (s.slot b i) = .ofSlot b i (reservation incoming b l)
  collected : ∀ p ∈ s.collected, p.Sited P.slots (owner incoming)
  filed : s.topic.Filed P.numShards (PendingBatch5.Keepable P.slots (owner incoming))
    (PendingBatch5.Keepable P.slots (owner incoming))

namespace Sourced

theorem read (h : s.Sourced P incoming) {i : Nat} (hb : b < numMaxBrokers) (hi : i < P.slots)
    (hr : (s.slot b i).readable = true) :
    (PendingBatch5.ofSlot b i (s.slot b i)).Sited P.slots (owner incoming) := by
  obtain ⟨l, hl, hmod, heq⟩ := h.slots b hb i hi hr
  rw [heq]
  exact ⟨rfl, hmod.symm, hb, h.clients b hb l hl⟩

theorem writeSlot (h : s.Sourced P incoming) {hdr : BatchHeader} (q : ReceiverPhase) (hl : l < s.nextSlotSeq b)
    (hhdr : ∀ i, PendingBatch5.ofSlot b i hdr = .ofSlot b i (reservation incoming b l)) :
    (s.writeSlot P b l hdr q).Sourced P incoming := by
  refine { h with slots := fun b' hb' i hi hr => ?_ }
  rw [slot_writeSlot] at hr ⊢
  split
  next heq =>
    rw [heq.1]
    exact ⟨l, hl, heq.2.symm, hhdr i⟩
  next hne =>
    rw [if_neg hne] at hr
    exact h.slots b' hb' i hi hr

theorem push (h : s.Sourced P incoming) {p : PendingBatch5} (hp : p.Sited P.slots (owner incoming)) :
    (s.push p).Sourced P incoming :=
  { h with
    collected := fun q hq => (mem_append.mp hq).elim (h.collected q) fun hq => mem_singleton.mp hq ▸ hp }

theorem observe (h : s.Sourced P incoming) {t : Topic} (hfades : s.topic.cxl.Fades t.cxl)
    (hfiled : t.Filed P.numShards (PendingBatch5.Keepable P.slots (owner incoming))
      (PendingBatch5.Keepable P.slots (owner incoming))) : (s.observe P t).Sourced P incoming := by
  refine { h with slots := fun b hb i hi hr => ?_, filed := hfiled }
  obtain ⟨hread, -, -, hsame⟩ := (hfades b i).same hr
  obtain ⟨l, hl, hmod, heq⟩ := h.slots b hb i hi hread
  exact ⟨l, hl, hmod, (hsame b i).trans heq⟩

theorem classify (h : s.Sourced P incoming) {batchList : List PendingBatch5} {clock : PassClock} {t₁ : Topic}
    {f : EpochInFlight} (hl : ∀ p ∈ batchList, p ∈ s.collected) (hx : Extracts P s.topic batchList clock t₁ f) :
    (s.observe P { (processLevel5Batches P clock t₁ (s.topic.level5 batchList)).1 with
      inFlight := some f }).Sourced P incoming := by
  have hcxl : t₁.cxl = s.topic.cxl := by rw [hx.start]
  have hshards : t₁.shards = s.topic.shards := by rw [hx.start]
  have hkeep : ∀ p ∈ s.topic.level5 batchList, p.Keepable P.slots (owner incoming) := by
    intro p hp
    obtain ⟨hmem, hc⟩ := mem_filter.mp hp
    obtain ⟨q, hq, rfl⟩ := mem_map.mp hmem
    exact ⟨(h.collected q (hl q hq)).markStale _, of_decide_eq_true hc⟩
  have hfiled : t₁.Filed P.numShards (PendingBatch5.Keepable P.slots (owner incoming))
      (PendingBatch5.Keepable P.slots (owner incoming)) := fun i => hshards ▸ h.filed i
  exact h.observe (hcxl ▸ fades_process clock t₁ _) (hfiled.process (fun _ => id) hkeep clock)

theorem sequencer (h : s.Sourced P incoming) {e : Event} (hstep : s.step incoming P (.sequencer e) = some s') :
    s'.Sourced P incoming := by
  obtain ⟨t, ht, rfl⟩ := sequencer_of_step hstep
  cases ht with
  | idleTick hidle => exact h.classify (nofun : ∀ p ∈ [], _) ⟨hidle, nofun, rfl, rfl⟩
  | finalDrain hidle => exact h.classify (nofun : ∀ p ∈ [], _) ⟨hidle, nofun, rfl, rfl⟩
  | commit hf => exact h.observe (fades_commitEpoch P s.topic _) fun i => shards_commit P s.topic _ ▸ h.filed i
  | tail => exact h.observe (fades_finishTail s.topic) h.filed
  | beside hb => exact h.observe (.of_ring hb.ring) fun i => hb.shards ▸ h.filed i

end Sourced

theorem sourced_fresh (P : Platform) (incoming : Nat → Nat → BatchHeader) : (fresh P).Sourced P incoming where
  clients _ _ l hl := absurd hl (Nat.not_lt_zero l)
  slots _ _ _ _ hr := absurd (hr : BatchHeader.readable {} = true) nofun
  collected := nofun
  filed _ := ⟨nofun, nofun, fun _ => ⟨nofun, .nil⟩, nofun⟩

def Pushes (s : Cluster) : ClusterEvent → PendingBatch5 → Prop
  | .scan b i, p => p = .ofSlot b i (s.slot b i)
  | .skip b i, p => p = .skipMarker b i (s.slot b i)
  | _, _ => False

theorem Sourced.sited (h : s.Sourced P incoming) {p : PendingBatch5} (hp : s.Pushes e p)
    (hstep : s.step incoming P e = some s') : p.Sited P.slots (owner incoming) := by
  cases e with
  | scan b i =>
    obtain ⟨hc, -⟩ := Runs.of_guard hstep
    cases hp
    exact h.read hc.1 hc.2.1 (readable_of_canScan hc)
  | skip b i =>
    obtain ⟨hs, -⟩ := Runs.of_guard hstep
    cases hp
    have hsite := h.read hs.1 hs.2.1 (readable_of_stuck hs.2.2.2)
    exact ⟨hsite.owner, hsite.slot, hsite.broker, hsite.client⟩
  | _ => cases hp

theorem Sourced.step (h : s.Sourced P incoming) (hstep : s.step incoming P e = some s') : s'.Sourced P incoming := by
  cases e with
  | reserve b =>
    obtain ⟨hc, rfl⟩ := Runs.of_guard hstep
    refine { h with clients := clients_reserve h.clients hc, slots := fun b' hb' i hi hr => ?_ }
    obtain ⟨l, hl, hmod, heq⟩ := h.slots b' hb' i hi hr
    exact ⟨l, Nat.lt_of_lt_of_le hl (s.le_reserve b b'), hmod, heq⟩
  | refresh b =>
    cases hstep
    exact { h with }
  | install b l =>
    obtain ⟨hl, rfl⟩ := Runs.of_guard hstep
    exact h.writeSlot .claimed hl.1 fun _ => rfl
  | publish b l =>
    obtain ⟨hl, rfl | rfl⟩ := publish_of_step hstep
    · exact h.writeSlot .published hl.1 fun _ => rfl
    · exact { h with }
  | scan b i =>
    have hsite := h.sited (e := .scan b i) rfl hstep
    obtain ⟨-, rfl⟩ := Runs.of_guard hstep
    exact { h.push hsite with }
  | skip b i =>
    have hsite := h.sited (e := .skip b i) rfl hstep
    obtain ⟨-, rfl⟩ := Runs.of_guard hstep
    exact h.push hsite
  | stop =>
    cases hstep
    exact { h with }
  | extract batchList rest clock =>
    obtain ⟨hperm, hidle, hscan, rfl⟩ := extract_of_step hstep
    have hsub : ∀ p ∈ batchList, p ∈ s.collected := fun p hp => hperm.subset (mem_append_left _ hp)
    exact { h.classify hsub ⟨hidle, hscan, rfl, rfl⟩ with
      collected := fun p hp => h.collected p (hperm.subset (mem_append_right _ hp)) }
  | sequencer e => exact h.sequencer hstep
  | restart n =>
    cases hstep
    exact { h.observe (fades_crash P s.topic n) fun i => ⟨nofun, nofun, fun _ => ⟨nofun, .nil⟩, nofun⟩ with
      collected := nofun }

theorem slotHeld_markStale (shards : Nat → Level5ShardState) (p : PendingBatch5) (epoch : Nat) :
    Commit.slotHeld P shards (p.markStale epoch) = Commit.slotHeld P shards p := by
  rw [(p.markStale_eq epoch).1]
  rfl

/-- In every state of a run, the keyed check of a batch that has been scanned, also after epoch fencing,
finds it exactly if the sweep over all shards does. -/
theorem keyed_held_check_exact (P : Platform) (incoming : Nat → Nat → BatchHeader) {before after : List ClusterEvent}
    {p : PendingBatch5} (hbefore : Runs.Along (Cluster.step incoming P) (fun _ _ => True) (fresh P) before s)
    (hp : s.Pushes e p) (hafter : Runs.Along (Cluster.step incoming P) (fun _ _ => True) s (e :: after) s')
    (epoch : Nat) :
    Commit.slotHeld P s'.topic.shards (p.markStale epoch) = true ↔
      IsOrder5HeldSlot P s'.topic.shards p.slotIdentity := by
  have hinv : ∀ {es s s'}, Runs.Along (Cluster.step incoming P) (fun _ _ => True) s es s' →
      s.Sourced P incoming → s'.Sourced P incoming := fun hrun h =>
    hrun.invariant (fun _ _ _ _ hstep h => h.step hstep) h
  have hs := hinv hbefore (sourced_fresh P incoming)
  have hs' := hinv hafter hs
  have hsite : p.Sited P.slots (owner incoming) := by
    cases hafter with
    | cons _ hstep _ => exact hs.sited hp hstep
  rw [slotHeld_markStale]
  exact ⟨isOrder5HeldSlot_of_slotHeld, slotHeld_of_isOrder5HeldSlot (fun _ => id) hs'.filed hsite⟩

theorem keyed_held_check_exact_overtaken :
    ∃ s s', Runs.Along (Cluster.step (overtaken 1) .small) (fun _ _ => True) (fresh .small) (arrives 0 0) s ∧
      Runs.Along (Cluster.step (overtaken 1) .small) (fun _ _ => True) s
        (.scan 0 0 :: epochOf (.ofSlot 0 0 (reservation (overtaken 1) 0 0)) 1) s' ∧
      s.Pushes (.scan 0 0) (.ofSlot 0 0 (s.slot 0 0)) ∧
      IsOrder5HeldSlot .small s'.topic.shards (PendingBatch5.ofSlot 0 0 (s.slot 0 0)).slotIdentity := by
  obtain ⟨s, hbefore, hs⟩ := Runs.exists_along_of_exec (K := fun _ _ => True)
    (f := fun s : Cluster => (Runs.exec (Cluster.step (overtaken 1) .small) (fun _ _ => True) s
      (.scan 0 0 :: epochOf (.ofSlot 0 0 (reservation (overtaken 1) 0 0)) 1)).map fun s' =>
        Commit.slotHeld .small s'.topic.shards ((PendingBatch5.ofSlot 0 0 (s.slot 0 0)).markStale 0))
    (show (Runs.exec (Cluster.step (overtaken 1) .small) _ (fresh .small) (arrives 0 0)).map _ = some (some true) by
      decide +kernel)
  obtain ⟨s', hafter, hheld⟩ := Runs.exists_along_of_exec hs
  have hp : s.Pushes (.scan 0 0) (.ofSlot 0 0 (s.slot 0 0)) := rfl
  exact ⟨s, s', hbefore, hafter, hp, (keyed_held_check_exact .small (overtaken 1) hbefore hp hafter 0).mp hheld⟩

end Cluster

end Embarcadero
