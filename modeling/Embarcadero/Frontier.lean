import Embarcadero.Occupancy
import Embarcadero.CommitEffects

namespace Embarcadero

open List
open Function (update)
open Residue (Points)

variable {P : Platform} {owner : Position → SessionKey × Nat} {t : Topic} {f : EpochInFlight}
  {b : Nat}

def PendingBatch5.Keepable (slots : Nat) (owner : Position → SessionKey × Nat)
    (p : PendingBatch5) : Prop := p.Sited slots owner ∧ p.clientId ≠ 0

theorem slotIdentity_eq {slots : Nat} {p q : PendingBatch5} (hp : p.Sited slots owner)
    (hq : q.Sited slots owner) (h : q.position = p.position) : q.slotIdentity = p.slotIdentity := by
  obtain ⟨hb, hi⟩ := Prod.mk.inj h
  rw [PendingBatch5.slotIdentity, PendingBatch5.slotIdentity, hq.slot, hp.slot, hb, hi]

section Held

variable {S : PendingBatch5 → Prop} {p q : PendingBatch5} {sh : Level5ShardState}

theorem holdsSlotOf_iff (hS : ∀ q, S q → q.Keepable P.slots owner) (hsh : sh.Filed S S) (hp : p.Sited P.slots owner) :
    sh.holdsSlotOf p = true ↔ 0 < ((sh.holdBuffer p.key).map (·.2.batch.position)).count p.position := by
  rw [count_map_pos, Level5ShardState.holdsSlotOf, Bool.and_eq_true]
  constructor
  · rintro ⟨-, h⟩
    split at h
    next he hlookup =>
      have hmem := Assoc.mem_of_lookup hlookup
      have hmeta : he.holdMeta = he.batch.cachedMeta := (hsh.held _ _ hmem).2
      rw [hmeta] at h
      exact ⟨_, hmem, congrArg Order5SlotIdentity.position (beq_iff_eq.mp h)⟩
    · cases h
  · rintro ⟨e, he, hpos⟩
    obtain ⟨hq, hmeta⟩ := hsh.held _ e he
    obtain ⟨hsite, hclient⟩ := hS _ hq
    have howner := hsite.owner
    rw [hpos, hp.owner] at howner
    obtain ⟨hkey, hseq⟩ := Prod.mk.inj howner
    have hlookup := Assoc.lookup_of_mem (hsh.entries p.key).nodup he
    rw [← ((hsh.entries p.key).keyed e he).2, ← hseq] at hlookup
    have hc : p.clientId = e.2.batch.clientId := congrArg SessionKey.clientId hkey
    have hanon : p.clientId ≠ PendingBatch5.anonymousClient := by
      intro heq
      exact absurd (heq ▸ hp.client) (by decide)
    refine ⟨?_, ?_⟩
    · rw [Bool.and_eq_true]
      exact ⟨decide_eq_true (hc ▸ hclient), decide_eq_true hanon⟩
    · rw [hlookup]
      dsimp only
      rw [hmeta]
      exact beq_iff_eq.mpr (slotIdentity_eq hp hsite hpos)

theorem mem_deferredIdentities_iff (hS : ∀ q, S q → q.Keepable P.slots owner) (hsh : sh.Filed S S)
    (hp : p.Sited P.slots owner) :
    p.slotIdentity ∈ sh.deferredIdentities ↔
      0 < (sh.deferredLevel5.map (·.position)).count p.position ∨
        0 < (sh.backpressuredLevel5Slots.map (·.position)).count p.position := by
  rw [count_map_pos, count_map_pos, Level5ShardState.deferredIdentities, mem_append]
  apply or_congr
  · rw [mem_map]
    constructor
    · rintro ⟨q, hq, heq⟩
      exact ⟨q, hq, congrArg Order5SlotIdentity.position heq⟩
    · rintro ⟨q, hq, hpos⟩
      exact ⟨q, hq, slotIdentity_eq hp (hS q (hsh.deferred q hq)).1 hpos⟩
  · constructor
    · intro hmem
      exact ⟨_, hmem, rfl⟩
    · rintro ⟨s, hs, hpos⟩
      obtain ⟨q, hq, rfl⟩ := hsh.blocked s hs
      rw [slotIdentity_eq hp (hS q hq).1 hpos] at hs
      exact hs

theorem slotHeld_iff (hS : ∀ q, S q → q.Keepable P.slots owner) (hfiled : t.Filed P.numShards S S)
    (hp : p.Sited P.slots owner) : Commit.slotHeld P t.shards p = true ↔ 0 < t.keeps P.numShards owner p.position := by
  have hshard : (owner p.position).1.clientId % P.numShards = p.clientId % P.numShards := by
    rw [hp.owner]
    rfl
  have hdeferred : ∀ i, p.slotIdentity ∈ (t.shards i).deferredIdentities → i = p.clientId % P.numShards := by
    intro i hi
    by_contra hne
    have hzero := (hfiled i).keeps_eq_zero (fun _ => id) (fun q hq => (hS q hq).1.owner) (hshard ▸ Ne.symm hne) t
    rw [Level5ShardState.keeps, Level5ShardState.waiting] at hzero
    have := (mem_deferredIdentities_iff (fun q hq => hS q hq.1) (hfiled i) hp).mp hi
    omega
  have hheld := holdsSlotOf_iff (fun q hq => hS q hq.1) (hfiled (p.clientId % P.numShards)) hp
  have hother := mem_deferredIdentities_iff (fun q hq => hS q hq.1) (hfiled (p.clientId % P.numShards)) hp
  have hany : (List.range P.numShards).any (fun i => (t.shards i).deferredIdentities.contains p.slotIdentity) = true ↔
        p.slotIdentity ∈ (t.shards (p.clientId % P.numShards)).deferredIdentities := by
    rw [any_eq_true]
    constructor
    · rintro ⟨i, -, hi⟩
      have hmem := contains_iff_mem.mp hi
      exact hdeferred i hmem ▸ hmem
    · intro hmem
      exact ⟨_, mem_range.mpr (Nat.mod_lt _ P.numShards_pos), contains_iff_mem.mpr hmem⟩
  rw [Commit.slotHeld, Bool.or_eq_true, hany, hother, hheld, Topic.keeps, hshard,
    Level5ShardState.keeps, Level5ShardState.waiting, hp.owner]
  dsimp only
  omega

end Held

namespace Commit

variable {start top : Nat}

theorem eq_of_advances {c l r : Nat} (hc : Points P.slots c r) (hr : start ≤ r) (hr' : r < start + P.slots)
    (hl : start ≤ l) (hl' : l < start + P.slots) (h : l % P.slots = c ∨ c = P.slots ∧ l % P.slots = 0) : l = r := by
  apply Residue.eq_of_mod_eq hl hl' hr hr'
  rw [← hc.2]
  cases h with
  | inl h => rw [← h, Nat.mod_mod]
  | inr h => rw [h.2, h.1, Nat.mod_self]

theorem advanceContiguous_apply (P : Platform) (contiguous : Nat → Nat) (m : HoldBatchMetadata)
    (b : Nat) : advanceContiguous P contiguous m b = contiguous b ∨
      m.brokerId = b ∧ (m.slotOffset = contiguous b ∨ contiguous b = P.slots ∧ m.slotOffset = 0) ∧
        advanceContiguous P contiguous m b = min (m.slotOffset + 1) P.slots := by
  rw [advanceContiguous]
  split
  next hcond =>
    rw [Function.update_apply]
    split
    next hb => exact .inr ⟨hb.symm, hb ▸ hcond.2, rfl⟩
    · exact .inl rfl
  · exact .inl rfl

theorem metadata_frontier (ms : List HoldBatchMetadata) :
    ∀ {contiguous : Nat → Nat} {r : Nat},
      (∀ m ∈ ms, m.brokerId = b → m.slotOffset = m.pbrAbsoluteIndex % P.slots ∧
        start ≤ m.pbrAbsoluteIndex ∧ m.pbrAbsoluteIndex < top) →
      top < start + P.slots → start ≤ r → r ≤ top → Points P.slots (contiguous b) r →
      ∃ r', r ≤ r' ∧ r' ≤ top ∧ Points P.slots (ms.foldl (advanceContiguous P) contiguous b) r' ∧
        ∀ l, r ≤ l → l < r' → ∃ m ∈ ms, m.brokerId = b ∧ m.pbrAbsoluteIndex = l := by
  induction ms with
  | nil =>
    intro contiguous r _ _ _ hr hc
    exact ⟨r, Nat.le_refl _, hr, hc, fun l h h' => absurd h' (Nat.not_lt.mpr h)⟩
  | cons m ms ih =>
    intro contiguous r hms hlap hstart hr hc
    have hrest := fun m' hm' => hms m' (mem_cons_of_mem _ hm')
    rw [foldl_cons]
    cases advanceContiguous_apply P contiguous m b with
    | inl hsame =>
      obtain ⟨r', hle, htop, hpoints, hpassed⟩ := ih hrest hlap hstart hr (hsame ▸ hc)
      refine ⟨r', hle, htop, hpoints, fun l hl hl' => ?_⟩
      exact (hpassed l hl hl').imp fun m' hm' => hm'.imp_left (mem_cons_of_mem _)
    | inr hnext =>
      obtain ⟨hmb, hadv, heq⟩ := hnext
      obtain ⟨hslot, hlow, hhigh⟩ := hms m mem_cons_self hmb
      rw [hslot] at hadv heq
      have hat := eq_of_advances hc hstart (by omega) hlow (by omega) hadv
      have hmod : m.pbrAbsoluteIndex % P.slots < P.slots :=
        Nat.mod_lt _ (Nat.lt_of_lt_of_le Nat.two_pos P.two_le_slots)
      have hpoint : Points P.slots (advanceContiguous P contiguous m b) (r + 1) := by
        rw [heq]
        exact Points.succ hmod (by rw [hat])
      obtain ⟨r', hle, htop, hpoints, hpassed⟩ := ih hrest hlap (by omega) (by omega) hpoint
      refine ⟨r', by omega, htop, hpoints, fun l hl hl' => ?_⟩
      by_cases hlr : l = r
      · exact ⟨m, mem_cons_self, hmb, by omega⟩
      · exact (hpassed l (by omega) hl').imp fun m' hm' => hm'.imp_left (mem_cons_of_mem _)

theorem walk_eq (n : Nat) (processed : Nat → Bool) (fuel : Nat) : ∀ r : Nat,
    ∃ k ≤ fuel, walk n processed fuel (r % n) = (r + k) % n ∧
      (∀ j < k, processed ((r + j) % n) = true) ∧
      (k < fuel → processed ((r + k) % n) = false) := by
  induction fuel with
  | zero => exact fun r => ⟨0, Nat.le_refl _, rfl, nofun, nofun⟩
  | succ fuel ih =>
    intro r
    rw [walk]
    split
    next hproc =>
      obtain ⟨k, hk, heq, hbefore, hstop⟩ := ih (r + 1)
      refine ⟨k + 1, Nat.succ_le_succ hk, ?_, fun j hj => ?_, fun hlt => ?_⟩
      · rw [Nat.mod_add_mod, heq, Nat.add_right_comm, Nat.add_assoc]
      · cases j with
        | zero => exact hproc
        | succ j =>
          rw [← Nat.add_assoc, Nat.add_right_comm]
          exact hbefore j (Nat.lt_of_succ_lt_succ hj)
      · rw [← Nat.add_assoc, Nat.add_right_comm]
        exact hstop (Nat.lt_of_succ_lt_succ hlt)
    next hproc => exact ⟨0, Nat.zero_le _, rfl, nofun, fun _ => Bool.eq_false_iff.mpr hproc⟩

theorem walked_frontier (shards : Nat → Level5ShardState) {batchList : List PendingBatch5} {contiguous : Nat → Nat}
    {r : Nat} (hbatch : ∀ p ∈ batchList, p.brokerId = b →
      p.slotOffset = p.cachedPbrAbsoluteIndex % P.slots ∧ start ≤ p.cachedPbrAbsoluteIndex ∧
        p.cachedPbrAbsoluteIndex < top) (hlap : top < start + P.slots) (hstart : start ≤ r) (hr : r ≤ top)
    (hc : Points P.slots (contiguous b) r) :
    ∃ r', r ≤ r' ∧ r' ≤ top ∧ Points P.slots (walkedFrontier P shards batchList contiguous b) r' ∧
      (∀ l, r ≤ l → l < r' → ∃ p ∈ batchList, p.position = (b, l) ∧ slotHeld P shards p = false) ∧
      ∀ p ∈ batchList, p.position = (b, r') → slotHeld P shards p = true := by
  have hpos : 0 < P.slots := Nat.lt_of_lt_of_le Nat.two_pos P.two_le_slots
  have hslot : (if P.slots ≤ contiguous b then 0 else contiguous b) = r % P.slots := by
    rw [← hc.slot]
    exact if_congr ⟨fun h => Nat.le_antisymm hc.1 h, fun h => Nat.le_of_eq h.symm⟩ rfl rfl
  obtain ⟨k, hk, heq, hbefore, hstop⟩ := walk_eq P.slots (processedSlot P shards batchList b) P.slots r
  -- a processed slot of the window is the position itself
  have hfound : ∀ l, start ≤ l → l < start + P.slots → processedSlot P shards batchList b (l % P.slots) = true →
        l < top ∧ ∃ p ∈ batchList, p.position = (b, l) ∧ slotHeld P shards p = false := by
    intro l hl hl' hproc
    obtain ⟨p, hp, hcond⟩ := any_eq_true.mp hproc
    simp only [Bool.and_eq_true, decide_eq_true_eq, Bool.not_eq_true'] at hcond
    obtain ⟨⟨hb, hs⟩, hheld⟩ := hcond
    obtain ⟨hoff, hlow, hhigh⟩ := hbatch p hp hb
    rw [hoff] at hs
    have hpl := Residue.eq_of_mod_eq hlow (by omega) hl hl' hs
    exact ⟨by omega, p, hp, by rw [PendingBatch5.position, hb, hpl], hheld⟩
  have htop : ∀ j, j ≤ k → r + j ≤ top := by
    intro j
    induction j with
    | zero => exact fun _ => hr
    | succ j ih =>
      intro hj
      have hle := ih (by omega)
      have := (hfound (r + j) (by omega) (by omega) (hbefore j (by omega))).1
      omega
  have hle := htop k (Nat.le_refl _)
  refine ⟨r + k, by omega, hle, ?_, fun l hl hl' => ?_, fun p hp hat => ?_⟩
  · rw [walkedFrontier, hslot, heq]
    have hlt := Nat.mod_lt (r + k) hpos
    split
    next hz => exact ⟨Nat.le_refl _, by rw [Nat.mod_self, hz]⟩
    · exact ⟨Nat.le_of_lt hlt, Nat.mod_mod _ _⟩
  · have hproc := hbefore (l - r) (by omega)
    rw [Nat.add_sub_cancel' hl] at hproc
    exact (hfound l (by omega) (by omega) hproc).2
  · have hproc := hstop (by omega)
    obtain ⟨hb, hi⟩ := Prod.mk.inj hat
    rw [← Bool.not_eq_false]
    intro hheld
    have : processedSlot P shards batchList b ((r + k) % P.slots) = true := by
      refine any_eq_true.mpr ⟨p, hp, ?_⟩
      simp only [Bool.and_eq_true, decide_eq_true_eq, Bool.not_eq_true']
      exact ⟨⟨hb, by rw [(hbatch p hp hb).1, hi]⟩, hheld⟩
    rw [hproc] at this
    cases this

def contiguousAfter (P : Platform) (t : Topic) (f : EpochInFlight) : Nat → Nat :=
  (advanceConsumedThrough P t.shards f (metadataContiguous P f (committed (accepted t f)))).1

end Commit

structure EpochInFlight.Lane (P : Platform) (f : EpochInFlight) (b start top frontier : Nat) :
    Prop where
  snapshot : f.contiguousConsumed b = start % P.slots
  start_le : start ≤ frontier
  le_top : frontier ≤ top
  lap : top < start + P.slots
  batch : ∀ p ∈ f.batchList, p.brokerId = b → start ≤ p.cachedPbrAbsoluteIndex ∧ p.cachedPbrAbsoluteIndex < top
  ready : ∀ l, 0 < (readyPositions f.ready).count (b, l) → frontier ≤ l ∧ l < top
  passed : ∀ l, start ≤ l → l < frontier → ∃ p ∈ f.batchList, p.position = (b, l)

theorem position_of_committed {slots : Nat}
    (hready : ∀ p ∈ f.ready, p.isHeldMarker = false → ∃ q, (q.Sited slots owner ∧ q.fromHold = false) ∧ p.Carries q)
    {m : HoldBatchMetadata} (hm : m ∈ Commit.committed (Commit.accepted t f)) :
    m.slotOffset = m.pbrAbsoluteIndex % slots ∧
      0 < (readyPositions f.ready).count (m.brokerId, m.pbrAbsoluteIndex) := by
  obtain ⟨p, hp, rfl⟩ := mem_map.mp hm
  obtain ⟨hmem, hmark⟩ := mem_filter.mp hp
  have hin := Commit.accepted_subset t f p hmem
  have hnot : p.isHeldMarker = false := by
    rw [PendingBatch5.isMarker, Bool.not_or, Bool.and_eq_true] at hmark
    exact Bool.not_eq_true' _ ▸ hmark.2
  obtain ⟨q, ⟨hq, hhold⟩, hcarry⟩ := hready p hin hnot
  rw [hcarry.commitMeta hhold]
  refine ⟨hq.slot, count_map_pos.mpr ⟨p, mem_filter.mpr ⟨hin, ?_⟩, hcarry.position⟩⟩
  rw [hnot]
  rfl

theorem contiguousAfter_frontier {S : PendingBatch5 → Prop} {start top frontier : Nat} (hb : b < numMaxBrokers)
    (hseen : f.brokerSeen b = true) (hlane : f.Lane P b start top frontier) (hS : ∀ q, S q → q.Keepable P.slots owner)
    (hfiled : t.Filed P.numShards S S) (hbatch : ∀ p ∈ f.batchList, p.Sited P.slots owner)
    (hready : ∀ p ∈ f.ready, p.isHeldMarker = false → ∃ q, (q.Sited P.slots owner ∧ q.fromHold = false) ∧ p.Carries q)
    (honce : ∀ l, t.keeps P.numShards owner (b, l) + (readyPositions f.ready).count (b, l) ≤ 1)
    (hlow : ∀ l, 0 < t.keeps P.numShards owner (b, l) → frontier ≤ l) :
    ∃ r, frontier ≤ r ∧ r ≤ top ∧ Points P.slots (Commit.contiguousAfter P t f b) r ∧
      (∀ l, frontier ≤ l → l < r → t.keeps P.numShards owner (b, l) = 0 ∧
        (0 < (readyPositions f.ready).count (b, l) ∨ ∃ p ∈ f.batchList, p.position = (b, l))) ∧
      ∀ p ∈ f.batchList, p.position = (b, r) → 0 < t.keeps P.numShards owner (b, r) := by
  have hpos : 0 < P.slots := Nat.lt_of_lt_of_le Nat.two_pos P.two_le_slots
  have hstart : Points P.slots (f.contiguousConsumed b) start := by
    rw [hlane.snapshot]
    exact ⟨Nat.le_of_lt (Nat.mod_lt _ hpos), Nat.mod_mod _ _⟩
  have hlow' := hlane.start_le
  have htop := hlane.le_top
  have hms : ∀ m ∈ Commit.committed (Commit.accepted t f), m.brokerId = b →
      m.slotOffset = m.pbrAbsoluteIndex % P.slots ∧ start ≤ m.pbrAbsoluteIndex ∧
        m.pbrAbsoluteIndex < top := by
    intro m hm hmb
    obtain ⟨hslot, hcount⟩ := position_of_committed hready hm
    rw [hmb] at hcount
    have := hlane.ready _ hcount
    exact ⟨hslot, by omega, this.2⟩
  obtain ⟨c, hc, hctop, hcpoints, hcpassed⟩ := Commit.metadata_frontier _ hms hlane.lap
    (Nat.le_refl _) (by omega) hstart
  -- the metadata loop passes ready positions, which are not kept
  have hcommitted : ∀ l, start ≤ l → l < c → frontier ≤ l ∧
      t.keeps P.numShards owner (b, l) = 0 ∧ 0 < (readyPositions f.ready).count (b, l) := by
    intro l hl hl'
    obtain ⟨m, hm, hmb, hml⟩ := hcpassed l hl hl'
    have hcount := (position_of_committed hready hm).2
    rw [hmb, hml] at hcount
    have := honce l
    exact ⟨(hlane.ready l hcount).1, by omega, hcount⟩
  rw [Commit.contiguousAfter, Commit.advanceConsumedThrough]
  split
  next hnil =>
    have hsame : start = frontier := by
      by_contra hne
      obtain ⟨p, hp, -⟩ := hlane.passed start (Nat.le_refl _) (by omega)
      rw [hnil] at hp
      cases hp
    refine ⟨c, by omega, hctop, hcpoints, fun l hl hl' => ?_, fun p hp => ?_⟩
    · exact (hcommitted l (by omega) hl').2.imp_right .inl
    · rw [hnil] at hp
      cases hp
  · dsimp only
    rw [if_pos ⟨hb, hseen⟩]
    obtain ⟨r, hr, hrtop, hrpoints, hrpassed, hrstop⟩ := Commit.walked_frontier t.shards
      (fun p hp hpb => ⟨(hbatch p hp).slot, hlane.batch p hp hpb⟩) hlane.lap hc hctop hcpoints
    have hstop : ∀ p ∈ f.batchList, p.position = (b, r) → 0 < t.keeps P.numShards owner (b, r) := by
      intro p hp hat
      rw [← hat]
      exact (slotHeld_iff hS hfiled (hbatch p hp)).mp (hrstop p hp hat)
    refine ⟨r, ?_, hrtop, hrpoints, fun l hl hl' => ?_, hstop⟩
    · by_contra hlt
      obtain ⟨p, hp, hat⟩ := hlane.passed r (by omega) (by omega)
      exact hlt (hlow r (hstop p hp hat))
    · by_cases hlc : l < c
      · exact (hcommitted l (by omega) hlc).2.imp_right .inl
      · obtain ⟨p, hp, hat, hheld⟩ := hrpassed l (by omega) hl'
        refine ⟨?_, .inr ⟨p, hp, hat⟩⟩
        rw [← hat]
        apply Nat.eq_zero_of_not_pos
        intro hkept
        rw [(slotHeld_iff hS hfiled (hbatch p hp)).mpr hkept] at hheld
        cases hheld

theorem consumedThrough_stores (c : CxlMemory) (value : Nat → Nat) (bs : List Nat) (b : Nat) :
    (c.writes (bs.map fun b => .consumedThrough b (value b))).consumedThrough b =
      if b ∈ bs then value b else c.consumedThrough b := by
  induction bs generalizing c with
  | nil => rfl
  | cons b' bs ih =>
    rw [map_cons, CxlMemory.writes_cons, ih]
    by_cases hmem : b ∈ bs
    · rw [if_pos hmem, if_pos (mem_cons_of_mem _ hmem)]
    · rw [if_neg hmem]
      by_cases hb : b = b'
      · rw [if_pos (hb ▸ mem_cons_self), hb]
        exact Function.update_self ..
      · rw [if_neg fun h => (mem_cons.mp h).elim hb hmem]
        exact Function.update_of_ne hb ..

def EpochInFlight.Sees (f : EpochInFlight) (b : Nat) : Prop :=
  b < numMaxBrokers ∧ f.brokerSeen b = true

instance (f : EpochInFlight) (b : Nat) : Decidable (f.Sees b) := inferInstanceAs (Decidable (_ ∧ _))

theorem mem_seen : b ∈ (List.range numMaxBrokers).filter f.brokerSeen ↔ f.Sees b := by
  rw [mem_filter, mem_range]
  rfl

theorem consumedThrough_advance (c : CxlMemory) (shards : Nat → Level5ShardState) (contiguous : Nat → Nat) (b : Nat) :
    (c.writes (Commit.advanceConsumedThrough P shards f contiguous).2).consumedThrough b =
      if f.batchList ≠ [] ∧ f.Sees b then
        (Commit.advanceConsumedThrough P shards f contiguous).1 b
      else c.consumedThrough b := by
  rw [Commit.advanceConsumedThrough]
  split
  next hnil =>
    rw [if_neg fun h => h.1 hnil]
    rfl
  next hne =>
    rw [consumedThrough_stores]
    simp only [mem_seen, ne_eq, hne, not_false_eq_true, true_and]

inductive CommitsRings (P : Platform) (t : Topic) (f : EpochInFlight) (t' : Topic) : Prop
  | stopped (hconsumed : t'.cxl.consumedThrough = t.cxl.consumedThrough)
      (htail : t'.tailConsumed = t.tailConsumed) (hx : t'.capacityExhausted = true)
  | done (hx : t.capacityExhausted = false)
      (hconsumed : ∀ b, t'.cxl.consumedThrough b =
        if f.batchList ≠ [] ∧ f.Sees b then Commit.contiguousAfter P t f b
        else t.cxl.consumedThrough b)
      (htail : t'.tailConsumed = t.tailConsumed ∨
        t'.tailConsumed = Commit.tailConsumed f (Commit.contiguousAfter P t f))

theorem region_guarded (t : Topic) (ready : List PendingBatch5) :
    ∀ w ∈ (Commit.guardAll t ready).writes, w.region ≠ .frontier := by
  intro w hw hregion
  have := Commit.region_guardAll t ready w hw
  rw [hregion] at this
  exact absurd this (by decide)

theorem region_before (t : Topic) (ready kept : List PendingBatch5) (firstGoi firstMessage : Nat)
    (cumulative : Nat → Nat) (s : Commit.ExportState) :
    ∀ w ∈ (Commit.guardAll t ready).writes ++
        Commit.goiWrites t.cxl firstGoi firstMessage cumulative kept ++
        (Commit.exportWrites P firstMessage s kept).1 ++
        Commit.orderedWrites (Commit.committed kept) ++
        Commit.sessionWrites P (Commit.committed kept), w.region ≠ .frontier := by
  intro w hw hregion
  simp only [mem_append] at hw
  rcases hw with (((hw | hw) | hw) | hw) | hw
  · exact region_guarded t ready w hw hregion
  · have := Commit.region_goiWrites _ _ _ _ _ w hw
    rw [hregion] at this
    exact absurd this (by decide)
  · exact absurd (hregion ▸ Commit.region_exportWrites P _ _ _ w hw) (by decide)
  · exact absurd (hregion ▸ Commit.region_orderedWrites _ w hw) (by decide)
  · exact absurd (hregion ▸ Commit.region_sessionWrites P _ w hw) (by decide)

theorem commitsRings_commitEpoch (P : Platform) (t : Topic) (f : EpochInFlight) :
    CommitsRings P t f (commitEpoch P t f) := by
  cases hx : t.capacityExhausted with
  | true =>
    rw [commitEpoch_of_exhausted P t f hx]
    exact .stopped rfl rfl hx
  | false =>
    rw [commitEpoch_of_running P t f hx]
    cases ho : Commit.outcome t (Commit.guardAll t f.ready) with
    | stopped =>
      refine .stopped ?_ rfl rfl
      rw [Commit.writes, ho]
      exact CxlMemory.consumedThrough_writes (region_guarded t f.ready) _
    | nothingReady =>
      have hacc : Commit.accepted t f = [] := by rw [Commit.accepted, hx, ho]; rfl
      refine .done hx (fun b => ?_) (.inl rfl)
      dsimp only
      rw [Commit.writes, ho]
      dsimp only
      rw [CxlMemory.writes_append, consumedThrough_advance,
        CxlMemory.consumedThrough_writes (region_guarded t f.ready), Commit.contiguousAfter, hacc]
      rfl
    | committed kept firstGoi n firstMessage msgs =>
      have hacc : Commit.accepted t f = kept := by rw [Commit.accepted, hx, ho]; rfl
      have hafter : Commit.contiguousAfter P t f = (Commit.advanceConsumedThrough P t.shards f
          (Commit.metadataContiguous P f (Commit.committed kept))).1 := by
        rw [Commit.contiguousAfter, hacc]
      refine .done hx (fun b => ?_) (.inr ?_)
      · dsimp only
        rw [Commit.writes, ho]
        dsimp only
        rw [CxlMemory.writes_append, consumedThrough_advance, hafter,
          CxlMemory.consumedThrough_writes (region_before t f.ready kept _ _ _ _)]
      · rw [hafter]
        rfl

end Embarcadero
