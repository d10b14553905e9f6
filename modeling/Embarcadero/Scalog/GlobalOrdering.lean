import Embarcadero.Lib.Runs
import Embarcadero.Scalog.LocalSequencer

namespace Embarcadero.Scalog

open List

/-- A map from brokers to maps from replicas, in one.  `[broker_id][replica_id]` enters both keys at once, so that no
broker is in the outer map without a replica. -/
abbrev ByReplica := AList fun _ : Nat × Nat => Int

structure GlobalOrderingCore where
  cumulativeCut : ByReplica := ∅
  logicalOffsets : ByReplica := ∅
  lastEpoch : ByReplica := ∅
  registeredBrokers : Finset Nat := ∅
  numReplicasPerBroker : Int := 1
  lastEmittedEpoch : Int := -1

def streams (replicationFactor : Int) : Nat := (max 1 replicationFactor).toNat

namespace GlobalOrderingCore

def registerBroker (c : GlobalOrderingCore) (brokerId : Nat) (replicationFactor : Int) : GlobalOrderingCore :=
  { c with
    numReplicasPerBroker := if brokerId = 0 then replicationFactor else c.numReplicasPerBroker
    registeredBrokers := insert brokerId c.registeredBrokers }

def previousCut (c : GlobalOrderingCore) (brokerId replicaId : Nat) : Int :=
  (c.logicalOffsets.lookup (brokerId, replicaId)).getD 0

def addLocalCut (c : GlobalOrderingCore) (brokerId replicaId : Nat) (epoch localCut : Int) : GlobalOrderingCore :=
  if localCut < c.previousCut brokerId replicaId then c
  else
    let key := (brokerId, replicaId)
    { c with
      cumulativeCut := c.cumulativeCut.insert key
        ((c.cumulativeCut.lookup key).getD 0 + (localCut - c.previousCut brokerId replicaId))
      logicalOffsets := c.logicalOffsets.insert key localCut
      lastEpoch := c.lastEpoch.insert key (max ((c.lastEpoch.lookup key).getD 0) epoch) }

def alignedEpoch (c : GlobalOrderingCore) (useEpochBarrier : Bool) : Option Int :=
  if useEpochBarrier then (c.lastEpoch.entries.map (·.2)).min?.filter (c.lastEmittedEpoch < ·) else some (-1)

def replicaCuts (c : GlobalOrderingCore) (brokerId : Nat) : List Int :=
  (c.cumulativeCut.entries.filter (·.1.1 = brokerId)).map (·.2)

def brokerCut (c : GlobalOrderingCore) (brokerId : Nat) : Int :=
  if (c.replicaCuts brokerId).length = 0 then 0
  else if (c.replicaCuts brokerId).length < c.numReplicasPerBroker then 0
  else (c.replicaCuts brokerId).min?.getD 0

def brokers (c : GlobalOrderingCore) : List Nat :=
  (c.cumulativeCut.keys.map (·.1)).dedup.insertionSort (· ≤ ·)

def computeGlobalCut (c : GlobalOrderingCore) (expectedBrokers : Nat) (useEpochBarrier : Bool) :
    Option (GlobalOrderingCore × GlobalCut × Int) :=
  if c.cumulativeCut.keys.length = expectedBrokers * streams c.numReplicasPerBroker then
    (c.alignedEpoch useEpochBarrier).map fun epoch =>
      ({ c with lastEmittedEpoch := if useEpochBarrier then epoch else c.lastEmittedEpoch },
        c.brokers.map fun b => (b, c.brokerCut b), epoch)
  else none

end GlobalOrderingCore

structure Output where
  cut : GlobalCut
  epoch : Int
  useEpochBarrier : Bool

structure Aggregation where
  core : GlobalOrderingCore := {}
  accepted : Nat × Nat → List Int := fun _ => []
  outputs : List Output := []

inductive Call
  | registerBroker (brokerId : Nat) (replicationFactor : Int)
  | addLocalCut (brokerId replicaId : Nat) (epoch localCut : Int)
  | computeGlobalCut (useEpochBarrier : Bool)

namespace Aggregation

def step (n : Nat) (rf : Int) (w : Aggregation) : Call → Option Aggregation
  | .registerBroker b factor =>
    if b < n ∧ (b = 0 → factor = rf) then some { w with core := w.core.registerBroker b factor } else none
  | .addLocalCut b r epoch cut =>
    if b < n ∧ r < streams rf ∧ b ∈ w.core.registeredBrokers then
      some { w with
        core := w.core.addLocalCut b r epoch cut
        accepted := if cut < w.core.previousCut b r then w.accepted
          else Function.update w.accepted (b, r) (w.accepted (b, r) ++ [cut]) }
    else none
  | .computeGlobalCut barrier =>
    match w.core.computeGlobalCut n barrier with
    | none => some w
    | some (core, cut, epoch) => some { w with core, outputs := w.outputs ++ [⟨cut, epoch, barrier⟩] }

def FactorKnown (w : Aggregation) : Call → Prop
  | .computeGlobalCut _ => 0 ∈ w.core.registeredBrokers
  | _ => True

instance (w : Aggregation) : (e : Call) → Decidable (w.FactorKnown e)
  | .computeGlobalCut _ => inferInstanceAs (Decidable (0 ∈ w.core.registeredBrokers))
  | .registerBroker .. | .addLocalCut .. => isTrue trivial

structure Durable (n : Nat) (rf : Int) (w : Aggregation) (out : Output) : Prop where
  brokers : out.cut.map (·.1) = List.range n
  reported : ∀ b < n, ∀ r < streams rf, w.accepted (b, r) ≠ []
  minimum : ∀ e ∈ out.cut, IsLeast {m | ∃ r < streams rf, IsGreatest {cut | cut ∈ w.accepted (e.1, r)} m} e.2
  monotone : ∀ before ∈ w.outputs, ∀ e ∈ before.cut, ∀ e' ∈ out.cut, e.1 = e'.1 → e.2 ≤ e'.2
  epoch : out.useEpochBarrier = true → ∀ before ∈ w.outputs, before.useEpochBarrier = true → before.epoch < out.epoch

end Aggregation

namespace GlobalOrderingCore

variable {c : GlobalOrderingCore} {n : Nat}

variable {b m : Nat}

theorem mem_of_length (hkeys : ∀ key ∈ c.cumulativeCut, key.1 < n ∧ key.2 < m)
    (hlen : c.cumulativeCut.keys.length = n * m) {r : Nat} (hb : b < n) (hr : r < m) : (b, r) ∈ c.cumulativeCut := by
  have hsub : c.cumulativeCut.keys.toFinset ⊆ Finset.range n ×ˢ Finset.range m := by
    intro key hkey
    have hbound := hkeys key (mem_toFinset.mp hkey)
    exact Finset.mem_product.mpr ⟨Finset.mem_range.mpr hbound.1, Finset.mem_range.mpr hbound.2⟩
  have hcard : (Finset.range n ×ˢ Finset.range m).card ≤ c.cumulativeCut.keys.toFinset.card := by
    rw [Finset.card_product, Finset.card_range, Finset.card_range,
      toFinset_card_of_nodup c.cumulativeCut.keys_nodup, hlen]
  have hall := Finset.eq_of_subset_of_card_le hsub hcard
  refine AList.mem_keys.mpr (mem_toFinset.mp ?_)
  rw [hall]
  exact Finset.mem_product.mpr ⟨Finset.mem_range.mpr hb, Finset.mem_range.mpr hr⟩

theorem streams_pos (rf : Int) : 0 < streams rf := by
  have hle : 1 ≤ max 1 rf := le_max_left 1 rf
  rw [streams]
  omega

theorem mem_replicaCuts {v : Int} : v ∈ c.replicaCuts b ↔ ∃ r, c.cumulativeCut.lookup (b, r) = some v := by
  constructor
  · intro hv
    obtain ⟨⟨⟨b', r⟩, v'⟩, hmem, rfl⟩ := mem_map.mp hv
    obtain ⟨hentry, hb⟩ := mem_filter.mp hmem
    obtain rfl : b' = b := of_decide_eq_true hb
    exact ⟨r, AList.mem_lookup_iff.mpr hentry⟩
  · rintro ⟨r, hr⟩
    refine mem_map.mpr ⟨⟨(b, r), v⟩, mem_filter.mpr ⟨AList.mem_lookup_iff.mp hr, ?_⟩, rfl⟩
    exact decide_eq_true rfl

theorem length_replicaCuts (hall : ∀ r < m, (b, r) ∈ c.cumulativeCut) : m ≤ (c.replicaCuts b).length := by
  have hsub : (List.range m).map (fun r => (b, r)) ⊆ (c.cumulativeCut.entries.filter (·.1.1 = b)).map (·.1) := by
    intro key hkey
    obtain ⟨r, hr, rfl⟩ := mem_map.mp hkey
    obtain ⟨e, he, heq⟩ := mem_map.mp (AList.mem_keys.mp (hall r (mem_range.mp hr)))
    refine mem_map.mpr ⟨e, mem_filter.mpr ⟨he, ?_⟩, heq⟩
    exact decide_eq_true (congrArg Prod.fst heq)
  have hnodup : ((List.range m).map fun r => (b, r)).Nodup :=
    nodup_range.map fun r r' h => congrArg Prod.snd h
  have hlen := (subperm_of_subset hnodup hsub).length_le
  rw [length_map, length_map, length_range] at hlen
  rw [replicaCuts, length_map]
  exact hlen

theorem brokerCut_eq (hall : ∀ r < streams c.numReplicasPerBroker, (b, r) ∈ c.cumulativeCut) :
    c.brokerCut b ∈ c.replicaCuts b ∧ ∀ v ∈ c.replicaCuts b, c.brokerCut b ≤ v := by
  have hlen := length_replicaCuts hall
  have hpos := streams_pos c.numReplicasPerBroker
  have hfactor : c.numReplicasPerBroker ≤ streams c.numReplicasPerBroker := by
    rw [streams]
    have hle := le_max_right 1 c.numReplicasPerBroker
    omega
  cases hmin : (c.replicaCuts b).min? with
  | none =>
    rw [List.min?_eq_none_iff] at hmin
    rw [hmin, length_nil] at hlen
    omega
  | some v =>
    have hcut : c.brokerCut b = v := by
      rw [brokerCut, if_neg (by omega), if_neg (by omega), hmin]
      rfl
    rw [hcut]
    exact List.min?_eq_some_iff.mp hmin

theorem brokers_eq (hkeys : ∀ key ∈ c.cumulativeCut, key.1 < n)
    (hall : ∀ b < n, (b, 0) ∈ c.cumulativeCut) : c.brokers = List.range n := by
  have hperm : (c.cumulativeCut.keys.map (·.1)).dedup.Perm (List.range n) := by
    refine (perm_ext_iff_of_nodup (nodup_dedup _) nodup_range).mpr fun b => ?_
    rw [mem_dedup, mem_range]
    constructor
    · intro hb
      obtain ⟨key, hkey, rfl⟩ := mem_map.mp hb
      exact hkeys key hkey
    · exact fun hb => mem_map.mpr ⟨(b, 0), AList.mem_keys.mp (hall b hb), rfl⟩
  refine List.Perm.eq_of_pairwise' (pairwise_insertionSort _ _) ?_ ((perm_insertionSort _ _).trans hperm)
  exact pairwise_le_range

end GlobalOrderingCore

namespace Aggregation

structure Ok (n : Nat) (rf : Int) (w : Aggregation) : Prop where
  keys : ∀ key ∈ w.core.cumulativeCut, key.1 < n ∧ key.2 < streams rf
  offsets : ∀ key, w.core.logicalOffsets.lookup key = w.core.cumulativeCut.lookup key
  silent : ∀ key, w.core.cumulativeCut.lookup key = none → w.accepted key = []
  greatest : ∀ key v, w.core.cumulativeCut.lookup key = some v → IsGreatest {cut | cut ∈ w.accepted key} v
  factor : 0 ∈ w.core.registeredBrokers → w.core.numReplicasPerBroker = rf
  emitted : ∀ out ∈ w.outputs, ∀ e ∈ out.cut, ∀ r < streams rf,
    ∃ v, w.core.cumulativeCut.lookup (e.1, r) = some v ∧ e.2 ≤ v
  epochs : ∀ out ∈ w.outputs, out.useEpochBarrier = true → out.epoch ≤ w.core.lastEmittedEpoch

variable {n : Nat} {rf : Int} {w w' : Aggregation} {e : Call}

theorem ok_empty (n : Nat) (rf : Int) : ({} : Aggregation).Ok n rf where
  keys _ hkey := absurd hkey (AList.notMem_empty _)
  offsets _ := rfl
  silent _ _ := rfl
  greatest _ _ hv := nomatch hv
  factor h0 := absurd h0 (Finset.notMem_empty 0)
  emitted := nofun
  epochs := nofun

variable {barrier : Bool} {core : GlobalOrderingCore} {cut epoch : Int} {b r : Nat}

theorem Ok.registerBroker (h : w.Ok n rf) {factor : Int} (hfactor : b = 0 → factor = rf) :
    { w with core := w.core.registerBroker b factor }.Ok n rf := by
  refine ⟨h.keys, h.offsets, h.silent, h.greatest, fun h0 => ?_, h.emitted, h.epochs⟩
  change (if b = 0 then factor else w.core.numReplicasPerBroker) = rf
  split
  · exact hfactor ‹_›
  next hb =>
    cases Finset.mem_insert.mp h0 with
    | inl heq => exact absurd heq.symm hb
    | inr hmem => exact h.factor hmem

theorem lookup_insert_apply (t : ByReplica) (key key' : Nat × Nat) (v : Int) :
    (t.insert key v).lookup key' = if key' = key then some v else t.lookup key' := by
  split
  next heq => rw [heq, AList.lookup_insert]
  · exact AList.lookup_insert_ne ‹_›

theorem Ok.cumulativeCut_insert (h : w.Ok n rf) (epoch : Int) (hcut : ¬ cut < w.core.previousCut b r) :
    (w.core.addLocalCut b r epoch cut).cumulativeCut = w.core.cumulativeCut.insert (b, r) cut := by
  rw [GlobalOrderingCore.addLocalCut, if_neg hcut]
  dsimp only
  rw [GlobalOrderingCore.previousCut, h.offsets]
  exact congrArg (w.core.cumulativeCut.insert (b, r) ·) (by omega)

theorem Ok.le_of_mem_accepted (h : w.Ok n rf) (hcut : ¬ cut < w.core.previousCut b r) {c : Int}
    (hc : c ∈ w.accepted (b, r)) : c ≤ cut := by
  rw [GlobalOrderingCore.previousCut, h.offsets] at hcut
  cases hlook : w.core.cumulativeCut.lookup (b, r) with
  | none =>
    rw [h.silent _ hlook] at hc
    cases hc
  | some v =>
    rw [hlook] at hcut
    exact ((h.greatest _ v hlook).2 hc).trans (Int.not_lt.mp hcut)

theorem Ok.addLocalCut (h : w.Ok n rf) (hb : b < n) (hr : r < streams rf) (hcut : ¬ cut < w.core.previousCut b r) :
    { w with
      core := w.core.addLocalCut b r epoch cut
      accepted := Function.update w.accepted (b, r) (w.accepted (b, r) ++ [cut]) }.Ok n rf := by
  have hinsert := h.cumulativeCut_insert epoch hcut
  have hle : ∀ c ∈ w.accepted (b, r), c ≤ cut := fun c hc => h.le_of_mem_accepted hcut hc
  have hcore : w.core.addLocalCut b r epoch cut = _ := if_neg hcut
  refine ⟨fun key hkey => ?_, fun key => ?_, fun key hnone => ?_, fun key v hv => ?_, fun h0 => ?_,
    fun out hout e he r' hr' => ?_, fun out hout hbarrier => ?_⟩ <;> dsimp only at *
  · rw [hinsert, AList.mem_insert] at hkey
    cases hkey with
    | inl heq => exact heq ▸ ⟨hb, hr⟩
    | inr hmem => exact h.keys key hmem
  · rw [hinsert, hcore]
    dsimp only
    rw [lookup_insert_apply, lookup_insert_apply, h.offsets]
  · rw [hinsert, lookup_insert_apply] at hnone
    rw [Function.update_apply]
    split at hnone
    · cases hnone
    · rw [if_neg ‹_›]
      exact h.silent key hnone
  · rw [hinsert, lookup_insert_apply] at hv
    rw [Function.update_apply]
    split at hv
    · cases hv
      rw [if_pos ‹_›]
      refine ⟨mem_append_right _ mem_cons_self, fun c hc => ?_⟩
      cases mem_append.mp hc with
      | inl hold => exact hle c hold
      | inr hnew => exact le_of_eq (mem_singleton.mp hnew)
    · rw [if_neg ‹_›]
      exact h.greatest key v hv
  · rw [hcore] at h0 ⊢
    exact h.factor h0
  · obtain ⟨v, hv, hev⟩ := h.emitted out hout e he r' hr'
    rw [hinsert, lookup_insert_apply]
    split
    next heq =>
      rw [heq] at hv
      exact ⟨cut, rfl, hev.trans (hle v (h.greatest _ v hv).1)⟩
    · exact ⟨v, hv, hev⟩
  · rw [hcore]
    exact h.epochs out hout hbarrier

theorem computeGlobalCut_eq_some {c c' : GlobalOrderingCore} {cut : GlobalCut}
    (h : c.computeGlobalCut n barrier = some (c', cut, epoch)) :
    c.cumulativeCut.keys.length = n * streams c.numReplicasPerBroker ∧ c.alignedEpoch barrier = some epoch ∧
      c' = { c with lastEmittedEpoch := if barrier then epoch else c.lastEmittedEpoch } ∧
      cut = c.brokers.map fun b => (b, c.brokerCut b) := by
  rw [GlobalOrderingCore.computeGlobalCut] at h
  split at h
  · obtain ⟨epoch', hepoch, heq⟩ := Option.map_eq_some_iff.mp h
    cases heq
    exact ⟨‹_›, hepoch, rfl, rfl⟩
  · cases h

theorem Ok.durable (h : w.Ok n rf) (h0 : 0 ∈ w.core.registeredBrokers) {cut : GlobalCut}
    (hcut : w.core.computeGlobalCut n barrier = some (core, cut, epoch)) : w.Durable n rf ⟨cut, epoch, barrier⟩ := by
  obtain ⟨hlen, hepoch, -, rfl⟩ := computeGlobalCut_eq_some hcut
  have hfactor := h.factor h0
  rw [hfactor] at hlen
  have hall : ∀ b < n, ∀ r < streams rf, (b, r) ∈ w.core.cumulativeCut := fun b hb r hr =>
    GlobalOrderingCore.mem_of_length h.keys hlen hb hr
  have hbrokers : w.core.brokers = List.range n :=
    GlobalOrderingCore.brokers_eq (fun key hkey => (h.keys key hkey).1) fun b hb =>
      hall b hb 0 (GlobalOrderingCore.streams_pos rf)
  have hvalue : ∀ b < n, w.core.brokerCut b ∈ w.core.replicaCuts b ∧
      ∀ v ∈ w.core.replicaCuts b, w.core.brokerCut b ≤ v := fun b hb =>
    GlobalOrderingCore.brokerCut_eq (hfactor ▸ hall b hb)
  have hlookup : ∀ b < n, ∀ r < streams rf, ∃ v, w.core.cumulativeCut.lookup (b, r) = some v := fun b hb r hr =>
    Option.isSome_iff_exists.mp (AList.lookup_isSome.mpr (hall b hb r hr))
  rw [hbrokers]
  refine ⟨?_, fun b hb r hr hnil => ?_, fun e he => ?_, fun before hbefore e he e' he' heq => ?_,
    fun hbarrier before hbefore hb => ?_⟩
  · rw [map_map]
    exact map_id _
  · obtain ⟨v, hv⟩ := hlookup b hb r hr
    have hmem : v ∈ w.accepted (b, r) := (h.greatest _ v hv).1
    rw [hnil] at hmem
    cases hmem
  · obtain ⟨b, hb, rfl⟩ := mem_map.mp he
    rw [mem_range] at hb
    obtain ⟨hmem, hle⟩ := hvalue b hb
    obtain ⟨r, hr⟩ := GlobalOrderingCore.mem_replicaCuts.mp hmem
    refine ⟨⟨r, ?_, h.greatest _ _ hr⟩, ?_⟩
    · exact (h.keys (b, r) (AList.lookup_isSome.mp (hr ▸ rfl))).2
    · rintro m ⟨r', hr', hm⟩
      obtain ⟨v, hv⟩ := hlookup b hb r' hr'
      rw [hm.unique (h.greatest _ v hv)]
      exact hle v (GlobalOrderingCore.mem_replicaCuts.mpr ⟨r', hv⟩)
  · obtain ⟨b, hb, rfl⟩ := mem_map.mp he'
    rw [mem_range] at hb
    obtain ⟨r, hr⟩ := GlobalOrderingCore.mem_replicaCuts.mp (hvalue b hb).1
    have hlt := (h.keys (b, r) (AList.lookup_isSome.mp (hr ▸ rfl))).2
    obtain ⟨v, hv, hev⟩ := h.emitted before hbefore e he r hlt
    rw [heq, hr] at hv
    cases hv
    exact hev
  · rw [GlobalOrderingCore.alignedEpoch, if_pos hbarrier, Option.filter_eq_some_iff] at hepoch
    exact lt_of_le_of_lt (h.epochs before hbefore hb) (of_decide_eq_true hepoch.2)

theorem Ok.cut_le (h : w.Ok n rf) {out : Output} (hdurable : w.Durable n rf out) {e : Nat × Int} (he : e ∈ out.cut)
    (hr : r < streams rf) : ∃ v, w.core.cumulativeCut.lookup (e.1, r) = some v ∧ e.2 ≤ v := by
  have hb : e.1 < n := by
    have hmem := mem_map_of_mem (f := (·.1)) he
    rw [hdurable.brokers] at hmem
    exact mem_range.mp hmem
  cases hlook : w.core.cumulativeCut.lookup (e.1, r) with
  | none => exact absurd (h.silent _ hlook) (hdurable.reported e.1 hb r hr)
  | some v => exact ⟨v, rfl, (hdurable.minimum e he).2 ⟨r, hr, h.greatest _ v hlook⟩⟩

theorem Ok.computeGlobalCut (h : w.Ok n rf) (h0 : 0 ∈ w.core.registeredBrokers) {cut : GlobalCut}
    (hcut : w.core.computeGlobalCut n barrier = some (core, cut, epoch)) :
    Ok n rf { w with core, outputs := w.outputs ++ [⟨cut, epoch, barrier⟩] } := by
  have hdurable := h.durable h0 hcut
  obtain ⟨-, -, rfl, -⟩ := computeGlobalCut_eq_some hcut
  refine ⟨h.keys, h.offsets, h.silent, h.greatest, h.factor, fun out hout e he r hr => ?_,
    fun out hout hbarrier => ?_⟩
  · cases mem_append.mp hout with
    | inl hold => exact h.emitted out hold e he r hr
    | inr hnew =>
      obtain rfl := mem_singleton.mp hnew
      exact h.cut_le hdurable he hr
  · dsimp only
    cases mem_append.mp hout with
    | inl hold =>
      split
      · exact le_of_lt (hdurable.epoch ‹_› out hold hbarrier)
      · exact h.epochs out hold hbarrier
    | inr hnew =>
      obtain rfl := mem_singleton.mp hnew
      rw [if_pos hbarrier]

theorem Ok.step (h : w.Ok n rf) (hknown : w.FactorKnown e) (hstep : w.step n rf e = some w') : w'.Ok n rf := by
  cases e with
  | registerBroker b factor =>
    obtain ⟨hguard, rfl⟩ := Runs.of_guard hstep
    exact h.registerBroker (And.right hguard)
  | addLocalCut b r epoch cut =>
    obtain ⟨hok, rfl⟩ := Runs.of_guard hstep
    by_cases hcut : cut < w.core.previousCut b r
    · rw [if_pos hcut, GlobalOrderingCore.addLocalCut, if_pos hcut]
      exact h
    · rw [if_neg hcut]
      exact h.addLocalCut hok.1 hok.2.1 hcut
  | computeGlobalCut barrier =>
    rw [Aggregation.step] at hstep
    split at hstep
    · cases hstep
      exact h
    next core cut epoch hcut =>
      cases hstep
      exact h.computeGlobalCut hknown hcut

end Aggregation

/-- Once broker `0` has registered, a global cut is the durable prefix of every broker. -/
theorem global_cut_durable {n : Nat} {rf : Int} {calls : List Call} {w : Aggregation}
    (h : Runs.Along (Aggregation.step n rf) Aggregation.FactorKnown {} calls w) {barrier : Bool}
    (hknown : w.FactorKnown (.computeGlobalCut barrier)) {core : GlobalOrderingCore} {cut : GlobalCut} {epoch : Int}
    (hcut : w.core.computeGlobalCut n barrier = some (core, cut, epoch)) : w.Durable n rf ⟨cut, epoch, barrier⟩ :=
  (h.invariant (fun _ _ _ hk hstep hok => Aggregation.Ok.step hok hk hstep)
    (Aggregation.ok_empty n rf)).durable hknown hcut

def reportedRun : List Call :=
  [.registerBroker 1 2, .addLocalCut 1 0 1 4, .registerBroker 0 2, .addLocalCut 0 0 1 7, .addLocalCut 0 1 1 5,
    .addLocalCut 1 1 1 3, .computeGlobalCut true, .addLocalCut 1 1 2 6, .addLocalCut 1 1 2 2]

theorem global_cut_durable_reportedRun : ∃ w core,
    Runs.Along (Aggregation.step 2 2) Aggregation.FactorKnown {} reportedRun w ∧
      w.core.computeGlobalCut 2 false = some (core, [(0, 5), (1, 4)], -1) ∧
      w.Durable 2 2 ⟨[(0, 5), (1, 4)], -1, false⟩ := by
  obtain ⟨w, hw, hend⟩ := Runs.exists_along_of_exec (f := fun w : Aggregation =>
      (decide (0 ∈ w.core.registeredBrokers), (w.core.computeGlobalCut 2 false).map (·.2)))
    (show (Runs.exec (Aggregation.step 2 2) Aggregation.FactorKnown {} reportedRun).map _ =
      some (true, some (([(0, 5), (1, 4)], -1) : GlobalCut × Int)) by decide +kernel)
  obtain ⟨h0, hcut⟩ := Prod.mk.inj hend
  obtain ⟨⟨core, cut, epoch⟩, hsome, heq⟩ := Option.map_eq_some_iff.mp hcut
  cases heq
  exact ⟨w, core, hw, hsome, global_cut_durable hw (of_decide_eq_true h0) hsome⟩

def oneBrokerRun : List Call := [.registerBroker 1 2, .addLocalCut 1 0 1 4, .addLocalCut 1 1 1 3]

theorem global_cut_misses_broker : ∃ w core cut epoch,
    Runs.Along (Aggregation.step 2 2) (fun _ _ => True) {} oneBrokerRun w ∧
      w.core.computeGlobalCut 2 false = some (core, cut, epoch) ∧ ¬ w.Durable 2 2 ⟨cut, epoch, false⟩ := by
  obtain ⟨w, hw, hcut⟩ := Runs.exists_along_of_exec
    (f := fun w : Aggregation => (w.core.computeGlobalCut 2 false).map (·.2))
    (show (Runs.exec (Aggregation.step 2 2) (fun _ _ => True) {} oneBrokerRun).map _ =
      some (some (([(1, 3)], -1) : GlobalCut × Int)) by decide +kernel)
  obtain ⟨⟨core, cut, epoch⟩, hsome, heq⟩ := Option.map_eq_some_iff.mp hcut
  cases heq
  exact ⟨w, core, _, _, hw, hsome, fun hdurable => absurd hdurable.brokers (by decide)⟩

end Embarcadero.Scalog
