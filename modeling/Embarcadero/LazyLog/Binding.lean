import Embarcadero.Lib.Runs
import Embarcadero.Lib.Shares
import Embarcadero.Scalog.LocalSequencer

namespace Embarcadero.LazyLog

open Function (update update_apply update_of_ne)
open List
open Scalog (MessageHeader)
open Shares (positions share total)

abbrev Binding := List (Nat × Int)

structure BindingCore where
  lastProgress : Nat → Int := fun _ => 0
  boundProgress : Nat → Int := fun _ => 0
  reportedBrokers : List Nat := []
  lastEpoch : AList fun _ : Nat => Int := ∅
  registeredBrokers : List Nat := []
  lastEmittedEpoch : Int := -1

def insertBroker (brokerId : Nat) (brokers : List Nat) : List Nat :=
  if brokerId ∈ brokers then brokers else brokers.orderedInsert (· ≤ ·) brokerId

namespace BindingCore

def registerBroker (c : BindingCore) (brokerId : Nat) : BindingCore :=
  { c with registeredBrokers := insertBroker brokerId c.registeredBrokers }

def addLocalProgress (c : BindingCore) (brokerId : Nat) (epoch localProgress : Int) : BindingCore :=
  if localProgress < c.lastProgress brokerId then c
  else
    { c with
      lastProgress := update c.lastProgress brokerId localProgress
      reportedBrokers := insertBroker brokerId c.reportedBrokers
      lastEpoch := c.lastEpoch.insert brokerId (max ((c.lastEpoch.lookup brokerId).getD 0) epoch) }

def alignedEpoch (c : BindingCore) (useEpochBarrier : Bool) : Option Int :=
  if useEpochBarrier then (c.lastEpoch.entries.map (·.2)).min?.filter (c.lastEmittedEpoch < ·) else some (-1)

def bindBroker (c : BindingCore) (acc : (Nat → Int) × Binding) (brokerId : Nat) : (Nat → Int) × Binding :=
  let reported := c.lastProgress brokerId
  let alreadyBound := acc.1 brokerId
  if reported ≤ alreadyBound then acc
  else
    let bindNow := min (reported - alreadyBound) (2 ^ 63 - 1)
    if bindNow ≤ 0 then acc
    else (update acc.1 brokerId (alreadyBound + bindNow), acc.2 ++ [(brokerId, bindNow)])

def computeGlobalBinding (c : BindingCore) (expectedBrokers : Nat) (useEpochBarrier : Bool) :
    Option (BindingCore × Binding × Int) :=
  if c.registeredBrokers.length < expectedBrokers ∨ c.reportedBrokers.length < expectedBrokers then none
  else
    (c.alignedEpoch useEpochBarrier).map fun epoch =>
      let r := c.registeredBrokers.foldl c.bindBroker (c.boundProgress, [])
      ({ c with
        boundProgress := r.1
        lastEmittedEpoch := if useEpochBarrier then epoch else c.lastEmittedEpoch }, r.2, epoch)

end BindingCore

structure ExportHeader where
  numMsg : Nat
  totalOrder : Nat
  totalSize : Nat
  logIdx : Nat
  deriving Repr

structure LocalSequencer where
  brokerId : Nat
  batchSize : Nat
  logOffset : Nat
  log : Nat → MessageHeader
  ordered : Nat := 0
  orderedOffset : Nat := 0
  nextGlobalSequence : Nat := 0
  msgToOrder : Nat := logOffset
  batchHeaders : List ExportHeader := []
  totalOrder : Nat → Option Nat := fun _ => none

structure Sweep where
  sequencer : LocalSequencer
  totalSize : Nat := 0
  startAddr : Nat := sequencer.msgToOrder
  localProgress : Bool := false
  currentBatchNumMessages : Nat := 0
  currentBatchFirstTotalOrder : Nat := sequencer.nextGlobalSequence
  lastOrderedCount : Nat := 0
  lastOrderedOffset : Nat := 0

namespace Sweep

def publishBatch (x : Sweep) (numMessages : Nat) : Sweep :=
  if x.totalSize = 0 then x
  else
    { x with
      sequencer := { x.sequencer with
        batchHeaders := x.sequencer.batchHeaders ++
          [⟨numMessages, x.currentBatchFirstTotalOrder, x.totalSize, x.startAddr⟩]
        ordered := x.lastOrderedCount
        orderedOffset := x.lastOrderedOffset } }

def stamp (x : Sweep) : Sweep :=
  let s := x.sequencer
  let h := s.log s.msgToOrder
  { x with
    localProgress := true
    currentBatchFirstTotalOrder := if x.currentBatchNumMessages = 0 then s.nextGlobalSequence
      else x.currentBatchFirstTotalOrder
    currentBatchNumMessages := x.currentBatchNumMessages + 1
    totalSize := x.totalSize + h.paddedSize
    lastOrderedCount := h.logicalOffset + 1
    lastOrderedOffset := s.msgToOrder
    sequencer := { s with
      totalOrder := update s.totalOrder s.msgToOrder (some s.nextGlobalSequence)
      msgToOrder := s.msgToOrder + h.nextMsgDiff
      nextGlobalSequence := s.nextGlobalSequence + 1 } }

def closeFull (x : Sweep) : Sweep :=
  if x.sequencer.batchSize ≤ x.totalSize then
    { x.publishBatch x.currentBatchNumMessages with
      startAddr := x.sequencer.msgToOrder
      totalSize := 0
      currentBatchNumMessages := 0
      currentBatchFirstTotalOrder := x.sequencer.nextGlobalSequence }
  else x

def stampLoop : Nat → Sweep → Sweep
  | 0, x => x
  | n + 1, x => stampLoop n x.stamp.closeFull

def applyEntry (x : Sweep) (e : Nat × Int) : Sweep :=
  if e.1 = x.sequencer.brokerId then x.stampLoop e.2.toNat
  else { x with sequencer := { x.sequencer with
    nextGlobalSequence := x.sequencer.nextGlobalSequence + (e.2 % 2 ^ 64).toNat } }

end Sweep

namespace LocalSequencer

def applyGlobalBinding (s : LocalSequencer) (binding : Binding) : LocalSequencer :=
  let x := binding.foldl Sweep.applyEntry { sequencer := s }
  if x.localProgress && decide (0 < x.totalSize) then (x.publishBatch (max x.currentBatchNumMessages 1)).sequencer
  else x.sequencer

def receiveGlobalBinding (s : LocalSequencer) (binding : Binding) : LocalSequencer :=
  s.applyGlobalBinding (binding.map fun e => (e.1, e.2.bmod (2 ^ 32)))

end LocalSequencer

def messageStart (logOffset : Nat) (sizes : List Nat) (j : Nat) : Nat := logOffset + (sizes.take j).sum

structure World where
  core : BindingCore := {}
  brokers : Nat → LocalSequencer
  messages : Nat → List Nat := fun _ => []
  bindings : List Binding := []
  applied : Nat → Nat := fun _ => 0
  accepted : Nat → List Int := fun _ => []
  covered : Nat → List Int := fun _ => []

inductive Event
  | append (b paddedSize : Nat)
  | registerBroker (b : Nat)
  | addLocalProgress (b : Nat) (epoch localProgress : Int)
  | computeGlobalBinding (expectedBrokers : Nat) (useEpochBarrier : Bool)
  | receiveGlobalBinding (b : Nat)

def largest (reports : List Int) : Int := reports.foldl max 0

def granted (bindings : List Binding) : List (Nat × Nat) :=
  bindings.flatten.map fun e => (e.1, e.2.toNat)

namespace World

def fresh (batchSize : Nat) (logOffset : Nat → Nat) (log : Nat → Nat → MessageHeader) : World where
  brokers b := { brokerId := b, batchSize, logOffset := logOffset b, log := log b }

def step (w : World) : Event → Option World
  | .append b size =>
    if 64 ≤ size ∧ (w.messages b).length + 1 < 2 ^ 31 then
      let s := w.brokers b
      -- `DelegationThread` links the message before it counts it as written
      let stop := messageStart s.logOffset (w.messages b) (w.messages b).length
      some { w with
        brokers := update w.brokers b { s with log := update s.log stop ⟨size, size, (w.messages b).length⟩ }
        messages := update w.messages b (w.messages b ++ [size]) }
    else none
  | .registerBroker b => some { w with core := w.core.registerBroker b }
  | .addLocalProgress b epoch progress =>
    if progress ≤ (w.messages b).length then
      some { w with
        core := w.core.addLocalProgress b epoch progress
        accepted := if progress < w.core.lastProgress b then w.accepted
          else update w.accepted b (w.accepted b ++ [progress]) }
    else none
  | .computeGlobalBinding expected barrier =>
    match w.core.computeGlobalBinding expected barrier with
    | none => some w
    | some (core, binding, _) => some { w with
        core
        bindings := w.bindings ++ [binding]
        covered := fun b => if b ∈ w.core.registeredBrokers then w.accepted b else w.covered b }
  | .receiveGlobalBinding b =>
    w.bindings[w.applied b]?.map fun binding =>
      { w with
        brokers := update w.brokers b ((w.brokers b).receiveGlobalBinding binding)
        applied := update w.applied b (w.applied b + 1) }

structure Agrees (w : World) : Prop where
  distinct : ∀ {b b' a a' p : Nat}, (w.brokers b).totalOrder a = some p →
    (w.brokers b').totalOrder a' = some p → b = b' ∧ a = a'
  tiles : (∀ b, w.applied b = w.bindings.length) → ∀ p : Nat,
    (p : Int) < (w.core.registeredBrokers.map fun b => largest (w.covered b)).sum ↔
      ∃ b a, (w.brokers b).totalOrder a = some p
  stamped : ∀ b, w.applied b = w.bindings.length → ∀ a : Nat, ((w.brokers b).totalOrder a).isSome ↔
    ∃ j : Nat, (j : Int) < largest (w.covered b) ∧ messageStart (w.brokers b).logOffset (w.messages b) j = a
  inLogOrder : ∀ {b a a' p q : Nat}, a < a' → (w.brokers b).totalOrder a = some p →
    (w.brokers b).totalOrder a' = some q → p < q

end World

section Layout

variable {sizes : List Nat} {offset i j n : Nat}

theorem messageStart_succ (offset : Nat) (h : sizes[j]? = some n) :
    messageStart offset sizes (j + 1) = messageStart offset sizes j + n := by
  rw [messageStart, take_add_one, h, Option.toList_some, sum_append, sum_singleton, ← Nat.add_assoc]
  rfl

theorem messageStart_append (h : j ≤ sizes.length) (n : Nat) :
    messageStart offset (sizes ++ [n]) j = messageStart offset sizes j := by
  rw [messageStart, take_append_of_le_length h]
  rfl

theorem messageStart_monotone (offset : Nat) (sizes : List Nat) : Monotone (messageStart offset sizes) := by
  refine monotone_nat_of_le_succ fun j => ?_
  rw [messageStart, messageStart, take_add_one, sum_append]
  omega

theorem messageStart_lt (hpos : ∀ n ∈ sizes, 0 < n) (hij : i < j) (hi : i < sizes.length) :
    messageStart offset sizes i < messageStart offset sizes j := by
  have hnext := messageStart_succ offset (List.getElem?_eq_getElem hi)
  have hsize := hpos _ (getElem_mem hi)
  have hle : messageStart offset sizes (i + 1) ≤ _ := messageStart_monotone offset sizes (Nat.succ_le_of_lt hij)
  omega

end Layout

structure LocalSequencer.Tracks (s : LocalSequencer) (b : Nat) (sizes l : List Nat) (seq : Nat) : Prop where
  brokerId : s.brokerId = b
  positive : ∀ n ∈ sizes, 0 < n
  linked : ∀ {j n : Nat}, sizes[j]? = some n → (s.log (messageStart s.logOffset sizes j)).nextMsgDiff = n
  length : l.length ≤ sizes.length
  totalOrder : ∀ {a p : Nat}, s.totalOrder a = some p ↔
    ∃ j, messageStart s.logOffset sizes j = a ∧ l[j]? = some p
  next : s.msgToOrder = messageStart s.logOffset sizes l.length
  seq : s.nextGlobalSequence = seq

namespace LocalSequencer.Tracks

variable {s : LocalSequencer} {b seq : Nat} {sizes l : List Nat}

theorem update_totalOrder (h : s.Tracks b sizes l seq) (hlt : l.length < sizes.length) {a p : Nat} :
    update s.totalOrder s.msgToOrder (some seq) a = some p ↔
      ∃ j, messageStart s.logOffset sizes j = a ∧ (l ++ [seq])[j]? = some p := by
  have hbefore : ∀ j < l.length, messageStart s.logOffset sizes j < messageStart s.logOffset sizes l.length :=
    fun j hj => messageStart_lt h.positive hj (hj.trans hlt)
  rw [h.next, update_apply]
  split
  next heq =>
    constructor
    · intro hp
      exact ⟨l.length, heq.symm, by rw [List.getElem?_concat_length, hp]⟩
    · rintro ⟨j, hj, hp⟩
      rcases Nat.lt_trichotomy j l.length with hlt | rfl | hgt
      · exact absurd (hj.trans heq) (Nat.ne_of_lt (hbefore j hlt))
      · rwa [List.getElem?_concat_length] at hp
      · rw [List.getElem?_eq_none (by rw [length_append, length_singleton]; omega)] at hp
        cases hp
  next hne =>
    rw [h.totalOrder]
    refine exists_congr fun j => and_congr_right fun hj => ?_
    rcases Nat.lt_trichotomy j l.length with hlt | rfl | hgt
    · rw [List.getElem?_append_left hlt]
    · exact absurd hj.symm hne
    · rw [List.getElem?_eq_none hgt.le, List.getElem?_eq_none (by rw [length_append, length_singleton]; omega)]

theorem append (h : s.Tracks b sizes l seq) {n : Nat} (hn : 0 < n) :
    Tracks { s with log := update s.log (messageStart s.logOffset sizes sizes.length) ⟨n, n, sizes.length⟩ }
      b (sizes ++ [n]) l seq where
  brokerId := h.brokerId
  positive n' hn' := (mem_append.mp hn').elim (h.positive n') fun hlast => mem_singleton.mp hlast ▸ hn
  linked {j n'} hj := by
    have hlt : j < sizes.length + 1 := by
      rw [← length_singleton (a := n), ← length_append]
      exact (List.getElem?_eq_some_iff.mp hj).1
    rw [messageStart_append (Nat.le_of_lt_succ hlt)]
    dsimp only
    cases Nat.lt_succ_iff_lt_or_eq.mp hlt with
    | inl hold =>
      rw [update_of_ne (Nat.ne_of_lt (messageStart_lt h.positive hold hold))]
      rw [List.getElem?_append_left hold] at hj
      exact h.linked hj
    | inr hlast =>
      rw [hlast, List.getElem?_concat_length] at hj
      rw [hlast, Function.update_self]
      exact Option.some.inj hj
  length := h.length.trans (by rw [length_append]; exact Nat.le_add_right _ _)
  totalOrder {a p} := by
    dsimp only
    rw [h.totalOrder]
    refine exists_congr fun j => and_congr_left fun hp => ?_
    rw [messageStart_append ((List.getElem?_eq_some_iff.mp hp).1.le.trans h.length)]
  next := h.next.trans (messageStart_append h.length n).symm
  seq := h.seq

end LocalSequencer.Tracks

namespace Sweep

variable {x : Sweep} {sizes l : List Nat} {b seq : Nat}

theorem tracks_publishBatch (h : x.sequencer.Tracks b sizes l seq) (n : Nat) :
    (x.publishBatch n).sequencer.Tracks b sizes l seq := by
  rw [publishBatch]
  split
  · exact h
  · exact { h with }

theorem tracks_closeFull (h : x.sequencer.Tracks b sizes l seq) : x.closeFull.sequencer.Tracks b sizes l seq := by
  rw [closeFull]
  split
  · exact tracks_publishBatch h _
  · exact h

theorem tracks_stamp (h : x.sequencer.Tracks b sizes l seq) (hlt : l.length < sizes.length) :
    x.stamp.sequencer.Tracks b sizes (l ++ [seq]) (seq + 1) where
  brokerId := h.brokerId
  positive := h.positive
  linked := h.linked
  length := by
    rw [length_append]
    exact hlt
  totalOrder {a p} := by
    change update x.sequencer.totalOrder x.sequencer.msgToOrder (some x.sequencer.nextGlobalSequence) a = some p ↔ _
    rw [h.seq]
    exact h.update_totalOrder hlt
  next := by
    change x.sequencer.msgToOrder + (x.sequencer.log x.sequencer.msgToOrder).nextMsgDiff = _
    have hsize := List.getElem?_eq_getElem hlt
    rw [h.next, h.linked hsize, length_append]
    exact (messageStart_succ _ hsize).symm
  seq := congrArg (· + 1) h.seq

theorem tracks_stampLoop (n : Nat) : ∀ {x : Sweep} {l : List Nat} {seq : Nat}, x.sequencer.Tracks b sizes l seq →
    l.length + n ≤ sizes.length → (x.stampLoop n).sequencer.Tracks b sizes (l ++ List.range' seq n) (seq + n) := by
  induction n with
  | zero =>
    intro x l seq h _
    rw [List.range'_zero, append_nil]
    exact h
  | succ n ih =>
    intro x l seq h hlen
    have hstamp := tracks_closeFull (tracks_stamp h (by omega))
    have hrest := ih hstamp (by rw [length_append, length_singleton]; omega)
    rw [append_assoc, Nat.add_assoc, Nat.add_comm 1 n] at hrest
    exact hrest

theorem tracks_foldl (binding : Binding) : ∀ {x : Sweep} {l : List Nat} {seq : Nat},
    x.sequencer.Tracks b sizes l seq → (∀ e ∈ binding, 0 < e.2 ∧ e.2 < 2 ^ 31) →
    l.length + share b (binding.map fun e => (e.1, e.2.toNat)) ≤ sizes.length →
    (binding.foldl applyEntry x).sequencer.Tracks b sizes
      (l ++ positions b seq (binding.map fun e => (e.1, e.2.toNat)))
      (seq + total (binding.map fun e => (e.1, e.2.toNat))) := by
  induction binding with
  | nil =>
    intro x l seq h _ _
    rw [map_nil, positions, append_nil]
    exact h
  | cons e binding ih =>
    intro x l seq h hbound hlen
    have hrest : ∀ e' ∈ binding, 0 < e'.2 ∧ e'.2 < 2 ^ 31 := fun e' he' => hbound e' (mem_cons_of_mem _ he')
    rw [map_cons, Shares.share_cons] at hlen
    rw [foldl_cons, applyEntry, map_cons, positions, Shares.total_cons, h.brokerId, ← Nat.add_assoc, ← append_assoc]
    by_cases hb : e.1 = b
    · rw [if_pos hb] at hlen
      rw [if_pos hb, if_pos hb]
      refine ih (tracks_stampLoop e.2.toNat h (by omega)) hrest ?_
      rw [length_append, List.length_range']
      omega
    · rw [if_neg hb, Nat.zero_add] at hlen
      rw [if_neg hb, if_neg hb, append_nil]
      have hskip : (e.2 % 2 ^ 64).toNat = e.2.toNat := by
        have hpos := hbound e mem_cons_self
        omega
      refine ih { h with seq := ?_ } hrest hlen
      dsimp only
      rw [h.seq, hskip]

end Sweep

theorem LocalSequencer.Tracks.receive {s : LocalSequencer} {b : Nat} {r : List (Nat × Nat)} {sizes : List Nat}
    {binding : Binding} (h : s.Tracks b sizes (positions b 0 r) (total r))
    (hbound : ∀ e ∈ binding, 0 < e.2 ∧ e.2 < 2 ^ 31)
    (hlen : share b (r ++ binding.map fun e => (e.1, e.2.toNat)) ≤ sizes.length) :
    (s.receiveGlobalBinding binding).Tracks b sizes (positions b 0 (r ++ binding.map fun e => (e.1, e.2.toNat)))
      (total (r ++ binding.map fun e => (e.1, e.2.toNat))) := by
  have hnarrow : (binding.map fun e => (e.1, e.2.bmod (2 ^ 32))) = binding := by
    refine (map_congr_left fun e he => ?_).trans (map_id binding)
    have hpos := hbound e he
    have hself : e.2.bmod (2 ^ 32) = e.2 := Int.bmod_eq_of_le (by omega) (by omega)
    rw [hself]
    rfl
  have hsweep := Sweep.tracks_foldl binding (x := { sequencer := s }) h hbound (by
    rwa [Shares.length_positions, ← Shares.share_append])
  rw [receiveGlobalBinding, hnarrow, applyGlobalBinding, Shares.positions_append, Shares.total_append, Nat.zero_add]
  split
  · exact Sweep.tracks_publishBatch hsweep _
  · exact hsweep

theorem nodup_insertBroker {l : List Nat} (h : l.Nodup) (b : Nat) : (insertBroker b l).Nodup := by
  rw [insertBroker]
  split
  · exact h
  · exact (perm_orderedInsert (· ≤ ·) b l).nodup_iff.mpr (nodup_cons.mpr ⟨‹_›, h⟩)

theorem mem_insertBroker {l : List Nat} {b b' : Nat} : b' ∈ insertBroker b l ↔ b' = b ∨ b' ∈ l := by
  rw [insertBroker]
  split
  · exact ⟨.inr, fun h => h.elim (fun heq => heq ▸ ‹_›) id⟩
  · exact mem_orderedInsert _

def toBind? (c : BindingCore) (bound : Nat → Int) (b : Nat) : Option (Nat × Int) :=
  if 0 < c.lastProgress b - bound b then some (b, c.lastProgress b - bound b) else none

namespace BindingCore

variable {c c' : BindingCore} {l : List Nat} {bound : Nat → Int}

theorem filterMap_toBind_cons (b : Nat) (l : List Nat) :
    (b :: l).filterMap (toBind? c bound) = (toBind? c bound b).toList ++ l.filterMap (toBind? c bound) := by
  rw [filterMap_cons]
  cases toBind? c bound b <;> rfl

theorem bindBroker_eq {out : Binding} {b : Nat} (hle : bound b ≤ c.lastProgress b)
    (hlt : c.lastProgress b - bound b < 2 ^ 63) :
    c.bindBroker (bound, out) b = (update bound b (c.lastProgress b), out ++ (toBind? c bound b).toList) := by
  rw [bindBroker, toBind?]
  dsimp only
  by_cases hnew : c.lastProgress b ≤ bound b
  · have heq : c.lastProgress b = bound b := Int.le_antisymm hnew hle
    rw [if_pos hnew, if_neg (by omega), Option.toList_none, append_nil, heq, Function.update_eq_self]
  · have hmin : min (c.lastProgress b - bound b) (2 ^ 63 - 1) = c.lastProgress b - bound b :=
      Int.min_eq_left (by omega)
    rw [if_neg hnew, hmin, if_neg (by omega), if_pos (by omega), Option.toList_some]
    refine congrArg (fun v => (update bound b v, _)) ?_
    omega

theorem toBind?_update {b b' : Nat} (h : b' ≠ b) (v : Int) : toBind? c (update bound b v) b' = toBind? c bound b' := by
  rw [toBind?, toBind?, update_of_ne h]

theorem foldl_bindBroker (hnodup : l.Nodup) : ∀ (bound : Nat → Int) (out : Binding),
    (∀ b ∈ l, bound b ≤ c.lastProgress b ∧ c.lastProgress b - bound b < 2 ^ 63) →
    (l.foldl c.bindBroker (bound, out)).2 = out ++ l.filterMap (toBind? c bound) ∧
      ∀ b, (l.foldl c.bindBroker (bound, out)).1 b = if b ∈ l then c.lastProgress b else bound b := by
  induction l with
  | nil => exact fun _ _ _ => ⟨(append_nil _).symm, fun _ => rfl⟩
  | cons b l ih =>
    intro bound out hle
    rw [nodup_cons] at hnodup
    have hne : ∀ b' ∈ l, b' ≠ b := fun b' hb' heq => hnodup.1 (heq ▸ hb')
    obtain ⟨hhead, hlt⟩ := hle b mem_cons_self
    rw [foldl_cons, bindBroker_eq hhead hlt]
    obtain ⟨hout, hbound⟩ := ih hnodup.2 (update bound b (c.lastProgress b))
      (out ++ (toBind? c bound b).toList) fun b' hb' => by
        rw [update_of_ne (hne b' hb')]
        exact hle b' (mem_cons_of_mem _ hb')
    refine ⟨?_, fun b' => ?_⟩
    · rw [hout, filterMap_congr fun b' hb' => toBind?_update (hne b' hb') _, append_assoc, filterMap_toBind_cons]
    · rw [hbound, update_apply]
      by_cases hb : b' = b
      · simp [hb]
      · simp [hb]

theorem share_toBind (hnodup : l.Nodup) (b : Nat) :
    share b ((l.filterMap (toBind? c bound)).map fun e => (e.1, e.2.toNat)) =
      if b ∈ l then (c.lastProgress b - bound b).toNat else 0 := by
  induction l with
  | nil => rfl
  | cons b' l ih =>
    rw [nodup_cons] at hnodup
    have hhead : share b (((toBind? c bound b').toList ++ l.filterMap (toBind? c bound)).map
        fun e => (e.1, e.2.toNat)) = (if b' = b then (c.lastProgress b' - bound b').toNat else 0) +
          share b ((l.filterMap (toBind? c bound)).map fun e => (e.1, e.2.toNat)) := by
      rw [map_append, Shares.share_append]
      refine congrArg (· + _) ?_
      rw [toBind?]
      split
      · exact (Shares.share_cons ..).trans (Nat.add_zero _)
      · have hzero : (c.lastProgress b' - bound b').toNat = 0 := by omega
        rw [hzero, ite_self]
        rfl
    rw [filterMap_toBind_cons, hhead, ih hnodup.2]
    by_cases hb : b' = b
    · subst hb
      rw [if_pos rfl, if_neg hnodup.1, if_pos mem_cons_self, Nat.add_zero]
    · rw [if_neg hb, Nat.zero_add]
      exact if_congr (by rw [mem_cons, or_iff_right (Ne.symm hb)]) rfl rfl

end BindingCore

theorem largest_append (reports : List Int) (v : Int) : largest (reports ++ [v]) = max (largest reports) v := by
  rw [largest, foldl_append]
  rfl

theorem granted_concat (bindings : List Binding) (binding : Binding) :
    granted (bindings ++ [binding]) = granted bindings ++ binding.map fun e => (e.1, e.2.toNat) := by
  rw [granted, flatten_append, flatten_singleton, map_append]
  rfl

namespace World

structure Ok (w : World) : Prop where
  nodup : w.core.registeredBrokers.Nodup
  bound_nonneg : ∀ b, 0 ≤ w.core.boundProgress b
  bound_le : ∀ b, w.core.boundProgress b ≤ w.core.lastProgress b
  progress_le : ∀ b, w.core.lastProgress b ≤ (w.messages b).length
  messages_lt : ∀ b, (w.messages b).length < 2 ^ 31
  accepted : ∀ b, largest (w.accepted b) = w.core.lastProgress b
  covered : ∀ b, largest (w.covered b) = w.core.boundProgress b
  granted : ∀ b, (share b (granted w.bindings) : Int) = w.core.boundProgress b
  entries : ∀ binding ∈ w.bindings, ∀ e ∈ binding, e.1 ∈ w.core.registeredBrokers ∧ 0 < e.2 ∧ e.2 < 2 ^ 31
  applied : ∀ b, w.applied b ≤ w.bindings.length
  tracks : ∀ b, (w.brokers b).Tracks b (w.messages b)
    (positions b 0 (LazyLog.granted (w.bindings.take (w.applied b))))
    (total (LazyLog.granted (w.bindings.take (w.applied b))))

variable {w w' : World} {e : Event}

theorem ok_fresh (batchSize : Nat) (logOffset : Nat → Nat) (log : Nat → Nat → MessageHeader) :
    (fresh batchSize logOffset log).Ok where
  nodup := .nil
  bound_nonneg _ := Int.le_refl 0
  bound_le _ := Int.le_refl 0
  progress_le _ := Int.le_refl 0
  messages_lt _ := Nat.two_pow_pos 31
  accepted _ := rfl
  covered _ := rfl
  granted _ := rfl
  entries := nofun
  applied _ := Nat.le_refl 0
  tracks b := {
    brokerId := rfl
    positive := by rintro _ ⟨⟩
    linked := by rintro _ _ ⟨⟩
    length := Nat.le_refl 0
    totalOrder := iff_of_false (by rintro ⟨⟩) (by rintro ⟨_, _, ⟨⟩⟩)
    next := rfl
    seq := rfl }

theorem Ok.append (h : w.Ok) {b size : Nat} (hsize : 64 ≤ size) (hlt : (w.messages b).length + 1 < 2 ^ 31) :
    Ok { w with
      brokers := update w.brokers b { w.brokers b with
        log := update (w.brokers b).log (messageStart (w.brokers b).logOffset (w.messages b) (w.messages b).length)
          ⟨size, size, (w.messages b).length⟩ }
      messages := update w.messages b (w.messages b ++ [size]) } := by
  refine { h with progress_le := fun b' => ?_, messages_lt := fun b' => ?_, tracks := fun b' => ?_ } <;> dsimp only <;>
    simp only [update_apply] <;> split
  next heq =>
    have hle := h.progress_le b
    rw [heq, length_append, length_singleton]
    omega
  · exact h.progress_le b'
  · rwa [length_append, length_singleton]
  · exact h.messages_lt b'
  next heq =>
    rw [heq]
    exact (h.tracks b).append (by omega)
  · exact h.tracks b'

theorem Ok.registerBroker (h : w.Ok) (b : Nat) : Ok { w with core := w.core.registerBroker b } where
  __ := h
  nodup := nodup_insertBroker h.nodup b
  entries binding hb e he :=
    ⟨mem_insertBroker.mpr (.inr (h.entries binding hb e he).1), (h.entries binding hb e he).2⟩

variable {binding : Binding} {barrier : Bool} {epoch : Int} {expected : Nat}

theorem Ok.addLocalProgress (h : w.Ok) {b : Nat} {progress : Int} (hle : progress ≤ (w.messages b).length)
    (hnew : ¬ progress < w.core.lastProgress b) :
    Ok { w with
      core := w.core.addLocalProgress b epoch progress
      accepted := update w.accepted b (w.accepted b ++ [progress]) } := by
  have hcore : w.core.addLocalProgress b epoch progress = _ := if_neg hnew
  rw [hcore]
  refine { h with bound_le := fun b' => ?_, progress_le := fun b' => ?_, accepted := fun b' => ?_ } <;>
    dsimp only <;> rw [update_apply] <;> split
  next heq =>
    rw [heq]
    exact Int.le_trans (h.bound_le b) (Int.not_lt.mp hnew)
  · exact h.bound_le b'
  next heq =>
    rw [heq]
    exact hle
  · exact h.progress_le b'
  next heq =>
    rw [heq, largest_append, h.accepted, Function.update_self]
    exact Int.max_eq_right (Int.not_lt.mp hnew)
  next hne =>
    rw [update_of_ne hne]
    exact h.accepted b'

theorem computeGlobalBinding_eq_some {c c' : BindingCore}
    (h : c.computeGlobalBinding expected barrier = some (c', binding, epoch)) :
    c'.lastProgress = c.lastProgress ∧ c'.registeredBrokers = c.registeredBrokers ∧
      (c'.boundProgress, binding) = c.registeredBrokers.foldl c.bindBroker (c.boundProgress, []) := by
  rw [BindingCore.computeGlobalBinding] at h
  split at h
  · cases h
  · obtain ⟨epoch', -, heq⟩ := Option.map_eq_some_iff.mp h
    cases heq
    exact ⟨rfl, rfl, rfl⟩

theorem Ok.computeGlobalBinding (h : w.Ok) {core : BindingCore}
    (hbind : w.core.computeGlobalBinding expected barrier = some (core, binding, epoch)) :
    Ok { w with
      core
      bindings := w.bindings ++ [binding]
      covered := fun b => if b ∈ w.core.registeredBrokers then w.accepted b else w.covered b } := by
  obtain ⟨hlast, hregistered, hround⟩ := computeGlobalBinding_eq_some hbind
  have hbounds : ∀ b, w.core.boundProgress b ≤ w.core.lastProgress b ∧
      w.core.lastProgress b - w.core.boundProgress b < 2 ^ 31 := by
    intro b
    have h₀ := h.bound_nonneg b
    have h₁ := h.progress_le b
    have h₂ := h.messages_lt b
    exact ⟨h.bound_le b, by omega⟩
  obtain ⟨hout, hbound⟩ := BindingCore.foldl_bindBroker h.nodup w.core.boundProgress []
    fun b _ => ⟨(hbounds b).1, by have := (hbounds b).2; omega⟩
  rw [← hround] at hout hbound
  dsimp only at hout hbound
  rw [nil_append] at hout
  refine { h with nodup := ?_, bound_nonneg := fun b => ?_, bound_le := fun b => ?_, progress_le := fun b => ?_,
                  accepted := fun b => ?_, covered := fun b => ?_, granted := fun b => ?_,
                  entries := fun binding' hb e he => ?_, applied := fun b => ?_, tracks := fun b => ?_ } <;>
    dsimp only
  · rw [hregistered]
    exact h.nodup
  · rw [hbound]
    split
    · exact Int.le_trans (h.bound_nonneg b) (h.bound_le b)
    · exact h.bound_nonneg b
  · rw [hbound, hlast]
    split
    · exact Int.le_refl _
    · exact h.bound_le b
  · rw [hlast]
    exact h.progress_le b
  · rw [hlast]
    exact h.accepted b
  · rw [hbound]
    split
    · exact h.accepted b
    · exact h.covered b
  · rw [hbound, granted_concat, Shares.share_append, hout, BindingCore.share_toBind h.nodup, Int.natCast_add, h.granted]
    have hle := (hbounds b).1
    split <;> omega
  · rw [hregistered]
    cases mem_append.mp hb with
    | inl hold => exact h.entries binding' hold e he
    | inr hnew =>
      obtain rfl := mem_singleton.mp hnew
      rw [hout] at he
      obtain ⟨b, hb, hsome⟩ := mem_filterMap.mp he
      obtain ⟨hguard, rfl⟩ := Runs.of_guard hsome
      exact ⟨hb, hguard, (hbounds b).2⟩
  · rw [length_append]
    exact Nat.le_add_right_of_le (h.applied b)
  · rw [take_append_of_le_length (h.applied b)]
    exact h.tracks b

theorem Ok.split_granted (w : World) (n : Nat) : LazyLog.granted w.bindings =
    LazyLog.granted (w.bindings.take n) ++ LazyLog.granted (w.bindings.drop n) := by
  rw [LazyLog.granted, LazyLog.granted, LazyLog.granted, ← map_append, ← flatten_append, take_append_drop]

theorem Ok.share_take (h : w.Ok) (b n : Nat) :
    (share b (LazyLog.granted (w.bindings.take n)) : Int) ≤ w.core.lastProgress b := by
  have hall := h.granted b
  rw [split_granted w n, Shares.share_append] at hall
  have hle := h.bound_le b
  omega

theorem Ok.receiveGlobalBinding (h : w.Ok) {b : Nat} (hnext : w.bindings[w.applied b]? = some binding) :
    Ok { w with
      brokers := update w.brokers b ((w.brokers b).receiveGlobalBinding binding)
      applied := update w.applied b (w.applied b + 1) } := by
  have hmem : binding ∈ w.bindings := mem_of_getElem? hnext
  have hshare : share b (LazyLog.granted (w.bindings.take (w.applied b + 1))) ≤ (w.messages b).length := by
    have hle := (h.share_take b (w.applied b + 1)).trans (h.progress_le b)
    exact_mod_cast hle
  rw [take_add_one, hnext, Option.toList_some, granted_concat] at hshare
  have htracks := (h.tracks b).receive (fun e he => (h.entries binding hmem e he).2) hshare
  rw [← granted_concat, ← Option.toList_some, ← hnext, ← take_add_one] at htracks
  refine { h with applied := fun b' => ?_, tracks := fun b' => ?_ } <;> dsimp only <;>
    simp only [update_apply] <;> split
  · exact (List.getElem?_eq_some_iff.mp hnext).1
  · exact h.applied b'
  next heq =>
    rw [heq]
    exact htracks
  · exact h.tracks b'

theorem Ok.step (h : w.Ok) (hstep : w.step e = some w') : w'.Ok := by
  cases e with
  | append b size =>
    obtain ⟨hguard, rfl⟩ := Runs.of_guard hstep
    exact h.append hguard.1 hguard.2
  | registerBroker b =>
    cases hstep
    exact h.registerBroker b
  | addLocalProgress b epoch progress =>
    obtain ⟨hguard, rfl⟩ := Runs.of_guard hstep
    by_cases hold : progress < w.core.lastProgress b
    · rw [if_pos hold, BindingCore.addLocalProgress, if_pos hold]
      exact h
    · rw [if_neg hold]
      exact h.addLocalProgress hguard hold
  | computeGlobalBinding expected barrier =>
    rw [World.step] at hstep
    split at hstep
    · cases hstep
      exact h
    · cases hstep
      exact h.computeGlobalBinding ‹_›
  | receiveGlobalBinding b =>
    obtain ⟨binding, hnext, rfl⟩ := Option.map_eq_some_iff.mp hstep
    exact h.receiveGlobalBinding hnext

theorem Ok.position (h : w.Ok) {b a p : Nat} (hp : (w.brokers b).totalOrder a = some p) :
    ∃ j, messageStart (w.brokers b).logOffset (w.messages b) j = a ∧
      (positions b 0 (LazyLog.granted w.bindings))[j]? = some p := by
  obtain ⟨j, hj, hp⟩ := (h.tracks b).totalOrder.mp hp
  refine ⟨j, hj, ?_⟩
  rw [split_granted w (w.applied b), Shares.positions_append,
    List.getElem?_append_left (List.getElem?_eq_some_iff.mp hp).1]
  exact hp

theorem Ok.totalOrder (h : w.Ok) {b a p : Nat} (hall : w.applied b = w.bindings.length) :
    (w.brokers b).totalOrder a = some p ↔ ∃ j, messageStart (w.brokers b).logOffset (w.messages b) j = a ∧
      (positions b 0 (LazyLog.granted w.bindings))[j]? = some p := by
  rw [(h.tracks b).totalOrder, hall, take_length]

theorem Ok.mem_registered (h : w.Ok) : ∀ e ∈ LazyLog.granted w.bindings, e.1 ∈ w.core.registeredBrokers := by
  intro e he
  obtain ⟨e', he', rfl⟩ := mem_map.mp he
  obtain ⟨binding, hb, hmem⟩ := mem_flatten.mp he'
  exact (h.entries binding hb e' hmem).1

theorem Ok.total (h : w.Ok) : (total (LazyLog.granted w.bindings) : Int) =
    (w.core.registeredBrokers.map fun b => largest (w.covered b)).sum := by
  rw [← Shares.sum_share h.nodup h.mem_registered, Nat.cast_list_sum, map_map]
  exact congrArg List.sum (map_congr_left fun b _ => (h.granted b).trans (h.covered b).symm)

theorem Ok.agrees (h : w.Ok) : w.Agrees where
  distinct hp hp' := by
    obtain ⟨j, rfl, hj⟩ := h.position hp
    obtain ⟨j', rfl, hj'⟩ := h.position hp'
    obtain ⟨rfl, rfl⟩ := Shares.position_unique hj hj'
    exact ⟨rfl, rfl⟩
  tiles hall p := by
    rw [← h.total, Int.ofNat_lt]
    constructor
    · intro hp
      obtain ⟨b, -, hmem⟩ := Shares.exists_position (Nat.zero_le p) (Nat.lt_of_lt_of_eq hp (Nat.zero_add _).symm)
      obtain ⟨j, hj⟩ := List.getElem?_of_mem hmem
      exact ⟨b, _, (h.totalOrder (hall b)).mpr ⟨j, rfl, hj⟩⟩
    · rintro ⟨b, a, ha⟩
      obtain ⟨j, -, hj⟩ := h.position ha
      have hbound := Shares.bounds_of_mem (mem_of_getElem? hj)
      rw [Nat.zero_add] at hbound
      exact hbound.2
  stamped b hall a := by
    rw [Option.isSome_iff_exists]
    simp only [h.totalOrder hall, h.covered, ← h.granted, ← Shares.length_positions b 0, Int.ofNat_lt]
    constructor
    · rintro ⟨p, j, hj, hp⟩
      exact ⟨j, (List.getElem?_eq_some_iff.mp hp).1, hj⟩
    · rintro ⟨j, hlt, hj⟩
      exact ⟨_, j, hj, List.getElem?_eq_getElem hlt⟩
  inLogOrder {b a a' p q} hlt hp hq := by
    obtain ⟨i, rfl, hi⟩ := h.position hp
    obtain ⟨j, rfl, hj⟩ := h.position hq
    have hij : i < j := (messageStart_monotone _ _).reflect_lt hlt
    have hpairwise := Shares.pairwise_positions b 0 (LazyLog.granted w.bindings)
    obtain ⟨hi', rfl⟩ := List.getElem?_eq_some_iff.mp hi
    obtain ⟨hj', rfl⟩ := List.getElem?_eq_some_iff.mp hj
    exact pairwise_iff_getElem.mp hpairwise i j hi' hj' hij

end World

def twoRoundsRun : List Event :=
  [.append 0 64, .append 0 128, .addLocalProgress 0 1 2, .registerBroker 1, .registerBroker 0, .append 1 192,
    .addLocalProgress 1 1 1, .computeGlobalBinding 2 true, .receiveGlobalBinding 1, .addLocalProgress 0 2 1,
    .append 1 64, .addLocalProgress 1 2 2, .computeGlobalBinding 2 false, .receiveGlobalBinding 0,
    .receiveGlobalBinding 1, .receiveGlobalBinding 0]

end Embarcadero.LazyLog
