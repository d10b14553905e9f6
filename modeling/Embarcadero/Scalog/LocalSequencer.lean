import Embarcadero.Lib.Assoc
import Embarcadero.Lib.Runs
import Embarcadero.Lib.Shares

namespace Embarcadero.Scalog

open Function (update update_apply update_of_ne update_self)
open List
open Shares (positions share total)

structure MessageHeader where
  paddedSize : Nat
  nextMsgDiff : Nat
  logicalOffset : Nat
  deriving Repr

structure ExportHeader where
  numMsg : Nat
  startLogicalOffset : Nat
  totalSize : Nat
  logIdx : Nat
  deriving Repr

abbrev GlobalCut := List (Nat × Int)

structure LocalSequencer where
  brokerId : Nat
  batchSize : Nat
  logOffset : Nat
  log : Nat → MessageHeader
  validatedWrittenByteOffset : Nat := 0
  ordered : Nat := 0
  orderedOffset : Nat := 0
  seq : Nat := 0
  /-- `msg_to_order_`, as the number of the message and its byte offset. -/
  msgToOrder : Nat := 0
  msgByteOff : Nat := logOffset
  batchHeaders : List ExportHeader := []
  lastAppliedGlobalCut : Nat → Option Int := fun _ => none
  totalOrder : Nat → Option Nat := fun _ => none

namespace LocalSequencer

def stampable (s : LocalSequencer) (j off : Nat) : Bool :=
  let h := s.log j
  let validEnd := s.validatedWrittenByteOffset
  let maxValidIdx := if 0 < h.paddedSize then (validEnd - s.logOffset) / h.paddedSize else 0
  decide (s.logOffset < validEnd) && decide (0 < h.paddedSize) && decide (0 < h.nextMsgDiff) &&
    decide (off < validEnd) && decide (h.logicalOffset < maxValidIdx)

end LocalSequencer

structure Sweep where
  sequencer : LocalSequencer
  startAddr : Nat := sequencer.msgByteOff
  totalSize : Nat := 0
  batchNumMsg : Nat := 0
  batchStartLogicalOffset : Nat := 0
  localProgress : Bool := false
  lastOrderedCount : Nat := sequencer.ordered
  lastOrderedOffset : Nat := 0

namespace Sweep

def publishBatch (x : Sweep) : Sweep :=
  if x.totalSize = 0 then x
  else
    { x with
      sequencer := { x.sequencer with
        batchHeaders := x.sequencer.batchHeaders ++
          [⟨x.batchNumMsg, x.batchStartLogicalOffset, x.totalSize, x.startAddr⟩]
        ordered := x.lastOrderedCount
        orderedOffset := x.lastOrderedOffset } }

def stamp (x : Sweep) : Sweep :=
  let s := x.sequencer
  let h := s.log s.msgToOrder
  { x with
    localProgress := true
    batchStartLogicalOffset := if x.batchNumMsg = 0 then (x.lastOrderedCount + 2 ^ 64 - 1) % 2 ^ 64
      else x.batchStartLogicalOffset
    totalSize := x.totalSize + h.paddedSize
    batchNumMsg := x.batchNumMsg + 1
    lastOrderedCount := x.lastOrderedCount + 1
    lastOrderedOffset := s.msgByteOff
    sequencer := { s with
      totalOrder := update s.totalOrder s.msgToOrder (some s.seq)
      msgToOrder := s.msgToOrder + 1
      msgByteOff := s.msgByteOff + h.nextMsgDiff
      seq := s.seq + 1 } }

def closeFull (x : Sweep) : Sweep :=
  if x.sequencer.batchSize ≤ x.totalSize then
    { x.publishBatch with startAddr := x.sequencer.msgByteOff, totalSize := 0, batchNumMsg := 0 }
  else x

def stampLoop : Nat → Sweep → Sweep
  | 0, x => x
  | n + 1, x =>
    if x.sequencer.stampable x.sequencer.msgToOrder x.sequencer.msgByteOff then stampLoop n x.stamp.closeFull else x

def applyEntry (x : Sweep) (e : Nat × Nat) : Sweep :=
  if e.1 = x.sequencer.brokerId then x.stampLoop e.2
  else { x with sequencer := { x.sequencer with seq := x.sequencer.seq + e.2 } }

end Sweep

namespace LocalSequencer

def scalogSequencer (s : LocalSequencer) (delta : List (Nat × Nat)) : LocalSequencer :=
  let x := delta.foldl Sweep.applyEntry { sequencer := s }
  if x.localProgress && decide (0 < x.totalSize) then x.publishBatch.sequencer else x.sequencer

def collect (acc : (Nat → Option Int) × List (Nat × Nat)) (e : Nat × Int) :
    (Nat → Option Int) × List (Nat × Nat) :=
  let prevApplied := (acc.1 e.1).getD 0
  let applied := update acc.1 e.1 (some prevApplied)
  if e.2 < prevApplied then (applied, acc.2)
  else if 0 < e.2 - prevApplied then
    (update applied e.1 (some e.2), acc.2 ++ [(e.1, (e.2 - prevApplied).toNat)])
  else (applied, acc.2)

/-- One message of `ReceiveGlobalCut`.  If nothing has been ordered, the own entry is taken back for the next cut. -/
def receiveGlobalCut (s : LocalSequencer) (cut : GlobalCut) : LocalSequencer :=
  let r := cut.foldl collect (s.lastAppliedGlobalCut, [])
  let s₁ := { s with lastAppliedGlobalCut := r.1 }
  if r.2 = [] then s₁
  else
    let s₂ := s₁.scalogSequencer r.2
    if s₂.ordered = s₁.ordered ∧ (s₂.lastAppliedGlobalCut s₂.brokerId).isSome then
      { s₂ with lastAppliedGlobalCut := update s₂.lastAppliedGlobalCut s₂.brokerId (some s₁.ordered) }
    else s₂

def Clear (s : LocalSequencer) : Nat → Nat → Nat → Prop
  | 0, _, _ => True
  | n + 1, j, off => s.stampable j off = true ∧ s.Clear n (j + 1) (off + (s.log j).nextMsgDiff)

instance decidableClear (s : LocalSequencer) : (n j off : Nat) → Decidable (s.Clear n j off)
  | 0, _, _ => isTrue trivial
  | n + 1, j, off =>
    have := s.decidableClear n (j + 1) (off + (s.log j).nextMsgDiff)
    inferInstanceAs (Decidable (_ ∧ _))

end LocalSequencer

def cutDelta (v : Nat → Int) (cut : GlobalCut) : List (Nat × Nat) :=
  cut.filterMap fun e => if 0 < e.2 - v e.1 then some (e.1, (e.2 - v e.1).toNat) else none

def deltas (cuts : List GlobalCut) : List (Nat × Nat) :=
  cuts.foldl (fun r cut => r ++ cutDelta (fun b => share b r) cut) []

def lastCut (cuts : List GlobalCut) (b : Nat) : Int :=
  cuts.foldl (fun v cut => (cut.lookup b).getD v) 0

structure Follows (n : Nat) (cuts : List GlobalCut) (cut : GlobalCut) : Prop where
  sorted : (cut.map (·.1)).Pairwise (· < ·)
  brokers : ∀ e ∈ cut, e.1 < n
  monotone : ∀ e ∈ cut, lastCut cuts e.1 ≤ e.2

instance (n : Nat) (cuts : List GlobalCut) (cut : GlobalCut) : Decidable (Follows n cuts cut) :=
  decidable_of_iff ((cut.map (·.1)).Pairwise (· < ·) ∧ (∀ e ∈ cut, e.1 < n) ∧
    ∀ e ∈ cut, lastCut cuts e.1 ≤ e.2) ⟨fun h => ⟨h.1, h.2.1, h.2.2⟩, fun h => ⟨h.1, h.2, h.3⟩⟩

structure World where
  brokers : Nat → LocalSequencer
  cuts : List GlobalCut := []
  received : Nat → Nat := fun _ => 0

inductive Event
  | send (cut : GlobalCut)
  | receive (b : Nat)
  | validate (b boundary : Nat)

namespace World

def fresh (batchSize : Nat) (logOffset : Nat → Nat) (log : Nat → Nat → MessageHeader) : World where
  brokers b := { brokerId := b, batchSize, logOffset := logOffset b, log := log b }

def step (n : Nat) (w : World) : Event → Option World
  | .send cut => if Follows n w.cuts cut then some { w with cuts := w.cuts ++ [cut] } else none
  | .receive b =>
    if b < n then
      w.cuts[w.received b]?.map fun cut =>
        { w with
          brokers := update w.brokers b ((w.brokers b).receiveGlobalCut cut)
          received := update w.received b (w.received b + 1) }
    else none
  | .validate b boundary => some { w with
      brokers := update w.brokers b { w.brokers b with validatedWrittenByteOffset := boundary } }

def Stampable (w : World) : Event → Prop
  | .receive b => ∀ cut ∈ w.cuts[w.received b]?,
      ∀ e ∈ cutDelta (fun b' => ((w.brokers b).lastAppliedGlobalCut b').getD 0) cut,
        e.1 = b → (w.brokers b).Clear e.2 (w.brokers b).msgToOrder (w.brokers b).msgByteOff
  | _ => True

instance (w : World) : (e : Event) → Decidable (w.Stampable e)
  | .receive b => inferInstanceAs (Decidable (∀ cut ∈ w.cuts[w.received b]?, _))
  | .send _ | .validate .. => isTrue trivial

structure Agrees (n : Nat) (w : World) : Prop where
  distinct : ∀ {b b' j j' p : Nat}, b < n → b' < n → (w.brokers b).totalOrder j = some p →
    (w.brokers b').totalOrder j' = some p → b = b' ∧ j = j'
  position : ∀ b < n, ∀ j p, (w.brokers b).totalOrder j = some p → (positions b 0 (deltas w.cuts))[j]? = some p
  tiles : (∀ b < n, w.received b = w.cuts.length) → ∀ p : Nat, (p : Int) < ((List.range n).map (lastCut w.cuts)).sum ↔
      ∃ b < n, ∃ j, (w.brokers b).totalOrder j = some p

end World

def LocalSequencer.config (s : LocalSequencer) :=
  (s.brokerId, s.batchSize, s.logOffset, s.log, s.validatedWrittenByteOffset, s.lastAppliedGlobalCut)

theorem LocalSequencer.Clear.congr {s s' : LocalSequencer} (hoff : s'.logOffset = s.logOffset)
    (hlog : s'.log = s.log) (hvalid : s'.validatedWrittenByteOffset = s.validatedWrittenByteOffset) {n : Nat} :
    ∀ {j off : Nat}, s.Clear n j off → s'.Clear n j off := by
  induction n with
  | zero => exact fun _ => trivial
  | succ n ih =>
    intro j off hc
    have hstamp : s'.stampable j off = s.stampable j off := by
      rw [stampable, stampable, hoff, hlog, hvalid]
    refine ⟨hstamp.trans hc.1, ?_⟩
    rw [hlog]
    exact ih hc.2

namespace Sweep

structure Tracks (x : Sweep) (l : List Nat) : Prop where
  totalOrder : ∀ j, x.sequencer.totalOrder j = l[j]?
  next : x.sequencer.msgToOrder = l.length
  counted : x.lastOrderedCount = l.length
  published : x.totalSize = 0 → x.sequencer.ordered = l.length
  progress : 0 < x.totalSize → x.localProgress = true

variable {x : Sweep} {l : List Nat} {n : Nat}

theorem publishBatch_eq (x : Sweep) : ∃ headers ordered orderedOffset, x.publishBatch =
    { x with sequencer := { x.sequencer with
      batchHeaders := headers, ordered := ordered, orderedOffset := orderedOffset } } := by
  rw [publishBatch]
  split
  · exact ⟨_, _, _, rfl⟩
  · exact ⟨_, _, _, rfl⟩

theorem closeFull_eq (x : Sweep) : ∃ headers ordered orderedOffset, x.closeFull.sequencer =
    { x.sequencer with batchHeaders := headers, ordered := ordered, orderedOffset := orderedOffset } := by
  rw [closeFull]
  split
  · obtain ⟨headers, ordered, orderedOffset, heq⟩ := x.publishBatch_eq
    exact ⟨headers, ordered, orderedOffset, congrArg sequencer heq⟩
  · exact ⟨_, _, _, rfl⟩

theorem Tracks.stamp (h : x.Tracks l)
    (hs : x.sequencer.stampable x.sequencer.msgToOrder x.sequencer.msgByteOff = true) :
    x.stamp.Tracks (l ++ [x.sequencer.seq]) := by
  have hsize : 0 < (x.sequencer.log x.sequencer.msgToOrder).paddedSize := by
    simp only [LocalSequencer.stampable, Bool.and_eq_true, decide_eq_true_eq] at hs
    exact hs.1.1.1.2
  refine ⟨fun j => ?_, ?_, ?_, fun hzero => ?_, fun _ => rfl⟩
  · change update x.sequencer.totalOrder x.sequencer.msgToOrder (some x.sequencer.seq) j = _
    rw [h.next]
    exact Shares.update_length h.totalOrder _ j
  · rw [length_append]
    exact congrArg (· + 1) h.next
  · rw [length_append]
    exact congrArg (· + 1) h.counted
  · change x.totalSize + _ = 0 at hzero
    omega

theorem Tracks.publishBatch (h : x.Tracks l) :
    x.publishBatch.Tracks l ∧ x.publishBatch.sequencer.ordered = l.length := by
  rw [Sweep.publishBatch]
  split
  next hzero => exact ⟨h, h.published hzero⟩
  · exact ⟨⟨h.totalOrder, h.next, h.counted, fun _ => h.counted, h.progress⟩, h.counted⟩

theorem Tracks.closeFull (h : x.Tracks l) : x.closeFull.Tracks l := by
  rw [Sweep.closeFull]
  split
  · have hp := h.publishBatch
    exact ⟨hp.1.totalOrder, hp.1.next, hp.1.counted, fun _ => hp.2, fun hpos => absurd hpos (Nat.lt_irrefl 0)⟩
  · exact h

theorem Tracks.stampLoop (n : Nat) : ∀ {x : Sweep} {l : List Nat}, x.Tracks l →
    x.sequencer.Clear n x.sequencer.msgToOrder x.sequencer.msgByteOff →
    (x.stampLoop n).Tracks (l ++ List.range' x.sequencer.seq n) ∧
      (x.stampLoop n).sequencer.seq = x.sequencer.seq + n ∧
      (x.stampLoop n).sequencer.config = x.sequencer.config := by
  induction n with
  | zero =>
    intro x l h _
    rw [List.range'_zero, append_nil]
    exact ⟨h, rfl, rfl⟩
  | succ n ih =>
    intro x l h hc
    obtain ⟨headers, ordered, orderedOffset, hclose⟩ := x.stamp.closeFull_eq
    have hrest : x.stamp.closeFull.sequencer.Clear n x.stamp.closeFull.sequencer.msgToOrder
        x.stamp.closeFull.sequencer.msgByteOff := by
      rw [hclose]
      refine .congr (s := x.sequencer) ?_ ?_ ?_ hc.2 <;> rfl
    obtain ⟨htracks, hseq, hconfig⟩ := ih (h.stamp hc.1).closeFull hrest
    rw [hclose] at htracks hseq hconfig
    rw [Sweep.stampLoop, if_pos hc.1]
    refine ⟨?_, ?_, hconfig⟩
    · rw [append_assoc] at htracks
      exact htracks
    · rw [hseq]
      change x.sequencer.seq + 1 + n = _
      omega

theorem Tracks.foldl (delta : List (Nat × Nat)) : ∀ {x : Sweep} {l : List Nat}, x.Tracks l →
    (delta.map (·.1)).Nodup →
    (∀ e ∈ delta, e.1 = x.sequencer.brokerId →
      x.sequencer.Clear e.2 x.sequencer.msgToOrder x.sequencer.msgByteOff) →
    (delta.foldl applyEntry x).Tracks (l ++ positions x.sequencer.brokerId x.sequencer.seq delta) ∧
      (delta.foldl applyEntry x).sequencer.seq = x.sequencer.seq + total delta ∧
      (delta.foldl applyEntry x).sequencer.config = x.sequencer.config := by
  induction delta with
  | nil =>
    intro x l h _ _
    rw [positions, append_nil]
    exact ⟨h, rfl, rfl⟩
  | cons e delta ih =>
    obtain ⟨b, n⟩ := e
    intro x l h hnodup hclear
    rw [map_cons, nodup_cons] at hnodup
    rw [foldl_cons, applyEntry, positions, Shares.total_cons]
    dsimp only
    by_cases hb : b = x.sequencer.brokerId
    · obtain ⟨htracks, hseq, hconfig⟩ := h.stampLoop n (hclear (b, n) mem_cons_self hb)
      have hbroker : (x.stampLoop n).sequencer.brokerId = x.sequencer.brokerId :=
        congrArg (·.1) hconfig
      -- The own messages come once only.
      have hrest : ∀ e ∈ delta, e.1 = (x.stampLoop n).sequencer.brokerId →
          (x.stampLoop n).sequencer.Clear e.2 (x.stampLoop n).sequencer.msgToOrder
            (x.stampLoop n).sequencer.msgByteOff := by
        intro e he heq
        refine absurd (mem_map_of_mem (f := (·.1)) he) ?_
        rw [heq, hbroker, ← hb]
        exact hnodup.1
      obtain ⟨htracks', hseq', hconfig'⟩ := ih htracks hnodup.2 hrest
      rw [if_pos hb, if_pos hb]
      refine ⟨?_, ?_, hconfig'.trans hconfig⟩
      · rw [hbroker, hseq, append_assoc] at htracks'
        exact htracks'
      · rw [hseq', hseq, Nat.add_assoc]
    · have hskip : Tracks { x with sequencer := { x.sequencer with seq := x.sequencer.seq + n } } l :=
        ⟨h.totalOrder, h.next, h.counted, h.published, h.progress⟩
      obtain ⟨htracks', hseq', hconfig'⟩ := ih hskip hnodup.2 fun e he heq => by
        refine .congr (s := x.sequencer) ?_ ?_ ?_ (hclear e (mem_cons_of_mem _ he) heq) <;> rfl
      rw [if_neg hb, if_neg hb, nil_append]
      refine ⟨htracks', ?_, hconfig'⟩
      rw [hseq', Nat.add_assoc]

end Sweep

structure LocalSequencer.InStep (s : LocalSequencer) (r : List (Nat × Nat)) : Prop where
  seq : s.seq = total r
  totalOrder : ∀ j, s.totalOrder j = (positions s.brokerId 0 r)[j]?
  next : s.msgToOrder = share s.brokerId r
  ordered : s.ordered = share s.brokerId r

theorem LocalSequencer.InStep.scalogSequencer {s : LocalSequencer} {r delta : List (Nat × Nat)}
    (h : s.InStep r) (hnodup : (delta.map (·.1)).Nodup)
    (hclear : ∀ e ∈ delta, e.1 = s.brokerId → s.Clear e.2 s.msgToOrder s.msgByteOff) :
    (s.scalogSequencer delta).InStep (r ++ delta) ∧ (s.scalogSequencer delta).config = s.config := by
  have hlen := Shares.length_positions s.brokerId 0 r
  have hstart : ({ sequencer := s } : Sweep).Tracks (positions s.brokerId 0 r) :=
    ⟨h.totalOrder, h.next.trans hlen.symm, h.ordered.trans hlen.symm, fun _ => h.ordered.trans hlen.symm,
      fun hpos => absurd hpos (Nat.lt_irrefl 0)⟩
  obtain ⟨htracks, hseq, hconfig⟩ := hstart.foldl delta hnodup hclear
  dsimp only at htracks hseq
  rw [h.seq, ← Nat.zero_add (total r), ← Shares.positions_append] at htracks
  rw [LocalSequencer.scalogSequencer]
  generalize delta.foldl Sweep.applyEntry { sequencer := s } = x at *
  have hall : s.brokerId = x.sequencer.brokerId := congrArg (·.1) hconfig.symm
  have hinStep : ∀ {y : LocalSequencer}, y.brokerId = s.brokerId → y.seq = x.sequencer.seq →
      y.totalOrder = x.sequencer.totalOrder → y.msgToOrder = x.sequencer.msgToOrder →
      y.ordered = (positions s.brokerId 0 (r ++ delta)).length → y.InStep (r ++ delta) := by
    intro y hid hs ht hm ho
    rw [Shares.length_positions] at ho
    refine ⟨?_, fun j => ?_, ?_, hid ▸ ho⟩
    · rw [hs, hseq, h.seq, Shares.total_append]
    · rw [ht, hid]
      exact htracks.totalOrder j
    · rw [hm, htracks.next, Shares.length_positions, hid]
  split
  · obtain ⟨headers, ordered, orderedOffset, hpublish⟩ := x.publishBatch_eq
    have hordered := htracks.publishBatch.2
    rw [hpublish] at hordered ⊢
    exact ⟨hinStep hall.symm rfl rfl rfl hordered, hconfig⟩
  next hopen =>
    refine ⟨hinStep hall.symm rfl rfl rfl (htracks.published ?_), hconfig⟩
    by_contra hsize
    refine hopen ?_
    rw [htracks.progress (Nat.pos_of_ne_zero hsize), Bool.true_and, decide_eq_true_eq]
    exact Nat.pos_of_ne_zero hsize

section Cuts

variable {cut : GlobalCut}

theorem cutDelta_congr {v v' : Nat → Int} (h : ∀ e ∈ cut, v e.1 = v' e.1) : cutDelta v cut = cutDelta v' cut := by
  refine filterMap_congr fun e he => ?_
  rw [h e he]

theorem nodup_cutDelta (h : (cut.map (·.1)).Nodup) (v : Nat → Int) : ((cutDelta v cut).map (·.1)).Nodup := by
  refine h.sublist ?_
  induction cut with
  | nil => exact .slnil
  | cons e cut ih =>
    rw [cutDelta, filterMap_cons, map_cons]
    have hrest := ih (nodup_cons.mp h).2
    split
    · exact hrest.cons _
    next d hd =>
      obtain ⟨-, rfl⟩ := Runs.of_guard hd
      exact hrest.cons_cons _

theorem share_cutDelta (hnodup : (cut.map (·.1)).Nodup) {v : Nat → Int} (hle : ∀ e ∈ cut, v e.1 ≤ e.2)
    (b : Nat) : v b + share b (cutDelta v cut) = (cut.lookup b).getD (v b) := by
  induction cut with
  | nil => simp [cutDelta, share]
  | cons e cut ih =>
    rw [map_cons, nodup_cons] at hnodup
    have hrest := ih hnodup.2 fun e he => hle e (mem_cons_of_mem _ he)
    have hhead := hle e mem_cons_self
    have hstep : share b (cutDelta v (e :: cut)) =
        (if e.1 = b then (e.2 - v e.1).toNat else 0) + share b (cutDelta v cut) := by
      rw [cutDelta, filterMap_cons]
      split
      next hd =>
        split at hd
        · cases hd
        · have hzero : (e.2 - v e.1).toNat = 0 := by omega
          rw [hzero, ite_self, Nat.zero_add]
          rfl
      next d hd =>
        obtain ⟨-, rfl⟩ := Runs.of_guard hd
        exact Shares.share_cons ..
    rw [hstep, lookup_cons]
    by_cases hb : e.1 = b
    · subst hb
      rw [Assoc.lookup_eq_none hnodup.1] at hrest
      change v e.1 + _ = v e.1 at hrest
      simp only [if_true, BEq.rfl, Option.getD_some]
      omega
    · have hne : (b == e.1) = false := by simpa using Ne.symm hb
      rw [if_neg hb, hne, Nat.zero_add]
      exact hrest

theorem collect_spec {f : Nat → Option Int} {e : Nat × Int} (hle : (f e.1).getD 0 ≤ e.2) (d : List (Nat × Nat)) :
    (LocalSequencer.collect (f, d) e).2 = d ++ cutDelta (fun b => (f b).getD 0) [e] ∧
      ((LocalSequencer.collect (f, d) e).1 e.1).getD 0 = e.2 ∧
      ∀ b, b ≠ e.1 → (LocalSequencer.collect (f, d) e).1 b = f b := by
  rw [LocalSequencer.collect, cutDelta, filterMap_cons, filterMap_nil]
  dsimp only
  rw [if_neg (Int.not_lt.mpr hle)]
  split
  · refine ⟨rfl, ?_, fun b hb => ?_⟩
    · dsimp only
      rw [update_self]
      rfl
    · dsimp only
      rw [update_of_ne hb, update_of_ne hb]
  · refine ⟨(append_nil d).symm, ?_, fun b hb => update_of_ne hb ..⟩
    dsimp only
    rw [update_self, Option.getD_some]
    omega

theorem foldl_collect (hnodup : (cut.map (·.1)).Nodup) : ∀ (f : Nat → Option Int) (d : List (Nat × Nat)),
    (∀ e ∈ cut, (f e.1).getD 0 ≤ e.2) →
    (cut.foldl LocalSequencer.collect (f, d)).2 = d ++ cutDelta (fun b => (f b).getD 0) cut ∧
      ∀ b, ((cut.foldl LocalSequencer.collect (f, d)).1 b).getD 0 = (cut.lookup b).getD ((f b).getD 0) := by
  induction cut with
  | nil => exact fun f d _ => ⟨(append_nil d).symm, fun _ => rfl⟩
  | cons e cut ih =>
    intro f d hle
    rw [map_cons, nodup_cons] at hnodup
    obtain ⟨hdelta, hself, hother⟩ := collect_spec (hle e mem_cons_self) d
    rw [foldl_cons]
    generalize LocalSequencer.collect (f, d) e = acc at *
    have hkeep : ∀ e' ∈ cut, acc.1 e'.1 = f e'.1 := fun e' he' => hother _ fun heq =>
      hnodup.1 (heq ▸ mem_map_of_mem he')
    obtain ⟨hrest, hvalue⟩ := ih hnodup.2 acc.1 acc.2 fun e' he' => by
      rw [hkeep e' he']
      exact hle e' (mem_cons_of_mem _ he')
    refine ⟨?_, fun b => (hvalue b).trans ?_⟩
    · have hcongr : cutDelta (fun b => (acc.1 b).getD 0) cut = cutDelta (fun b => (f b).getD 0) cut :=
        cutDelta_congr fun e' he' => by rw [hkeep e' he']
      rw [hrest, hdelta, hcongr, append_assoc]
      exact congrArg (d ++ ·) filterMap_append.symm
    · rw [lookup_cons]
      by_cases hb : b = e.1
      · subst hb
        rw [Assoc.lookup_eq_none hnodup.1, hself, BEq.rfl]
        rfl
      · rw [hother b hb, beq_false_of_ne hb]

theorem deltas_concat (cuts : List GlobalCut) (cut : GlobalCut) :
    deltas (cuts ++ [cut]) = deltas cuts ++ cutDelta (fun b => share b (deltas cuts)) cut := by
  rw [deltas, foldl_append]
  rfl

theorem lastCut_concat (cuts : List GlobalCut) (cut : GlobalCut) (b : Nat) :
    lastCut (cuts ++ [cut]) b = (cut.lookup b).getD (lastCut cuts b) := by
  rw [lastCut, foldl_append]
  rfl

theorem deltas_take_prefix (cuts : List GlobalCut) (k : Nat) : deltas (cuts.take k) <+: deltas cuts := by
  induction cuts using List.reverseRecOn with
  | nil =>
    rw [take_nil]
  | append_singleton cuts cut ih =>
    rw [take_append, deltas_concat]
    cases hk : k - cuts.length with
    | zero =>
      rw [take_zero, append_nil]
      exact ih.trans (prefix_append _ _)
    | succ d =>
      rw [take_of_length_le (Nat.le_of_lt (Nat.lt_of_sub_eq_succ hk)), take_succ_cons, take_nil, deltas_concat]

end Cuts

def Sent (n : Nat) (cuts : List GlobalCut) : Prop :=
  ∀ k cut, cuts[k]? = some cut → Follows n (cuts.take k) cut

namespace Sent

variable {n : Nat} {cuts : List GlobalCut} {cut : GlobalCut}

theorem nil : Sent n [] := fun k _ hk => by cases hk

theorem concat (h : Sent n cuts) (hcut : Follows n cuts cut) : Sent n (cuts ++ [cut]) := by
  intro k c hk
  rw [List.getElem?_append] at hk
  split at hk
  next hlt =>
    rw [take_append_of_le_length (Nat.le_of_lt hlt)]
    exact h k c hk
  next hge =>
    obtain ⟨hlt, rfl⟩ := List.getElem?_eq_some_iff.mp hk
    rw [length_singleton] at hlt
    rw [take_append_of_le_length (by omega), take_of_length_le (by omega), getElem_singleton]
    exact hcut

theorem share_deltas (h : Sent n cuts) (k b : Nat) :
    (share b (deltas (cuts.take k)) : Int) = lastCut (cuts.take k) b := by
  induction k generalizing b with
  | zero => rfl
  | succ k ih =>
    rw [take_add_one]
    cases hk : cuts[k]? with
    | none =>
      rw [Option.toList_none, append_nil]
      exact ih b
    | some cut =>
      have hf := h k cut hk
      have hshare := share_cutDelta (hf.sorted.imp Nat.ne_of_lt)
        (v := fun b => (share b (deltas (cuts.take k)) : Int))
          (fun e he => Int.le_trans (Int.le_of_eq (ih e.1)) (hf.monotone e he)) b
      rw [Option.toList_some, deltas_concat, lastCut_concat, Shares.share_append, ← ih, ← hshare, Int.natCast_add]

theorem keys (h : Sent n cuts) (k : Nat) : ∀ e ∈ deltas (cuts.take k), e.1 < n := by
  induction k with
  | zero => exact nofun
  | succ k ih =>
    rw [take_add_one]
    cases hk : cuts[k]? with
    | none =>
      rw [Option.toList_none, append_nil]
      exact ih
    | some cut =>
      rw [Option.toList_some, deltas_concat]
      intro e he
      cases mem_append.mp he with
      | inl hold => exact ih e hold
      | inr hnew =>
        obtain ⟨e', he', heq⟩ := mem_filterMap.mp hnew
        obtain ⟨-, rfl⟩ := Runs.of_guard heq
        exact (h k cut hk).brokers e' he'

end Sent

structure LocalSequencer.Applied (s : LocalSequencer) (cuts : List GlobalCut) (k : Nat) : Prop where
  inStep : s.InStep (deltas (cuts.take k))
  applied : ∀ b, (s.lastAppliedGlobalCut b).getD 0 = share b (deltas (cuts.take k))

theorem LocalSequencer.Applied.receive {s : LocalSequencer} {n k : Nat} {cuts : List GlobalCut} {cut : GlobalCut}
    (h : s.Applied cuts k) (hsent : Sent n cuts) (hk : cuts[k]? = some cut)
    (hclear : ∀ e ∈ cutDelta (fun b => (s.lastAppliedGlobalCut b).getD 0) cut,
      e.1 = s.brokerId → s.Clear e.2 s.msgToOrder s.msgByteOff) :
    (s.receiveGlobalCut cut).Applied cuts (k + 1) ∧ (s.receiveGlobalCut cut).brokerId = s.brokerId := by
  have hf := hsent k cut hk
  have hnodup : (cut.map (·.1)).Nodup := hf.sorted.imp Nat.ne_of_lt
  have hshares : (fun b => (s.lastAppliedGlobalCut b).getD 0) =
      fun b => (share b (deltas (cuts.take k)) : Int) := funext h.applied
  have hle : ∀ e ∈ cut, (s.lastAppliedGlobalCut e.1).getD 0 ≤ e.2 := by
    intro e he
    rw [h.applied, hsent.share_deltas]
    exact hf.monotone e he
  obtain ⟨hdelta, hvalue⟩ := foldl_collect hnodup s.lastAppliedGlobalCut [] hle
  have hnext : deltas (cuts.take (k + 1)) =
      deltas (cuts.take k) ++ cutDelta (fun b => (s.lastAppliedGlobalCut b).getD 0) cut := by
    rw [take_add_one, hk, Option.toList_some, deltas_concat, hshares]
  have hkeys := nodup_cutDelta hnodup fun b => (s.lastAppliedGlobalCut b).getD 0
  have hshare := share_cutDelta hnodup (v := fun b => (s.lastAppliedGlobalCut b).getD 0) hle
  rw [nil_append] at hdelta
  rw [receiveGlobalCut]
  dsimp only
  generalize cut.foldl collect (s.lastAppliedGlobalCut, []) = r at *
  rw [hdelta]
  generalize cutDelta (fun b => (s.lastAppliedGlobalCut b).getD 0) cut = delta at *
  have happlied : ∀ b, (r.1 b).getD 0 = share b (deltas (cuts.take (k + 1))) := by
    intro b
    rw [hvalue, ← hshare, hnext, Shares.share_append, Int.natCast_add, h.applied]
  have hstart : InStep { s with lastAppliedGlobalCut := r.1 } (deltas (cuts.take k)) :=
    ⟨h.inStep.seq, h.inStep.totalOrder, h.inStep.next, h.inStep.ordered⟩
  split
  next hnil =>
    rw [hnil, append_nil] at hnext
    exact ⟨⟨hnext ▸ hstart, happlied⟩, rfl⟩
  · obtain ⟨hstep, hconfig⟩ := hstart.scalogSequencer hkeys fun e he heq => by
      refine .congr (s := s) ?_ ?_ ?_ (hclear e he heq) <;> rfl
    rw [← hnext] at hstep
    generalize scalogSequencer { s with lastAppliedGlobalCut := r.1 } delta = s₂ at *
    have hid : s₂.brokerId = s.brokerId := congrArg (·.1) hconfig
    have hlast : s₂.lastAppliedGlobalCut = r.1 := congrArg (·.2.2.2.2.2) hconfig
    split
    next hsame =>
      refine ⟨⟨⟨hstep.seq, hstep.totalOrder, hstep.next, hstep.ordered⟩, fun b => ?_⟩, hid⟩
      dsimp only
      rw [update_apply]
      split
      next hb => rw [Option.getD_some, hb, ← hsame.1, hstep.ordered]
      · rw [hlast]
        exact happlied b
    · exact ⟨⟨hstep, fun b => hlast ▸ happlied b⟩, hid⟩

namespace World

structure Ok (n : Nat) (w : World) : Prop where
  sent : Sent n w.cuts
  brokerId : ∀ b < n, (w.brokers b).brokerId = b
  received : ∀ b < n, w.received b ≤ w.cuts.length
  applied : ∀ b < n, (w.brokers b).Applied w.cuts (w.received b)

variable {n : Nat} {w w' : World} {e : Event}

theorem ok_fresh (n batchSize : Nat) (logOffset : Nat → Nat) (log : Nat → Nat → MessageHeader) :
    (fresh batchSize logOffset log).Ok n where
  sent := nofun
  brokerId _ _ := rfl
  received _ _ := Nat.zero_le _
  applied _ _ := ⟨⟨rfl, fun _ => rfl, rfl, rfl⟩, fun _ => rfl⟩

theorem Ok.step (h : w.Ok n) (hstampable : w.Stampable e) (hstep : w.step n e = some w') : w'.Ok n := by
  cases e with
  | send cut =>
    obtain ⟨hfollows, rfl⟩ := Runs.of_guard hstep
    refine ⟨h.sent.concat hfollows, h.brokerId, fun b hb => ?_, fun b hb => ?_⟩
    · rw [length_append]
      exact Nat.le_add_right_of_le (h.received b hb)
    · have htake : (w.cuts ++ [cut]).take (w.received b) = w.cuts.take (w.received b) :=
        take_append_of_le_length (h.received b hb)
      have hb := h.applied b hb
      exact ⟨htake ▸ hb.inStep, htake ▸ hb.applied⟩
  | receive b =>
    rw [World.step] at hstep
    split at hstep
    next hb =>
      obtain ⟨cut, hcut, rfl⟩ := Option.map_eq_some_iff.mp hstep
      have hid := h.brokerId b hb
      obtain ⟨happlied, hkeep⟩ := (h.applied b hb).receive h.sent hcut fun e he heq =>
        hstampable cut hcut e he (heq.trans hid)
      refine ⟨h.sent, fun c hc => ?_, fun c hc => ?_, fun c hc => ?_⟩ <;>
        simp only [update_apply] <;> split
      next heq => rw [hkeep, hid, heq]
      · exact h.brokerId c hc
      · exact (List.getElem?_eq_some_iff.mp hcut).1
      · exact h.received c hc
      · exact happlied
      · exact h.applied c hc
    · cases hstep
  | validate b boundary =>
    cases hstep
    refine ⟨h.sent, fun c hc => ?_, h.received, fun c hc => ?_⟩ <;>
      simp only [update_apply] <;> split
    next heq =>
      subst heq
      exact h.brokerId c hc
    · exact h.brokerId c hc
    next heq =>
      subst heq
      have hb := h.applied c hc
      exact ⟨⟨hb.inStep.seq, hb.inStep.totalOrder, hb.inStep.next, hb.inStep.ordered⟩, hb.applied⟩
    · exact h.applied c hc

theorem Ok.position (h : w.Ok n) {b : Nat} (hb : b < n) {j p : Nat} (hp : (w.brokers b).totalOrder j = some p) :
    (positions b 0 (deltas w.cuts))[j]? = some p := by
  rw [(h.applied b hb).inStep.totalOrder, h.brokerId b hb] at hp
  obtain ⟨rest, hrest⟩ := deltas_take_prefix w.cuts (w.received b)
  rw [← hrest, Shares.positions_append, List.getElem?_append_left (List.getElem?_eq_some_iff.mp hp).1]
  exact hp

theorem Ok.total (h : w.Ok n) : (total (deltas w.cuts) : Int) = ((List.range n).map (lastCut w.cuts)).sum := by
  have hkeys := h.sent.keys w.cuts.length
  have hshare := h.sent.share_deltas w.cuts.length
  rw [take_length] at hkeys hshare
  rw [← Shares.sum_share (nodup_range (n := n)) fun e he => mem_range.mpr (hkeys e he)]
  rw [Nat.cast_list_sum, map_map]
  exact congrArg List.sum (map_congr_left fun b _ => hshare b)

theorem Ok.tiles (h : w.Ok n) (hall : ∀ b < n, w.received b = w.cuts.length) (p : Nat) :
    p < Shares.total (deltas w.cuts) ↔ ∃ b < n, ∃ j, (w.brokers b).totalOrder j = some p := by
  constructor
  · intro hp
    obtain ⟨b, hb, hmem⟩ := Shares.exists_position (Nat.zero_le p) (Nat.lt_of_lt_of_eq hp (Nat.zero_add _).symm)
    obtain ⟨e, he, rfl⟩ := mem_map.mp hb
    have hkeys := h.sent.keys w.cuts.length
    rw [take_length] at hkeys
    have hlt := hkeys e he
    obtain ⟨j, hj⟩ := List.getElem?_of_mem hmem
    refine ⟨e.1, hlt, j, ?_⟩
    rw [(h.applied _ hlt).inStep.totalOrder, h.brokerId _ hlt, hall _ hlt, take_length]
    exact hj
  · rintro ⟨b, hb, j, hj⟩
    have hbound := Shares.bounds_of_mem (mem_of_getElem? (h.position hb hj))
    rw [Nat.zero_add] at hbound
    exact hbound.2

theorem Ok.agrees (h : w.Ok n) : w.Agrees n where
  distinct hb hb' hp hp' := Shares.position_unique (h.position hb hp) (h.position hb' hp')
  position _ hb _ _ hp := h.position hb hp
  tiles hall p := by
    rw [← h.total, Int.ofNat_lt]
    exact h.tiles hall p

end World

/-- Along every run in which a broker may stamp its messages when the cut that orders them arrives, all brokers agree on
one total order. -/
theorem scalog_brokers_agree {n batchSize : Nat} {logOffset : Nat → Nat} {log : Nat → Nat → MessageHeader}
    {es : List Event} {w : World}
    (h : Runs.Along (World.step n) World.Stampable (.fresh batchSize logOffset log) es w) : w.Agrees n :=
  (h.invariant (fun _ _ _ hs hstep hok => World.Ok.step hok hs hstep)
    (World.ok_fresh n batchSize logOffset log)).agrees

def mixedSizes (b j : Nat) : MessageHeader :=
  let size := if b = 0 ∧ 0 < j then 640 else 64
  ⟨size, size, j⟩

def completeRun : List Event :=
  [.validate 0 2048, .validate 1 2048, .send [(0, 1), (1, 1)], .receive 0, .receive 1, .validate 1 4096,
    .send [(0, 1), (1, 4)], .receive 1, .receive 0]

theorem scalog_brokers_agree_completeRun : ∃ w,
    Runs.Along (World.step 2) World.Stampable (.fresh 4096 (fun _ => 1024) mixedSizes) completeRun w ∧
      w.Agrees 2 ∧ (w.brokers 1).totalOrder 3 = some 4 := by
  refine Runs.exists_of_exec (fun w => (w.brokers 1).totalOrder 3) (some 4) (by decide +kernel) fun w hw hlast => ?_
  exact ⟨scalog_brokers_agree hw, hlast⟩

def shortStopRun : List Event :=
  [.validate 0 1728, .validate 1 1088, .send [(0, 2), (1, 1)], .receive 0, .receive 1, .validate 0 2368,
    .send [(0, 3), (1, 1)], .receive 0]

theorem scalog_brokers_disagree : ∃ w,
    Runs.Along (World.step 2) (fun _ _ => True) (.fresh 4096 (fun _ => 1024) mixedSizes) shortStopRun w ∧
      ¬ w.Agrees 2 := by
  refine Runs.exists_of_exec (fun w => ((w.brokers 0).totalOrder 1, (w.brokers 1).totalOrder 0))
    (some 2, some 2) (by decide +kernel) fun w hw htwice => ?_
  obtain ⟨h0, h1⟩ := Prod.mk.inj htwice
  exact fun hagrees => absurd (hagrees.distinct (by decide) (by decide) h0 h1).1 (by decide)

end Embarcadero.Scalog
