import Embarcadero.BatchLimits
import Embarcadero.CommittedPrefix

namespace Embarcadero

open List
open Function (update)
open Cursor (Decision)

def exportDecision (cxlSize b : Nat) (goi : Nat → GOIEntry) (cursor : Nat) : Decision :=
  let entry := goi cursor
  if entry.globalSeq ≠ cursor then .stop
  else if entry.brokerId ≠ b then .skip
  else if entry.messageCount = 0 ∨ entry.payloadSize = 0 then .skip
  else if cxlSize ≤ entry.blogOffset ∨ cxlSize - entry.blogOffset < entry.payloadSize then .skip
  else .take

structure ExportConnection where
  expectedBatchOffset : Nat := 0
  limit : Option Nat := none
  delivered : List (Nat × GOIEntry) := []

def ExportConnection.readCommitted (m : CxlMemory) (c : ExportConnection) : ExportConnection :=
  { c with limit := m.committedSeq.map (· + 1) }

def ExportConnection.getBatchToExport (cxlSize b : Nat) (goi : Nat → GOIEntry) (limit : Nat)
    (c : ExportConnection) : ExportConnection :=
  let r := Cursor.scan (exportDecision cxlSize b goi) limit (limit - c.expectedBatchOffset) 1 c.expectedBatchOffset
  { expectedBatchOffset := r.1
    limit := none
    delivered := c.delivered ++ r.2.map fun j => (j, goi j) }

structure ExportWorld where
  topic : Topic
  conn : Nat → Nat → ExportConnection := fun _ _ => {}

inductive ExportEvent
  | topic (e : Event)
  /-- Connection `i` of broker `b` calls `GetBatchToExportWithMetadata` and reads `committed_seq`. -/
  | poll (b i : Nat)
  | scan (b i : Nat)

namespace ExportWorld

def fresh (P : Platform) : ExportWorld := { topic := .fresh P }

def setConn (w : ExportWorld) (b i : Nat) (c : ExportConnection) : ExportWorld :=
  { w with conn := update w.conn b (update (w.conn b) i c) }

def step (P : Platform) (cxlSize : Nat) (w : ExportWorld) : ExportEvent → Option ExportWorld
  | .topic e => (Embarcadero.step P w.topic e).map fun t => { w with topic := t }
  | .poll b i =>
    if (w.conn b i).limit.isNone then
      some (w.setConn b i ((w.conn b i).readCommitted w.topic.cxl))
    else none
  | .scan b i =>
    (w.conn b i).limit.map fun limit =>
      w.setConn b i ((w.conn b i).getBatchToExport cxlSize b w.topic.cxl.goi limit)

end ExportWorld

structure PendingBatch5.Stored (cxlSize : Nat) (p : PendingBatch5) : Prop where
  count : 0 < p.numMsg
  size : 0 < p.cachedTotalSize
  width : p.cachedTotalSize < 2 ^ 32
  bound : p.cachedLogIdx + p.cachedTotalSize ≤ cxlSize

instance (cxlSize : Nat) (p : PendingBatch5) : Decidable (p.Stored cxlSize) :=
  decidable_of_iff (0 < p.numMsg ∧ 0 < p.cachedTotalSize ∧ p.cachedTotalSize < 2 ^ 32 ∧
      p.cachedLogIdx + p.cachedTotalSize ≤ cxlSize)
    ⟨fun h => ⟨h.1, h.2.1, h.2.2.1, h.2.2.2⟩, fun h => ⟨h.count, h.size, h.width, h.bound⟩⟩

def Event.Stored (cxlSize : Nat) (e : Event) : Prop :=
  ∀ p ∈ e.batchList, p.skipped = false → p.Stored cxlSize

def ExportEvent.Stored (cxlSize : Nat) : ExportEvent → Prop
  | .topic e => e.Stored cxlSize
  | .poll .. | .scan .. => True

instance (cxlSize : Nat) : (e : ExportEvent) → Decidable (e.Stored cxlSize)
  | .topic e => inferInstanceAs (Decidable (∀ p ∈ e.batchList, _))
  | .poll .. | .scan .. => isTrue trivial

def ownedEntries (goi : Nat → GOIEntry) (b n : Nat) : List (Nat × GOIEntry) :=
  ((List.range n).filter fun j => (goi j).brokerId = b).map fun j => (j, goi j)

variable {P : Platform} {cxlSize b i : Nat} {t t' : Topic} {w w' : ExportWorld}

theorem ownedEntries_congr {goi goi' : Nat → GOIEntry} {n : Nat} (h : ∀ j < n, goi' j = goi j) :
    ownedEntries goi' b n = ownedEntries goi b n := by
  have hfilter : ((List.range n).filter fun j => (goi' j).brokerId = b) =
      (List.range n).filter fun j => (goi j).brokerId = b :=
    filter_congr fun j hj => by rw [h j (mem_range.mp hj)]
  rw [ownedEntries, hfilter]
  refine map_congr_left fun j hj => ?_
  rw [h j (mem_range.mp (mem_of_mem_filter hj))]

theorem fst_ownedEntries (goi : Nat → GOIEntry) (b n : Nat) :
    (ownedEntries goi b n).map Prod.fst = (List.range n).filter fun j => (goi j).brokerId = b := by
  rw [ownedEntries, map_map]
  exact map_id _

structure Topic.Exportable (cxlSize : Nat) (t : Topic) : Prop where
  index : ∀ j < t.cxl.committedLimit, (t.cxl.goi j).globalSeq = j
  payload : ∀ j < t.cxl.committedLimit, 0 < (t.cxl.goi j).messageCount ∧
    0 < (t.cxl.goi j).payloadSize ∧ (t.cxl.goi j).blogOffset + (t.cxl.goi j).payloadSize ≤ cxlSize

theorem Topic.Filled.exportable {es : List Event} (h : t.Filled es)
    (hes : ∀ e ∈ es, e.Stored cxlSize) : t.Exportable cxlSize where
  index j hj := h.indexed.globalSeq_eq (Nat.lt_of_lt_of_le hj h.indexed.limit_le)
  payload j hj := by
    obtain ⟨p, hp, hlive, hloc⟩ := h.source j (Nat.lt_of_lt_of_le hj h.indexed.limit_le)
    obtain ⟨e, he, hpe⟩ := mem_flatMap.mp hp
    have hstored := hes e he p hpe hlive
    rw [hloc.count, hloc.size, hloc.offset, Nat.mod_eq_of_lt hstored.width]
    exact ⟨hstored.count, hstored.size, hstored.bound⟩

theorem Topic.Exportable.decision (h : t.Exportable cxlSize) {j : Nat} (hj : j < t.cxl.committedLimit) :
    exportDecision cxlSize b t.cxl.goi j = if (t.cxl.goi j).brokerId = b then .take else .skip := by
  obtain ⟨hcount, hsize, hbound⟩ := h.payload j hj
  rw [exportDecision, if_neg (not_not.mpr (h.index j hj))]
  by_cases howner : (t.cxl.goi j).brokerId = b
  · rw [if_neg (not_not.mpr howner), if_neg (by omega), if_neg (by omega), if_pos howner]
  · rw [if_pos howner, if_neg howner]

structure ExportConnection.Exact (b : Nat) (m : CxlMemory) (c : ExportConnection) : Prop where
  bounded : c.expectedBatchOffset ≤ m.committedLimit
  limit : ∀ l ∈ c.limit, l ≤ m.committedLimit
  delivered : c.delivered = ownedEntries m.goi b c.expectedBatchOffset

namespace ExportConnection.Exact

variable {c : ExportConnection} {limit : Nat}

theorem extended (h : c.Exact b t.cxl) (hext : t.Extends t') : c.Exact b t'.cxl where
  bounded := h.bounded.trans hext.limit
  limit l hl := (h.limit l hl).trans hext.limit
  delivered := by
    rw [h.delivered, ownedEntries_congr]
    exact fun j hj => (hext.goi j (Nat.lt_of_lt_of_le hj h.bounded)).symm

theorem readCommitted (h : c.Exact b t.cxl) : (c.readCommitted t.cxl).Exact b t.cxl := by
  refine ⟨h.bounded, fun l hl => ?_, h.delivered⟩
  obtain ⟨s, hs, rfl⟩ := Option.map_eq_some_iff.mp hl
  rw [CxlMemory.committedLimit, hs]
  exact Nat.le_refl _

theorem getBatchToExport (h : c.Exact b t.cxl) (ht : t.Exportable cxlSize) (hlimit : limit ≤ t.cxl.committedLimit) :
    (c.getBatchToExport cxlSize b t.cxl.goi limit).Exact b t.cxl ∧
      (c.expectedBatchOffset < (c.getBatchToExport cxlSize b t.cxl.goi limit).expectedBatchOffset ∨
        limit ≤ c.expectedBatchOffset) := by
  have hdec {j : Nat} (hj : j < limit) := ht.decision (b := b) (Nat.lt_of_lt_of_le hj hlimit)
  have hskip : ∀ j < limit, exportDecision cxlSize b t.cxl.goi j = .skip →
      decide ((t.cxl.goi j).brokerId = b) = false := by
    intro j hj hskip
    rw [hdec hj] at hskip
    split at hskip
    · cases hskip
    · exact decide_eq_false ‹_›
  have htake : ∀ j < limit, exportDecision cxlSize b t.cxl.goi j = .take →
      decide ((t.cxl.goi j).brokerId = b) = true := by
    intro j hj htake
    rw [hdec hj] at htake
    split at htake
    · exact decide_eq_true ‹_›
    · cases htake
  have hwalk := Cursor.walked_scan hskip htake (limit - c.expectedBatchOffset) 1 c.expectedBatchOffset (by omega)
  rw [ExportConnection.getBatchToExport]
  generalize Cursor.scan _ _ _ _ _ = r at hwalk
  have hbounded : r.1 ≤ t.cxl.committedLimit := hwalk.bounded.trans (max_le hlimit h.bounded)
  refine ⟨⟨hbounded, nofun, ?_⟩, ?_⟩
  · dsimp only
    rw [h.delivered, ownedEntries, ownedEntries, hwalk.taken, map_append]
  · cases Nat.lt_or_ge c.expectedBatchOffset limit with
    | inr hdone => exact .inr hdone
    | inl hless =>
      left
      refine hwalk.ends.elim (Nat.lt_of_lt_of_le hless) fun hends => ?_
      by_contra hstay
      have heq : r.1 = c.expectedBatchOffset := Nat.le_antisymm (Nat.not_lt.mp hstay) hwalk.forward
      have hnone : r.2 = [] := by
        have htaken := hwalk.taken
        rw [heq] at htaken
        exact self_eq_append_right.mp htaken
      rw [heq, hdec hless, hnone] at hends
      split at hends
      · exact hends.elim nofun nofun
      · exact hends.elim nofun nofun

end ExportConnection.Exact

structure ExportWorld.Ok (cxlSize : Nat) (w : ExportWorld) : Prop where
  topic : ∃ es, w.topic.Filled es ∧ ∀ e ∈ es, e.Stored cxlSize
  conn : ∀ b i, (w.conn b i).Exact b w.topic.cxl

namespace ExportWorld

theorem Ok.exportable (h : w.Ok cxlSize) : w.topic.Exportable cxlSize := by
  obtain ⟨es, hfilled, hes⟩ := h.topic
  exact hfilled.exportable hes

theorem Ok.setConn (h : w.Ok cxlSize) {c : ExportConnection} (hc : c.Exact b w.topic.cxl) (i : Nat) :
    (w.setConn b i c).Ok cxlSize := by
  refine ⟨h.topic, fun b' i' => ?_⟩
  change (update w.conn b (update (w.conn b) i c) b' i').Exact b' w.topic.cxl
  by_cases hb : b' = b
  · subst hb
    rw [Function.update_self, Function.update_apply]
    split
    · exact hc
    · exact h.conn b' i'
  · rw [Function.update_of_ne hb]
    exact h.conn b' i'

theorem Ok.step {e : ExportEvent} (h : w.Ok cxlSize) (he : e.Stored cxlSize)
    (hstep : w.step P cxlSize e = some w') : w'.Ok cxlSize := by
  cases e with
  | topic e =>
    obtain ⟨t, ht, rfl⟩ := Option.map_eq_some_iff.mp hstep
    obtain ⟨es, hfilled, hes⟩ := h.topic
    refine ⟨⟨es ++ [e], hfilled.step ht, fun e' he' => ?_⟩, fun b i => ?_⟩
    · cases mem_append.mp he' with
      | inl hold => exact hes e' hold
      | inr hnew => exact mem_singleton.mp hnew ▸ he
    · exact (h.conn b i).extended (hfilled.indexed.step ht).2
  | poll b i =>
    obtain ⟨-, rfl⟩ := Runs.of_guard hstep
    exact h.setConn (h.conn b i).readCommitted i
  | scan b i =>
    obtain ⟨limit, hlimit, rfl⟩ := Option.map_eq_some_iff.mp hstep
    have hc := h.conn b i
    exact h.setConn (hc.getBatchToExport h.exportable (hc.limit limit hlimit)).1 i

theorem ok_fresh (P : Platform) (cxlSize : Nat) : (fresh P).Ok cxlSize where
  topic := ⟨[], Topic.filled_fresh P, nofun⟩
  conn _ _ := ⟨Nat.zero_le _, nofun, rfl⟩

@[simp] theorem conn_setConn (w : ExportWorld) (b i : Nat) (c : ExportConnection) :
    (w.setConn b i c).conn b i = c := by simp [setConn]

def polls (b i n : Nat) : List ExportEvent := (List.replicate n [.poll b i, .scan b i]).flatten

theorem Ok.call (h : w.Ok cxlSize) (hidle : (w.conn b i).limit = none)
    (hleft : (w.conn b i).expectedBatchOffset < w.topic.cxl.committedLimit) :
    ∃ w', Runs.Along (ExportWorld.step P cxlSize) (fun _ e => e.Stored cxlSize) w [.poll b i, .scan b i] w' ∧
      w'.topic = w.topic ∧ (w'.conn b i).limit = none ∧
      (w.conn b i).expectedBatchOffset < (w'.conn b i).expectedBatchOffset := by
  obtain ⟨s, hs⟩ : ∃ s, w.topic.cxl.committedSeq = some s := by
    cases hseq : w.topic.cxl.committedSeq with
    | some s => exact ⟨s, rfl⟩
    | none =>
      rw [CxlMemory.committedLimit, hseq] at hleft
      cases hleft
  have hlimit : ((w.conn b i).readCommitted w.topic.cxl).limit = some w.topic.cxl.committedLimit := by
    rw [ExportConnection.readCommitted, CxlMemory.committedLimit, hs]
    rfl
  have hpoll : ExportWorld.step P cxlSize w (.poll b i) =
      some (w.setConn b i ((w.conn b i).readCommitted w.topic.cxl)) := by
    rw [ExportWorld.step, hidle]
    exact if_pos rfl
  let w₁ := w.setConn b i ((w.conn b i).readCommitted w.topic.cxl)
  have hscan : ExportWorld.step P cxlSize w₁ (.scan b i) = some (w₁.setConn b i
      ((w.conn b i).getBatchToExport cxlSize b w.topic.cxl.goi w.topic.cxl.committedLimit)) := by
    rw [ExportWorld.step, conn_setConn, hlimit]
    rfl
  refine ⟨_, .cons trivial hpoll (.cons trivial hscan (.nil _)), rfl, ?_, ?_⟩
  · rw [conn_setConn]
    rfl
  · rw [conn_setConn]
    exact ((h.conn b i).getBatchToExport h.exportable (Nat.le_refl _)).2.resolve_right (Nat.not_le.mpr hleft)

theorem Ok.catchUp (h : w.Ok cxlSize) (hidle : (w.conn b i).limit = none) :
    ∃ n w', Runs.Along (ExportWorld.step P cxlSize) (fun _ e => e.Stored cxlSize) w (polls b i n) w' ∧
      w'.topic = w.topic ∧ (w'.conn b i).expectedBatchOffset = w.topic.cxl.committedLimit := by
  induction hm : w.topic.cxl.committedLimit - (w.conn b i).expectedBatchOffset using
    Nat.strong_induction_on generalizing w with
  | _ m ih =>
    cases Nat.lt_or_ge (w.conn b i).expectedBatchOffset w.topic.cxl.committedLimit with
    | inr hdone =>
      exact ⟨0, w, .nil w, rfl, Nat.le_antisymm (h.conn b i).bounded hdone⟩
    | inl hleft =>
      obtain ⟨w₁, hcall, htopic, hidle₁, hmore⟩ := h.call (P := P) hidle hleft
      have h₁ : w₁.Ok cxlSize := hcall.invariant (fun _ _ _ he hs h => h.step he hs) h
      obtain ⟨n, w', hrun, htopic', hcursor⟩ := ih _ (by rw [htopic]; omega) h₁ hidle₁ rfl
      exact ⟨n + 1, w', hcall.append hrun, htopic'.trans htopic, hcursor.trans (by rw [htopic])⟩

structure Complete (P : Platform) (cxlSize : Nat) (w : ExportWorld) : Prop where
  /-- A connection has sent the entries of its broker up to its cursor, in the order of the log. -/
  exact : ∀ b i, (w.conn b i).delivered = ownedEntries w.topic.cxl.goi b (w.conn b i).expectedBatchOffset
  committed : ∀ b i, (w.conn b i).expectedBatchOffset ≤ w.topic.cxl.committedLimit
  catchUp : ∀ b i, (w.conn b i).limit = none → ∃ n w',
    Runs.Along (ExportWorld.step P cxlSize) (fun _ e => e.Stored cxlSize) w (polls b i n) w' ∧
      w'.topic = w.topic ∧
      (w'.conn b i).delivered = ownedEntries w.topic.cxl.goi b w.topic.cxl.committedLimit
  /-- One caught-up connection at each broker, and every committed entry has been sent once. -/
  together : ∀ conn : Nat → Nat, (∀ b, (w.conn b (conn b)).expectedBatchOffset = w.topic.cxl.committedLimit) →
    ∀ j < w.topic.cxl.committedLimit, ∀ b,
      ((w.conn b (conn b)).delivered.map Prod.fst).count j =
        if (w.topic.cxl.goi j).brokerId = b then 1 else 0

theorem count_ownedEntries {goi : Nat → GOIEntry} {n j : Nat} (hj : j < n) :
    ((ownedEntries goi b n).map Prod.fst).count j = if (goi j).brokerId = b then 1 else 0 := by
  rw [fst_ownedEntries]
  split
  · apply count_eq_one_of_mem (nodup_range.filter _)
    exact mem_filter.mpr ⟨mem_range.mpr hj, decide_eq_true ‹_›⟩
  · apply count_eq_zero_of_not_mem
    exact fun hmem => ‹¬_› (of_decide_eq_true (mem_filter.mp hmem).2)

theorem Ok.complete (h : w.Ok cxlSize) : w.Complete P cxlSize where
  exact b i := (h.conn b i).delivered
  committed b i := (h.conn b i).bounded
  catchUp b i hidle := by
    obtain ⟨n, w', hrun, htopic, hcursor⟩ := h.catchUp (P := P) hidle
    have h' : w'.Ok cxlSize := hrun.invariant (fun _ _ _ he hs h => h.step he hs) h
    refine ⟨n, w', hrun, htopic, ?_⟩
    rw [(h'.conn b i).delivered, hcursor, htopic]
  together conn hall j hj b := by
    rw [(h.conn b (conn b)).delivered, hall b]
    exact count_ownedEntries hj

end ExportWorld

theorem goi_export_complete {es : List ExportEvent}
    (hrun : Runs.Along (ExportWorld.step P cxlSize) (fun _ e => e.Stored cxlSize) (.fresh P) es w) :
    w.Complete P cxlSize :=
  (hrun.invariant (I := ExportWorld.Ok cxlSize) (fun _ _ _ he hs h => h.step he hs)
    (ExportWorld.ok_fresh P cxlSize)).complete

def exportRun : List ExportEvent :=
  [publishSlot 0 0 0, publishSlot 1 0 1, .epoch [scanSlot 0 0 0, scanSlot 1 0 1] (scenarioClock 1), .commit,
    .tail, .updateCommittedSeq 1].map .topic ++
  [.poll 0 0, .poll 1 1, .scan 0 0] ++
  [publishSlot 0 1 2, .epoch [scanSlot 0 1 2] (scenarioClock 2), .crash 0].map .topic ++
  [.scan 1 1, .poll 0 0, .scan 0 0] ++
  [publishSlot 0 1 2, .epoch [scanSlot 0 1 2] (scenarioClock 3), .commit, .tail, .updateCommittedSeq 1].map .topic ++
  [.poll 0 0, .scan 0 0]

theorem goi_export_complete_exportRun :
    ∃ w, Runs.Along (ExportWorld.step .small 64) (fun _ e => e.Stored 64) (.fresh .small) exportRun w ∧
      ((w.conn 0 0).delivered.map Prod.fst, (w.conn 1 1).delivered.map Prod.fst) = ([0, 2], [1]) ∧
      w.Complete .small 64 := by
  refine Runs.exists_of_exec (fun w : ExportWorld =>
    ((w.conn 0 0).delivered.map Prod.fst, (w.conn 1 1).delivered.map Prod.fst))
    ([0, 2], [1]) (by decide +kernel) fun w hrun hsent => ?_
  exact ⟨hsent, goi_export_complete hrun⟩

end Embarcadero
