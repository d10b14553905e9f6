import Embarcadero.Publisher
import Embarcadero.SessionSafety

namespace Embarcadero

structure DurableSessionSnapshot where
  active : Bool := false
  fenced : Bool := false
  sessionEpoch : Nat := 0
  expectedSeq : Nat := 0
  committedHwm : Nat := 0
  highestSequenced : Nat := 0
  goiCommittedHwm : Option Nat := none
  reconnectCommittedHwm : Nat := 0
  deriving DecidableEq

def readSessionEntrySnapshot (table : SessionTable) (k : SessionKey) : DurableSessionSnapshot :=
  if k.sessionEpoch = 0 then {}
  else
    match table.entry k with
    | none => {}
    | some e =>
      { active := e.active
        fenced := e.fenced
        sessionEpoch := e.epoch
        expectedSeq := e.expectedSeq
        committedHwm := e.committedHwm
        highestSequenced := e.highestSequenced
        reconnectCommittedHwm := e.committedHwm }

/-- `ReadSessionSnapshot`; `goi_committed_hwm` and its `found` flag are one option. -/
def readSessionSnapshot (table : SessionTable) (c : CxlMemory) (k : SessionKey) : DurableSessionSnapshot :=
  let s := readSessionEntrySnapshot table k
  let goiHwm := if k.sessionEpoch = 0 then none else Topic.scanGOICommittedHwm c k
  { s with
    goiCommittedHwm := goiHwm
    reconnectCommittedHwm := reconnectAnswerHwm s.committedHwm goiHwm }

/-- What is sent to the client: the prefix is empty if `expected_seq` is 0. -/
def DurableSessionSnapshot.answer (s : DurableSessionSnapshot) : Option Nat :=
  if 0 < s.expectedSeq then some s.reconnectCommittedHwm else none

variable {c : CxlMemory} {k : SessionKey} {table : SessionTable}

structure CxlMemory.Commits (c : CxlMemory) (k : SessionKey) (i : Nat) : Prop where
  committed : i < c.committedLimit
  written : (c.goi i).globalSeq = i
  session : (c.goi i).key = k

def CxlMemory.committedSet (c : CxlMemory) (k : SessionKey) : Set Nat :=
  { q | ∃ i, c.Commits k i ∧ (c.goi i).clientSeq = q }

def CxlMemory.SessionOrdered (c : CxlMemory) (k : SessionKey) : Prop :=
  ∀ i j, i < j → c.Commits k i → c.Commits k j → (c.goi i).clientSeq < (c.goi j).clientSeq

structure DurableSessionSnapshot.Level (s : DurableSessionSnapshot) (c : CxlMemory) (k : SessionKey) : Prop where
  covers : ∀ i, c.Commits k i → (c.goi i).clientSeq ≤ s.committedHwm ∧ 0 < s.expectedSeq
  empty : (∀ i, ¬ c.Commits k i) → s.expectedSeq = 0

theorem scanGOICommittedHwm_eq_none (h : Topic.scanGOICommittedHwm c k = none) (i : Nat) : ¬ c.Commits k i := by
  rw [Topic.scanGOICommittedHwm, Option.map_eq_none_iff, List.find?_eq_none] at h
  rintro ⟨hlt, hwritten, hsession⟩
  exact h i (List.mem_reverse.mpr (List.mem_range.mpr hlt)) (by simp [hwritten, hsession])

theorem scanGOICommittedHwm_eq_some {q : Nat} (h : Topic.scanGOICommittedHwm c k = some q) :
    ∃ i, c.Commits k i ∧ (c.goi i).clientSeq = q ∧ ∀ j, c.Commits k j → j ≤ i := by
  obtain ⟨i, hfind, hq⟩ := Option.map_eq_some_iff.mp h
  obtain ⟨hi, before, after, hsplit, hbefore⟩ := List.find?_eq_some_iff_append.mp hfind
  have hmem : ∀ j, c.Commits k j → j ∈ before ++ i :: after := fun j hj =>
    hsplit ▸ List.mem_reverse.mpr (List.mem_range.mpr hj.committed)
  have hsorted : (before ++ i :: after).Pairwise (· > ·) :=
    hsplit ▸ List.pairwise_reverse.mpr List.pairwise_lt_range
  have hlt : i < c.committedLimit := List.mem_range.mp (List.mem_reverse.mp (List.mem_of_find?_eq_some hfind))
  simp only [Bool.and_eq_true, decide_eq_true_eq] at hi
  refine ⟨i, ⟨hlt, hi.1, hi.2⟩, hq, fun j hj => ?_⟩
  cases List.mem_append.mp (hmem j hj) with
  | inl hj' => exact absurd (hbefore j hj') (by simp [hj.written, hj.session])
  | inr hj' =>
    cases hj' with
    | head => exact Nat.le_refl _
    | tail _ hj' =>
      exact Nat.le_of_lt ((List.pairwise_cons.mp (List.pairwise_append.mp hsorted).2.1).1 j hj')

theorem readSessionEntrySnapshot_eq (table : SessionTable) (hk : k.sessionEpoch ≠ 0) :
    (readSessionEntrySnapshot table k).expectedSeq = (table.get k).expectedSeq ∧
      (readSessionEntrySnapshot table k).committedHwm = (table.get k).committedHwm := by
  rw [readSessionEntrySnapshot, if_neg hk, SessionTable.get]
  cases table.entry k with
  | none => exact ⟨rfl, rfl⟩
  | some e => exact ⟨rfl, rfl⟩

theorem Topic.Ok.sessionOrdered {P : Platform} {ident : Nat → SessionKey × Nat} {t : Topic} (h : t.Ok P ident)
    (hk : k.Admitted) : t.cxl.SessionOrdered k := by
  have hseqs := h.seqs k hk
  rw [Topic.goiSeqs, committedSeqs] at hseqs
  have hpairs : ((Log.upTo t.cxl.goi t.globalBatchSeq).filter (·.key = k)).Pairwise
      fun e e' => e.clientSeq < e'.clientSeq := by
    rw [← List.pairwise_map, hseqs]
    exact List.pairwise_lt_range
  rw [List.pairwise_filter, Log.upTo, List.pairwise_map] at hpairs
  intro i j hij hi hj
  have hlt := Nat.lt_of_lt_of_le hj.committed h.committed
  have hpair := List.pairwise_iff_getElem.mp hpairs i j (by rw [List.length_range]; omega)
    (by rw [List.length_range]; omega) hij
  rw [List.getElem_range, List.getElem_range] at hpair
  exact hpair (decide_eq_true hi.session) (decide_eq_true hj.session)

theorem CxlMemory.committedSet_eq_empty (h : ∀ i, ¬ c.Commits k i) : c.committedSet k = ∅ := by
  refine Set.eq_empty_of_forall_notMem ?_
  rintro q ⟨i, hi, -⟩
  exact h i hi

theorem CxlMemory.exists_greatest {i : Nat} (h : c.Commits k i) : ∃ m, IsGreatest (c.committedSet k) m := by
  have hfinite : {j | c.Commits k j}.Finite := (Set.finite_lt_nat c.committedLimit).subset fun j hj => hj.committed
  obtain ⟨j, hj, hmax⟩ := Set.exists_max_image _ (fun j => (c.goi j).clientSeq) hfinite ⟨i, h⟩
  refine ⟨_, ⟨j, hj, rfl⟩, ?_⟩
  rintro q ⟨j', hj', rfl⟩
  exact hmax j' hj'

theorem answer_readSessionSnapshot (table : SessionTable) (hgoi : k.sessionEpoch ≠ 0 → c.SessionOrdered k) :
    (c.committedSet k = ∅ → (readSessionSnapshot table c k).answer =
      if 0 < (readSessionEntrySnapshot table k).expectedSeq then
        some (readSessionEntrySnapshot table k).committedHwm else none) ∧
    ∀ m, IsGreatest (c.committedSet k) m → (readSessionSnapshot table c k).answer =
      if 0 < (readSessionEntrySnapshot table k).expectedSeq then
        some (min (readSessionEntrySnapshot table k).committedHwm m) else none := by
  rw [readSessionSnapshot, DurableSessionSnapshot.answer]
  dsimp only
  by_cases hk : k.sessionEpoch = 0
  · rw [readSessionEntrySnapshot, if_pos hk]
    exact ⟨fun _ => rfl, fun _ _ => rfl⟩
  rw [if_neg hk]
  cases hscan : Topic.scanGOICommittedHwm c k with
  | none =>
    refine ⟨fun _ => rfl, ?_⟩
    rintro m ⟨⟨i, hi, -⟩, -⟩
    exact absurd hi (scanGOICommittedHwm_eq_none hscan i)
  | some q =>
    obtain ⟨i, hi, rfl, hlast⟩ := scanGOICommittedHwm_eq_some hscan
    have hmem : (c.goi i).clientSeq ∈ c.committedSet k := ⟨i, hi, rfl⟩
    refine ⟨fun hempty => absurd hmem (hempty ▸ Set.notMem_empty _), fun m hm => ?_⟩
    have hle : m ≤ (c.goi i).clientSeq := by
      obtain ⟨⟨j, hj, rfl⟩, -⟩ := hm
      cases Nat.lt_or_eq_of_le (hlast j hj) with
      | inl hlt => exact Nat.le_of_lt (hgoi hk j i hlt hj hi)
      | inr heq => exact heq ▸ Nat.le_refl _
    rw [Nat.le_antisymm (hm.2 hmem) hle]
    rfl

/-- The answer to a reconnecting session, for every committed prefix a clean run leaves and every session table that
is read beside it, and when it is that prefix. -/
theorem reconnect_answer_committed {P : Platform} {ident : Nat → SessionKey × Nat} {es : List Event} {t : Topic}
    (hk : k.sessionEpoch = 0 ∨ k.Admitted) (hrun : Runs.Along (step P) (Clean P ident) (.fresh P) es t) :
    (t.cxl.committedSet k = ∅ → (readSessionSnapshot table t.cxl k).answer =
      if 0 < (readSessionEntrySnapshot table k).expectedSeq then
        some (readSessionEntrySnapshot table k).committedHwm else none) ∧
    (∀ m, IsGreatest (t.cxl.committedSet k) m → (readSessionSnapshot table t.cxl k).answer =
      if 0 < (readSessionEntrySnapshot table k).expectedSeq then
        some (min (readSessionEntrySnapshot table k).committedHwm m) else none) ∧
    ((∀ q, (readSessionSnapshot table t.cxl k).answer = some q ↔ IsGreatest (t.cxl.committedSet k) q) ↔
      (readSessionEntrySnapshot table k).Level t.cxl k) := by
  have hgoi : k.sessionEpoch ≠ 0 → t.cxl.SessionOrdered k := fun hne =>
    ((Topic.ok_fresh P).run hrun).sessionOrdered (hk.resolve_left hne)
  obtain ⟨hempty, hgreatest⟩ := answer_readSessionSnapshot table hgoi
  refine ⟨hempty, hgreatest, fun h => ⟨fun i hi => ?_, fun hnone => ?_⟩, fun hlevel q => ?_⟩
  · obtain ⟨m, hm⟩ := CxlMemory.exists_greatest hi
    have hanswer := (h m).mpr hm
    rw [hgreatest m hm] at hanswer
    split at hanswer
    next hpos =>
      have hmin := Option.some.inj hanswer
      exact ⟨(hm.2 ⟨i, hi, rfl⟩).trans (hmin ▸ Nat.min_le_left _ _), hpos⟩
    · cases hanswer
  · by_contra hne
    have hanswer := hempty (CxlMemory.committedSet_eq_empty hnone)
    rw [if_pos (Nat.pos_of_ne_zero hne)] at hanswer
    obtain ⟨i, hi, -⟩ := ((h _).mp hanswer).1
    exact hnone i hi
  · by_cases hnone : ∀ i, ¬ t.cxl.Commits k i
    · have hset := CxlMemory.committedSet_eq_empty hnone
      rw [hempty hset, hlevel.empty hnone, if_neg (Nat.lt_irrefl 0), hset]
      exact iff_of_false (by rintro ⟨⟩) fun hq => hq.1
    · obtain ⟨i, hi⟩ := not_forall_not.mp hnone
      obtain ⟨m, hm⟩ := CxlMemory.exists_greatest hi
      obtain ⟨j, hj, hjm⟩ := hm.1
      have hcovers := hlevel.covers j hj
      rw [hgreatest m hm, if_pos hcovers.2, Nat.min_eq_right (hjm ▸ hcovers.1), Option.some.injEq]
      exact ⟨fun heq => heq ▸ hm, fun hq => hm.unique hq⟩

section Scenario

def committedRun : List Event :=
  [publishSlot 0 0 0, publishSlot 0 1 1, .epoch [scanSlot 0 0 0, scanSlot 0 1 1] (scenarioClock 1), .commit]

theorem reconnect_answer_committed_committedRun :
    ∃ t : Topic, Runs.Along (step .small) (Clean .small scenarioIdent) (.fresh .small)
        (committedRun ++ [.updateCommittedSeq 1]) t ∧
      (readSessionEntrySnapshot t.cxl.sessions ⟨7, 1⟩).Level t.cxl ⟨7, 1⟩ ∧
      IsGreatest (t.cxl.committedSet ⟨7, 1⟩) 1 := by
  refine Runs.exists_of_exec (fun t : Topic => ((t.cxl.committedLimit, (t.cxl.goi 1).clientSeq),
      (t.cxl.goi 0).globalSeq, ((t.cxl.goi 0).key, (t.cxl.goi 0).clientSeq),
      (readSessionSnapshot t.cxl.sessions t.cxl ⟨7, 1⟩).answer,
      (readSessionEntrySnapshot t.cxl.sessions ⟨7, 1⟩).expectedSeq,
      (readSessionEntrySnapshot t.cxl.sessions ⟨7, 1⟩).committedHwm))
    ((2, 1), 0, (⟨7, 1⟩, 0), some 1, 2, 1) (by decide +kernel) fun t hrun ha => ?_
  simp only [Prod.mk.injEq] at ha
  obtain ⟨⟨hlimit, hseq'⟩, hwritten, ⟨hkey, hseq⟩, hanswer, hexpected, hhwm⟩ := ha
  have hfirst : t.cxl.Commits ⟨7, 1⟩ 0 := ⟨by rw [hlimit]; decide, hwritten, hkey⟩
  have hlevel : (readSessionEntrySnapshot t.cxl.sessions ⟨7, 1⟩).Level t.cxl ⟨7, 1⟩ := by
    refine ⟨fun i hi => ?_, fun hnone => absurd hfirst (hnone 0)⟩
    have hlt := hi.committed
    rw [hexpected, hhwm]
    obtain rfl | rfl : i = 0 ∨ i = 1 := by omega
    · rw [hseq]
      decide
    · rw [hseq']
      decide
  exact ⟨hlevel, ((reconnect_answer_committed (.inr (by decide)) hrun).2.2.mpr hlevel 1).mp hanswer⟩

/-- The session entry is published, `committed_seq` is not: the answer is a prefix of which nothing is
committed. -/
theorem reconnect_answer_uncommitted :
    ∃ t : Topic, Runs.Along (step .small) (Clean .small scenarioIdent) (.fresh .small) committedRun t ∧
      t.cxl.committedSet ⟨7, 1⟩ = ∅ ∧ (readSessionSnapshot t.cxl.sessions t.cxl ⟨7, 1⟩).answer = some 1 := by
  refine Runs.exists_of_exec (fun t : Topic =>
    (t.cxl.committedLimit, (readSessionSnapshot t.cxl.sessions t.cxl ⟨7, 1⟩).answer))
    (0, some 1) (by decide +kernel) fun t hrun ha => ?_
  obtain ⟨hlimit, hanswer⟩ := Prod.mk.inj ha
  refine ⟨CxlMemory.committedSet_eq_empty fun i hi => ?_, hanswer⟩
  exact absurd hi.committed (by rw [hlimit]; exact Nat.not_lt_zero i)

end Scenario

theorem sessionOpenAck_answer {t : Topic} {k : SessionKey} (hk : k.Admitted) (hroom : t.capacityExhausted = false)
    (htable : (t.cxl.sessions.findOrCreate k).isNone = false) :
    (if (t.sessionOpenAck k).hasCommittedPrefix then some (t.sessionOpenAck k).committedHwm else none) =
      (readSessionSnapshot t.cxl.sessions t.cxl k).answer := by
  obtain ⟨hexpected, hhwm⟩ := readSessionEntrySnapshot_eq t.cxl.sessions hk.2
  rw [Topic.sessionOpenAck, readSessionSnapshot, DurableSessionSnapshot.answer]
  simp only [hk, hroom, htable, hexpected, hhwm, hk.2, if_false, not_true_eq_false, Bool.false_eq_true, or_self,
    decide_eq_true_eq]
  split <;> simp_all

end Embarcadero
