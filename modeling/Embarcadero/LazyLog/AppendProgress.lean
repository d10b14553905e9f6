import Embarcadero.Lib.Contiguous
import Embarcadero.Lib.Runs
import Embarcadero.Lib.Shares
import Embarcadero.ReplicationSet

namespace Embarcadero.LazyLog

open Function (update update_apply)
open List

structure AppendBatch where
  numMsg : Nat
  clientId : Nat
  deriving DecidableEq

/-- `ready` is `lazylog_metadata_ready_`; `acked` are the batches of the log that have been
acknowledged, by their position. -/
structure AppendState where
  ready : List (Nat × AppendBatch) := []
  nextLogicalOffset : Nat := 0
  progress : Nat := 0
  perClient : Nat → Nat := fun _ => 0
  done : Nat → Option Nat := fun _ => none
  acked : List Nat := []

namespace AppendState

def recordAck (s : AppendState) (startLogicalOffset numMsg clientId : Nat) : AppendState :=
  if numMsg = 0 then s
  else
    match Contiguous.emplace startLogicalOffset ⟨numMsg, clientId⟩ s.ready with
    | none => s
    | some ready => { s with ready }

def credit (s : AppendState) (b : AppendBatch) : AppendState :=
  { s with
    perClient := update s.perClient b.clientId (s.perClient b.clientId + b.numMsg)
    progress := s.progress + b.numMsg }

def advance (r : ReplicationSet) (s : AppendState) : AppendState :=
  if r.replicationFactor = 0 then s
  else
    let values := (List.range r.replicationFactor).filterMap fun i => s.done (r.broker i)
    let dataFrontier := values.foldl (fun frontier value => min frontier (value + 1)) (2 ^ 64 - 1)
    if values.length < r.replicationFactor then s
    else
      let d := Contiguous.drain AppendBatch.numMsg (fun o b => o + b.numMsg ≤ dataFrontier) s.ready.length
        s.nextLogicalOffset s.ready
      (d.2.2.map Prod.snd).foldl credit { s with ready := d.2.1, nextLogicalOffset := d.1 }

end AppendState

inductive AppendEvent
  | ack (i : Nat)
  | replicated (broker value : Nat)
  | advance

def startOffset (log : Nat → AppendBatch) : Nat → Nat
  | 0 => 0
  | i + 1 => startOffset log i + (log i).numMsg

def AppendState.step (log : Nat → AppendBatch) (r : ReplicationSet) (s : AppendState) : AppendEvent → Option AppendState
  | .ack i =>
    some { s.recordAck (startOffset log i) (log i).numMsg (log i).clientId with acked := s.acked ++ [i] }
  | .replicated broker value => some { s with done := update s.done broker (some value) }
  | .advance => some (s.advance r)

def AppendState.Forward (s : AppendState) : AppendEvent → Prop
  | .replicated broker value => doneCount (s.done broker) ≤ value + 1 ∧ value < 2 ^ 64 - 1
  | _ => True

instance (s : AppendState) : (e : AppendEvent) → Decidable (s.Forward e)
  | .replicated .. => inferInstanceAs (Decidable (_ ∧ _))
  | .ack _ | .advance => isTrue trivial

def dataFrontier (r : ReplicationSet) (done : Nat → Option Nat) : Nat :=
  ((List.range r.replicationFactor).map fun i => doneCount (done (r.broker i))).min?.getD 0

inductive Appended (log : Nat → AppendBatch) (acked : List Nat) (frontier : Nat) : Nat → List Nat → Nat → Prop
  | nil (o : Nat) : Appended log acked frontier o [] o
  | cons {o m i : Nat} {run : List Nat} : i ∈ acked → startOffset log i = o → startOffset log (i + 1) ≤ frontier →
      Appended log acked frontier (startOffset log (i + 1)) run m → Appended log acked frontier o (i :: run) m

variable {log : Nat → AppendBatch} {r : ReplicationSet} {acked : List Nat} {i j o m n frontier : Nat}

section Offsets

theorem startOffset_mono (h : i ≤ j) : startOffset log i ≤ startOffset log j := by
  induction h with
  | refl => exact Nat.le_refl _
  | step _ ih => exact ih.trans (Nat.le_add_right _ _)

theorem startOffset_lt (hi : 0 < (log i).numMsg) (h : i < j) : startOffset log i < startOffset log j :=
  Nat.lt_of_lt_of_le (Nat.lt_add_of_pos_right hi) (startOffset_mono h)

theorem startOffset_inj (hi : 0 < (log i).numMsg) (hj : 0 < (log j).numMsg)
    (h : startOffset log i = startOffset log j) : i = j := by
  rcases Nat.lt_trichotomy i j with hlt | heq | hlt
  · exact absurd h (Nat.ne_of_lt (startOffset_lt hi hlt))
  · exact heq
  · exact absurd h (Nat.ne_of_gt (startOffset_lt hj hlt))

def entries (log : Nat → AppendBatch) (acked : List Nat) : List (Nat × AppendBatch) :=
  (acked.filter fun i => 0 < (log i).numMsg).map fun i => (startOffset log i, log i)

theorem entries_append (log : Nat → AppendBatch) (acked : List Nat) (i : Nat) :
    entries log (acked ++ [i]) =
      if 0 < (log i).numMsg then entries log acked ++ [(startOffset log i, log i)] else entries log acked := by
  rw [entries, filter_append, map_append]
  split
  next hi =>
    rw [filter_cons_of_pos (by simpa using hi)]
    rfl
  next hi =>
    rw [filter_cons_of_neg (by simpa using hi)]
    exact append_nil _

theorem lookup_entries {b : AppendBatch} (h : (entries log acked).lookup o = some b) :
    ∃ i ∈ acked, startOffset log i = o ∧ log i = b ∧ 0 < (log i).numMsg := by
  obtain ⟨i, hi, heq⟩ := mem_map.mp (Assoc.mem_of_lookup h)
  obtain ⟨hmem, hpos⟩ := mem_filter.mp hi
  cases heq
  exact ⟨i, hmem, rfl, rfl, of_decide_eq_true hpos⟩

theorem lookup_startOffset (hi : i ∈ acked) (hpos : 0 < (log i).numMsg) :
    (entries log acked).lookup (startOffset log i) = some (log i) := by
  cases h : (entries log acked).lookup (startOffset log i) with
  | none =>
    have hmem : (startOffset log i, log i) ∈ entries log acked :=
      mem_map.mpr ⟨i, mem_filter.mpr ⟨hi, decide_eq_true hpos⟩, rfl⟩
    exact absurd (mem_map_of_mem hmem) (Assoc.not_mem_of_lookup h)
  | some b =>
    obtain ⟨j, -, hstart, hb, hpos'⟩ := lookup_entries h
    rw [← startOffset_inj hpos' hpos hstart, hb]

end Offsets

section Frontier

variable {done done' : Nat → Option Nat} {k : Nat}

theorem le_dataFrontier (hr : r.replicationFactor ≠ 0) :
    k ≤ dataFrontier r done ↔ ∀ i < r.replicationFactor, k ≤ doneCount (done (r.broker i)) := by
  rw [dataFrontier]
  cases hmin : ((List.range r.replicationFactor).map fun i => doneCount (done (r.broker i))).min? with
  | none =>
    rw [List.min?_eq_none_iff, map_eq_nil_iff, range_eq_nil] at hmin
    exact absurd hmin hr
  | some v =>
    rw [Option.getD_some, List.le_min?_iff hmin]
    simp

theorem dataFrontier_mono (h : ∀ b, doneCount (done b) ≤ doneCount (done' b)) :
    dataFrontier r done ≤ dataFrontier r done' := by
  by_cases hr : r.replicationFactor = 0
  · simp [dataFrontier, hr]
  · rw [le_dataFrontier hr]
    exact fun i hi => ((le_dataFrontier hr).mp (Nat.le_refl _) i hi).trans (h _)

theorem dataFrontier_eq_zero (hi : i < r.replicationFactor) (h : done (r.broker i) = none) :
    dataFrontier r done = 0 := by
  have hle := (le_dataFrontier (Nat.ne_of_gt (Nat.zero_lt_of_lt hi))).mp (Nat.le_refl (dataFrontier r done)) i hi
  rw [h] at hle
  exact Nat.le_zero.mp hle

theorem le_foldl_min (values : List Nat) (f : Nat) :
    k ≤ values.foldl (fun frontier value => min frontier (value + 1)) f ↔ k ≤ f ∧ ∀ v ∈ values, k ≤ v + 1 := by
  induction values generalizing f with
  | nil => simp
  | cons v values ih =>
    rw [foldl_cons, ih, Nat.le_min, forall_mem_cons, and_assoc]

theorem foldl_min_eq (hr : r.replicationFactor ≠ 0) (hbounded : ∀ b v, done b = some v → v < 2 ^ 64 - 1)
    (hall : ∀ i < r.replicationFactor, (done (r.broker i)).isSome) :
    ((List.range r.replicationFactor).filterMap fun i => done (r.broker i)).foldl
      (fun frontier value => min frontier (value + 1)) (2 ^ 64 - 1) = dataFrontier r done := by
  refine eq_of_forall_le_iff fun k => ?_
  rw [le_foldl_min, le_dataFrontier hr]
  constructor
  · rintro ⟨-, hvalues⟩ i hi
    obtain ⟨v, hv⟩ := Option.isSome_iff_exists.mp (hall i hi)
    rw [hv]
    exact hvalues v (mem_filterMap.mpr ⟨i, mem_range.mpr hi, hv⟩)
  · intro h
    refine ⟨?_, fun v hv => ?_⟩
    · obtain ⟨v, hv⟩ := Option.isSome_iff_exists.mp (hall 0 (Nat.pos_of_ne_zero hr))
      have hle := h 0 (Nat.pos_of_ne_zero hr)
      rw [hv] at hle
      exact hle.trans (hbounded _ v hv)
    · obtain ⟨i, hi, hv⟩ := mem_filterMap.mp hv
      have hle := h i (mem_range.mp hi)
      rwa [hv] at hle

end Frontier

namespace AppendState

variable {s s' : AppendState} {e : AppendEvent} {es : List AppendEvent} {out : List (Nat × AppendBatch)}

theorem foldl_credit (l : List AppendBatch) (s : AppendState) :
    l.foldl credit s = { s with
      progress := s.progress + (l.map (·.numMsg)).sum
      perClient := fun c => s.perClient c + Shares.share c (l.map fun b => (b.clientId, b.numMsg)) } := by
  induction l generalizing s with
  | nil => rfl
  | cons b l ih =>
    rw [foldl_cons, ih, credit]
    dsimp only
    congr 1
    · rw [map_cons, sum_cons, Nat.add_assoc]
    · funext c
      rw [map_cons, Shares.share_cons, update_apply]
      by_cases hc : c = b.clientId
      · rw [if_pos hc, if_pos hc.symm, hc, Nat.add_assoc]
      · rw [if_neg hc, if_neg (Ne.symm hc), Nat.zero_add]

structure Ok (log : Nat → AppendBatch) (r : ReplicationSet) (s : AppendState) (out : List (Nat × AppendBatch)) :
    Prop where
  tracks : Contiguous.Tracks AppendBatch.numMsg (fun o => (entries log s.acked).lookup o) s.nextLogicalOffset
    s.ready out
  positive : ∀ p ∈ s.ready, 0 < p.2.numMsg
  within : ∀ p ∈ out, p.1 + p.2.numMsg ≤ dataFrontier r s.done
  progress : s.progress = s.nextLogicalOffset
  perClient : ∀ c, s.perClient c = Shares.share c (out.map fun p => (p.2.clientId, p.2.numMsg))
  bounded : ∀ b v, s.done b = some v → v < 2 ^ 64 - 1

theorem ok_start (log : Nat → AppendBatch) (r : ReplicationSet) : Ok log r {} [] where
  tracks := .nil _
  positive := nofun
  within := nofun
  progress := rfl
  perClient _ := rfl
  bounded := nofun

theorem isSome_of_lt {l : List (Nat × AppendBatch)}
    (h : Contiguous.Chain AppendBatch.numMsg (fun o => (entries log acked).lookup o) n l m)
    (hle : n ≤ startOffset log i) (hlt : startOffset log i < m) :
    ((entries log acked).lookup (startOffset log i)).isSome := by
  induction h with
  | nil => exact absurd hle (Nat.not_le_of_lt hlt)
  | @cons n m b l hb _ ih =>
    by_cases heq : startOffset log i = n
    · rw [heq, hb]
      rfl
    · obtain ⟨j, -, hj, rfl, -⟩ := lookup_entries hb
      have hlt' : j < i := Nat.lt_of_not_le fun hij => heq (Nat.le_antisymm (hj ▸ startOffset_mono hij) hle)
      have hnext : startOffset log (j + 1) ≤ startOffset log i := startOffset_mono hlt'
      rw [startOffset, hj] at hnext
      exact ih hnext hlt

theorem Ok.ack (h : s.Ok log r out) (i : Nat) :
    Ok log r { s.recordAck (startOffset log i) (log i).numMsg (log i).clientId with acked := s.acked ++ [i] } out := by
  rw [recordAck]
  split
  next hzero =>
    have hentries : entries log (s.acked ++ [i]) = entries log s.acked := by
      rw [entries_append, if_neg (by omega)]
    exact { h with tracks := by dsimp only; rw [hentries]; exact h.tracks }
  next hzero =>
    have hpos := Nat.pos_of_ne_zero hzero
    have hentries : entries log (s.acked ++ [i]) = entries log s.acked ++ [(startOffset log i, log i)] := by
      rw [entries_append, if_pos hpos]
    split
    next hrefused =>
      refine { h with tracks := ?_ }
      dsimp only
      have hsome : ((entries log s.acked).lookup (startOffset log i)).isSome := by
        rcases Nat.lt_or_ge (startOffset log i) s.nextLogicalOffset with hlt | hge
        · exact isSome_of_lt h.tracks.chain (Nat.zero_le _) hlt
        · rw [← h.tracks.ahead _ hge]
          by_contra hnone
          rw [Contiguous.emplace, if_neg hnone] at hrefused
          cases hrefused
      rw [hentries, Contiguous.lookup_concat_of_isSome hsome]
      exact h.tracks
    next ready hemplace =>
      have hready : ∀ p ∈ ready, 0 < p.2.numMsg := by
        rw [Contiguous.emplace] at hemplace
        split at hemplace
        · cases hemplace
        · cases hemplace
          intro p hp
          cases mem_append.mp hp with
          | inl hp => exact h.positive p hp
          | inr hp =>
            cases mem_singleton.mp hp
            exact hpos
      refine { h with tracks := ?_, positive := hready }
      dsimp only
      rw [hentries]
      rcases Nat.lt_or_ge (startOffset log i) s.nextLogicalOffset with hlt | hge
      · rw [Contiguous.lookup_concat_of_isSome (isSome_of_lt h.tracks.chain (Nat.zero_le _) hlt)]
        exact h.tracks.stale hlt hemplace
      · exact h.tracks.record hge hemplace

theorem Ok.replicated (h : s.Ok log r out) {b v : Nat} (hk : s.Forward (.replicated b v)) :
    Ok log r { s with done := update s.done b (some v) } out := by
  refine { h with within := fun p hp => (h.within p hp).trans (dataFrontier_mono fun b' => ?_), bounded := ?_ }
  · dsimp only
    rw [update_apply]
    split
    next heq =>
      rw [heq]
      exact hk.1
    · exact Nat.le_refl _
  · intro b' v' hv'
    dsimp only at hv'
    rw [update_apply] at hv'
    split at hv'
    · cases hv'
      exact hk.2
    · exact h.bounded b' v' hv'

def Stopped (log : Nat → AppendBatch) (r : ReplicationSet) (s : AppendState) : Prop :=
  ∀ b, (entries log s.acked).lookup s.nextLogicalOffset = some b →
    dataFrontier r s.done < s.nextLogicalOffset + b.numMsg

theorem stopped_of_eq_zero (h : dataFrontier r s.done = 0) : s.Stopped log r := by
  intro b hb
  obtain ⟨i, -, -, rfl, hpos⟩ := lookup_entries hb
  rw [h]
  exact Nat.add_pos_right _ hpos

theorem Ok.advance (h : s.Ok log r out) : ∃ out', (s.advance r).Ok log r out' ∧ (s.advance r).Stopped log r ∧
    (s.advance r).acked = s.acked ∧ (s.advance r).done = s.done := by
  rw [AppendState.advance]
  split
  next hr => exact ⟨out, h, stopped_of_eq_zero (by simp [dataFrontier, hr]), rfl, rfl⟩
  next hr =>
    dsimp only
    split
    next hlt =>
      refine ⟨out, h, ?_, rfl, rfl⟩
      have hmissing : ∃ i < r.replicationFactor, s.done (r.broker i) = none := by
        by_contra hall
        push Not at hall
        refine Nat.ne_of_lt hlt ?_
        rw [filterMap_length_eq_length.mpr fun i hi =>
          Option.isSome_iff_ne_none.mpr (hall i (mem_range.mp hi)), length_range]
      obtain ⟨i, hi, hnone⟩ := hmissing
      exact stopped_of_eq_zero (dataFrontier_eq_zero hi hnone)
    next hge =>
      have hlen : ((List.range r.replicationFactor).filterMap fun i => s.done (r.broker i)).length =
          (List.range r.replicationFactor).length :=
        Nat.le_antisymm (length_filterMap_le _ _) (by rw [length_range]; exact Nat.le_of_not_lt hge)
      have hall : ∀ i < r.replicationFactor, (s.done (r.broker i)).isSome := fun i hi =>
        filterMap_length_eq_length.mp hlen i (mem_range.mpr hi)
      rw [foldl_min_eq hr h.bounded hall, foldl_credit]
      obtain ⟨htracks, hstop, hpassed, hkept⟩ := h.tracks.drain
        (fun o b => o + b.numMsg ≤ dataFrontier r s.done) h.positive
      have hnext := htracks.chain.total
      have hnext' := h.tracks.chain.total
      refine ⟨_, { h with
        tracks := htracks
        positive := fun p hp => h.positive p (hkept hp)
        within := fun p hp => ?_
        progress := ?_
        perClient := fun c => ?_ }, fun b hb => ?_, rfl, rfl⟩
      · cases mem_append.mp hp with
        | inl hp => exact h.within p hp
        | inr hp => exact of_decide_eq_true (hpassed p hp)
      · dsimp only
        rw [hnext, h.progress, hnext', map_append, sum_append, map_map, Nat.add_assoc]
        rfl
      · dsimp only
        rw [h.perClient, map_append, Shares.share_append, map_map]
        rfl
      · exact Nat.lt_of_not_le (of_decide_eq_false (hstop b hb))

theorem Ok.step (h : s.Ok log r out) (hk : s.Forward e) (hstep : s.step log r e = some s') :
    ∃ out', s'.Ok log r out' := by
  cases e with
  | ack i =>
    cases hstep
    exact ⟨out, h.ack i⟩
  | replicated b v =>
    cases hstep
    exact ⟨out, h.replicated hk⟩
  | advance =>
    cases hstep
    obtain ⟨out', hok, -⟩ := h.advance
    exact ⟨out', hok⟩

end AppendState

section Appended

theorem chain_of_appended {run : List Nat} (h : Appended log acked frontier o run m) :
    ∃ l, Contiguous.Chain AppendBatch.numMsg (fun o => (entries log acked).lookup o) o l m ∧
      ∀ p ∈ l, p.1 + p.2.numMsg ≤ frontier := by
  induction h with
  | nil o => exact ⟨[], .nil o, nofun⟩
  | @cons o m i run hi ho hle _ ih =>
    obtain ⟨l, hchain, hl⟩ := ih
    cases ho
    by_cases hzero : (log i).numMsg = 0
    · rw [startOffset, hzero, Nat.add_zero] at hchain
      exact ⟨l, hchain, hl⟩
    · exact ⟨_, .cons (lookup_startOffset hi (Nat.pos_of_ne_zero hzero)) hchain, forall_mem_cons.mpr ⟨hle, hl⟩⟩

theorem appended_of_chain {l : List (Nat × AppendBatch)}
    (h : Contiguous.Chain AppendBatch.numMsg (fun o => (entries log acked).lookup o) o l m)
    (hl : ∀ p ∈ l, p.1 + p.2.numMsg ≤ frontier) :
    ∃ run, Appended log acked frontier o run m ∧ run.map (fun i => (startOffset log i, log i)) = l := by
  induction h with
  | nil o => exact ⟨[], .nil o, rfl⟩
  | cons hb _ ih =>
    obtain ⟨run, hrun, rfl⟩ := ih fun p hp => hl p (mem_cons_of_mem _ hp)
    obtain ⟨i, hi, rfl, rfl, -⟩ := lookup_entries hb
    exact ⟨i :: run, .cons hi rfl (hl _ mem_cons_self) hrun, rfl⟩

end Appended

namespace AppendState

variable {s : AppendState} {es : List AppendEvent}

/-- After a call of `MaybeAdvanceLazyLogAppendVisibility` the progress is the end of the longest run of
acknowledged batches within the data frontier, and the credits are those of its batches, each once. -/
theorem append_progress_exact (hrun : Runs.Along (step log r) Forward {} es s) :
    ∃ run, Appended log s.acked (dataFrontier r s.done) 0 run (s.advance r).progress ∧ run.Nodup ∧
      (∀ run' m, Appended log s.acked (dataFrontier r s.done) 0 run' m → m ≤ (s.advance r).progress) ∧
      ∀ c, (s.advance r).perClient c =
        ((run.filter fun i => (log i).clientId = c).map fun i => (log i).numMsg).sum := by
  have hok : ∃ out, s.Ok log r out :=
    hrun.invariant (I := fun s => ∃ out, Ok log r s out) (fun _ _ _ hk hstep ⟨_, h⟩ => h.step hk hstep)
      ⟨[], ok_start log r⟩
  obtain ⟨out, hok⟩ := hok
  obtain ⟨out', h, hstopped, hacked, hdone⟩ := hok.advance
  have htracks := h.tracks
  have hwithin := h.within
  rw [Stopped, hacked, hdone] at hstopped
  rw [hacked] at htracks
  rw [hdone] at hwithin
  obtain ⟨run, happended, rfl⟩ := appended_of_chain htracks.chain hwithin
  refine ⟨run, h.progress ▸ happended, ?_, fun run' m happended' => ?_, fun c => ?_⟩
  · have hnodup := htracks.chain.nodup fun p hp => by
      obtain ⟨i, -, -, hi, hpos⟩ := lookup_entries (htracks.chain.seen_of_mem hp)
      exact hi ▸ hpos
    rw [map_map] at hnodup
    exact hnodup.of_map _
  · obtain ⟨l, hchain, hl⟩ := chain_of_appended happended'
    rw [h.progress]
    exact (htracks.chain.longest (fun o b => o + b.numMsg ≤ dataFrontier r s.done)
      (fun b hb => decide_eq_false (Nat.not_le_of_lt (hstopped b hb))) hchain fun p hp => decide_eq_true (hl p hp)).2
  · rw [h.perClient, Shares.share, map_map, filter_map, Shares.total, map_map]
    rfl

section Scenario

def growingLog (i : Nat) : AppendBatch := ⟨i + 1, 7⟩

theorem append_progress_exact_repeatedRun : ∃ s : AppendState,
    Runs.Along (step growingLog ⟨0, 2, 3⟩) Forward {}
      [.ack 2, .ack 0, .ack 0, .replicated 0 5, .replicated 1 0, .advance, .ack 0, .ack 1, .replicated 1 2] s ∧
      (s.advance ⟨0, 2, 3⟩).progress = 3 ∧
      ∃ run, Appended growingLog s.acked (dataFrontier ⟨0, 2, 3⟩ s.done) 0 run 3 := by
  refine Runs.exists_of_exec (fun s : AppendState => (s.advance ⟨0, 2, 3⟩).progress)
    3 (by decide +kernel) fun s hrun hprogress => ?_
  obtain ⟨run, happended, -⟩ := append_progress_exact hrun
  rw [hprogress] at happended
  exact ⟨hprogress, run, happended⟩

end Scenario

end AppendState

end Embarcadero.LazyLog
