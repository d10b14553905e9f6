import Embarcadero.Steps

namespace Embarcadero

open List

def completedRangesRingCap : Nat := 65536

def nextIndex (committedSeq : UInt64) : Nat :=
  if committedSeq = 0xFFFFFFFFFFFFFFFF then 0 else committedSeq.toNat + 1

/-- The slots of the ring between head and tail with their `ready` flags, and what `CommittedSeqUpdaterThread` keeps
and publishes. -/
structure RangeUpdater where
  ring : List (CompletedRange × Bool) := []
  pending : List CompletedRange := []
  nextExpectedStart : Nat
  committedSeq : UInt64

inductive RangeEvent
  | enqueue (start stop : UInt64)
  | ready (i : Nat)
  | turn

def RangeEvent.range? : RangeEvent → Option CompletedRange
  | .enqueue start stop => if stop ≤ start then none else some ⟨start.toNat, stop.toNat⟩
  | _ => none

namespace RangeUpdater

def start (committedSeq : UInt64) : RangeUpdater where
  nextExpectedStart := nextIndex committedSeq
  committedSeq := committedSeq

def publish (s : RangeUpdater) : RangeUpdater :=
  let r := advanceRanges s.nextExpectedStart s.pending
  { s with
    pending := r.2
    nextExpectedStart := r.1
    committedSeq := if s.nextExpectedStart < r.1 then .ofNat (r.1 - 1) else s.committedSeq }

def turn (s : RangeUpdater) : RangeUpdater :=
  match s.ring with
  | (r, true) :: ring => { s with ring := ring, pending := insertRange r s.pending }
  -- the ring is empty or its head is reserved and not ready: the inner loop breaks
  | _ => s.publish

def step (s : RangeUpdater) : RangeEvent → Option RangeUpdater
  | .enqueue start stop =>
    if stop ≤ start then some s
    else if s.ring.length < completedRangesRingCap then
      some { s with ring := s.ring ++ [(⟨start.toNat, stop.toNat⟩, false)] }
    else none
  | .ready i =>
    match s.ring[i]? with
    | some (r, false) => some { s with ring := s.ring.set i (r, true) }
    | _ => none
  | .turn => some s.turn

def Covered (recovered : UInt64) (rs : List CompletedRange) (i : Nat) : Prop :=
  i < nextIndex recovered ∨ ∃ r ∈ rs, r.start ≤ i ∧ i < r.stop

def Exact (recovered committedSeq : UInt64) (rs : List CompletedRange) : Prop :=
  ∀ c, (∀ i ≤ c, Covered recovered rs i) ↔ c < nextIndex committedSeq

end RangeUpdater

theorem nextIndex_ofNat {n : Nat} (hpos : 0 < n) (hlt : n < 2 ^ 64) : nextIndex (.ofNat (n - 1)) = n := by
  have hnat : (UInt64.ofNat (n - 1)).toNat = n - 1 :=
    UInt64.toNat_ofNat_of_lt' (Nat.lt_of_le_of_lt (Nat.sub_le n 1) hlt)
  rw [nextIndex, if_neg, hnat]
  · omega
  · intro heq
    have := congrArg UInt64.toNat heq
    rw [hnat] at this
    change n - 1 = 2 ^ 64 - 1 at this
    omega

namespace RangeUpdater

variable {recovered : UInt64} {s s' : RangeUpdater} {e : RangeEvent} {es : List RangeEvent}
  {taken : List CompletedRange}

structure Ok (recovered : UInt64) (taken : List CompletedRange) (s : RangeUpdater) : Prop where
  published : nextIndex s.committedSeq = s.nextExpectedStart
  resumed : nextIndex recovered ≤ s.nextExpectedStart
  covered : ∀ i < s.nextExpectedStart, Covered recovered taken i
  sorted : s.pending.Pairwise (·.start ≤ ·.start)
  settled : ∀ r ∈ taken, r ∈ s.pending ∨ r.stop ≤ s.nextExpectedStart
  kept : ∀ r ∈ s.pending, r ∈ taken
  bounded : ∀ r ∈ taken ++ s.ring.map Prod.fst, r.stop < 2 ^ 64

theorem ok_start (recovered : UInt64) : (start recovered).Ok recovered [] :=
  ⟨rfl, Nat.le_refl _, fun _ hi => .inl hi, .nil, nofun, nofun, nofun⟩

theorem Covered.mono {rs rs' : List CompletedRange} {i : Nat} (hsub : rs ⊆ rs') (h : Covered recovered rs i) :
    Covered recovered rs' i :=
  h.imp_right fun hex => hex.imp fun _ hr => hr.imp_left (@hsub _)

theorem exact_of_gap {committedSeq : UInt64} {next : Nat} (hpublished : nextIndex committedSeq = next)
    (hresumed : nextIndex recovered ≤ next) (hcovered : ∀ i < next, Covered recovered taken i)
    (hgap : ∀ r ∈ taken, next < r.start ∨ r.stop ≤ next) : Exact recovered committedSeq taken := by
  intro c
  rw [hpublished]
  refine ⟨fun hall => Nat.lt_of_not_le fun hle => ?_, fun hlt i hi => hcovered i (Nat.lt_of_le_of_lt hi hlt)⟩
  cases hall next hle with
  | inl hlt => exact absurd hresumed (Nat.not_le.mpr hlt)
  | inr hex =>
    obtain ⟨r, hr, hstart, hstop⟩ := hex
    cases hgap r hr with
    | inl hlt => exact absurd hlt (Nat.not_lt.mpr hstart)
    | inr hle => exact absurd hle (Nat.not_le.mpr hstop)

theorem Ok.publish (h : s.Ok recovered taken) :
    s.publish.Ok recovered taken ∧ s.nextExpectedStart ≤ s.publish.nextExpectedStart ∧
      Exact recovered s.publish.committedSeq taken := by
  have hadv := advanced_advanceRanges s.pending s.nextExpectedStart
  have hgap := advanceRanges_gap s.pending s.nextExpectedStart h.sorted
  rw [RangeUpdater.publish]
  generalize advanceRanges _ _ = a at hadv hgap
  obtain ⟨next', rest⟩ := a
  have hpublished : nextIndex (if s.nextExpectedStart < next' then .ofNat (next' - 1) else s.committedSeq) = next' := by
    split
    next hlt =>
      obtain ⟨r, hr, hstop⟩ := hadv.reached hlt
      have hstop : r.stop = next' := hstop
      exact nextIndex_ofNat (by omega) (hstop ▸ h.bounded r (mem_append_left _ (h.kept r hr)))
    next hle => exact h.published.trans (Nat.le_antisymm hadv.forward (Nat.le_of_not_lt hle))
  have hcovered : ∀ i < next', Covered recovered taken i := by
    intro i hi
    cases Nat.lt_or_ge i s.nextExpectedStart with
    | inl hlt => exact h.covered i hlt
    | inr hge =>
      obtain ⟨r, hr, hi⟩ := hadv.covered i hge hi
      exact .inr ⟨r, h.kept r hr, hi⟩
  have hsettled : ∀ r ∈ taken, r ∈ rest ∨ r.stop ≤ next' := by
    intro r hr
    cases h.settled r hr with
    | inl hr => exact hadv.settled r hr
    | inr hstop => exact .inr (hstop.trans hadv.forward)
  refine ⟨⟨hpublished, h.resumed.trans hadv.forward, hcovered, hgap.1, hsettled,
    fun r hr => h.kept r (hadv.kept hr), h.bounded⟩, hadv.forward, ?_⟩
  exact exact_of_gap hpublished (h.resumed.trans hadv.forward) hcovered fun r hr => (hsettled r hr).imp_left (hgap.2 r)

theorem Ok.take {r : CompletedRange} {ring : List (CompletedRange × Bool)} (h : s.Ok recovered taken)
    (hring : s.ring = (r, true) :: ring) :
    ({ s with ring := ring, pending := insertRange r s.pending } : RangeUpdater).Ok recovered (taken ++ [r]) := by
  have hperm := insertRange_perm r s.pending
  refine ⟨h.published, h.resumed, fun i hi => (h.covered i hi).mono (subset_append_left _ _),
    insertRange_sorted h.sorted r, fun q hq => ?_, fun q hq => ?_, ?_⟩
  · cases mem_append.mp hq with
    | inl hq => exact (h.settled q hq).imp_left fun hq => hperm.mem_iff.mpr (.tail r hq)
    | inr hq => exact .inl (hperm.mem_iff.mpr (mem_singleton.mp hq ▸ .head _))
  · cases mem_cons.mp (hperm.mem_iff.mp hq) with
    | inl heq => exact mem_append_right _ (mem_singleton.mpr heq)
    | inr hq => exact mem_append_left _ (h.kept q hq)
  · have hbounded := h.bounded
    rw [hring, map_cons, ← singleton_append, ← append_assoc] at hbounded
    exact hbounded

theorem ranges_ready {ring : List (CompletedRange × Bool)} {i : Nat} {r : CompletedRange}
    (h : ring[i]? = some (r, false)) : (ring.set i (r, true)).map Prod.fst = ring.map Prod.fst := by
  have hself : (ring.map Prod.fst)[i]? = some r := by
    rw [List.getElem?_map, h]
    rfl
  obtain ⟨hlt, heq⟩ := List.getElem?_eq_some_iff.mp hself
  rw [map_set]
  exact heq ▸ set_getElem_self hlt

theorem Ok.step (h : s.Ok recovered taken) (hstep : s.step e = some s') :
    ∃ taken', s'.Ok recovered taken' ∧ s.nextExpectedStart ≤ s'.nextExpectedStart ∧
      taken' ++ s'.ring.map Prod.fst = taken ++ s.ring.map Prod.fst ++ e.range?.toList := by
  cases e with
  | enqueue start stop =>
    rw [RangeUpdater.step] at hstep
    rw [RangeEvent.range?]
    split at hstep
    next hempty =>
      cases hstep
      rw [if_pos hempty]
      exact ⟨taken, h, Nat.le_refl _, (append_nil _).symm⟩
    next hempty =>
      obtain ⟨-, rfl⟩ := Runs.of_guard hstep
      rw [if_neg hempty]
      have hranges : taken ++ (s.ring ++ [(CompletedRange.mk start.toNat stop.toNat, false)]).map Prod.fst =
          taken ++ s.ring.map Prod.fst ++ [CompletedRange.mk start.toNat stop.toNat] := by
        rw [map_append, ← append_assoc]
        rfl
      refine ⟨taken, { h with bounded := fun r hr => ?_ }, Nat.le_refl _, hranges⟩
      cases mem_append.mp (hranges ▸ hr) with
      | inl hr => exact h.bounded r hr
      | inr hr =>
        rw [mem_singleton.mp hr]
        exact stop.toNat_lt
  | ready i =>
    rw [RangeUpdater.step] at hstep
    split at hstep
    next r hslot =>
      cases hstep
      have hsame := ranges_ready hslot
      refine ⟨taken, { h with bounded := ?_ }, Nat.le_refl _, ?_⟩
      · rw [hsame]
        exact h.bounded
      · rw [hsame]
        exact (append_nil _).symm
    · cases hstep
  | turn =>
    cases hstep
    rw [turn]
    split
    next r ring hring =>
      refine ⟨taken ++ [r], h.take hring, Nat.le_refl _, ?_⟩
      rw [hring, map_cons, append_assoc, singleton_append]
      exact (append_nil _).symm
    · exact ⟨taken, h.publish.1, h.publish.2.1, (append_nil _).symm⟩

theorem Ok.run (hrun : Runs.Along RangeUpdater.step (fun _ _ => True) (start recovered) es s) :
    ∃ taken, s.Ok recovered taken ∧ taken ++ s.ring.map Prod.fst = es.filterMap RangeEvent.range? := by
  have hstart : ∃ taken, (start recovered).Ok recovered taken ∧
      taken ++ (start recovered).ring.map Prod.fst = [].filterMap RangeEvent.range? := ⟨[], ok_start recovered, rfl⟩
  refine hrun.history (I := fun done s => ∃ taken, s.Ok recovered taken ∧
    taken ++ s.ring.map Prod.fst = done.filterMap RangeEvent.range?) (fun done s e s' _ hstep hs => ?_) hstart
  obtain ⟨taken, hok, hranges⟩ := hs
  obtain ⟨taken', hok', -, hranges'⟩ := hok.step hstep
  refine ⟨taken', hok', ?_⟩
  rw [hranges', hranges, filterMap_append]
  cases hr : e.range? <;> simp [hr]

theorem Ok.forward (h : s.Ok recovered taken) (hrun : Runs.Along RangeUpdater.step (fun _ _ => True) s es s') :
    nextIndex s.committedSeq ≤ nextIndex s'.committedSeq := by
  refine hrun.relation (I := fun s => ∃ taken, s.Ok recovered taken)
    (R := fun a b => nextIndex a.committedSeq ≤ nextIndex b.committedSeq)
    (fun _ _ _ _ hstep h => ?_) (fun _ _ _ _ hstep h => ?_) (fun _ => Nat.le_refl _) (fun _ _ _ => Nat.le_trans)
    ⟨taken, h⟩
  · obtain ⟨_, h⟩ := h
    obtain ⟨taken', hok, -⟩ := h.step hstep
    exact ⟨taken', hok⟩
  · obtain ⟨_, h⟩ := h
    obtain ⟨taken', hok, hle, -⟩ := h.step hstep
    rw [h.published, hok.published]
    exact hle

theorem Ok.drain (ring : List (CompletedRange × Bool)) : ∀ {s : RangeUpdater} {taken : List CompletedRange},
    s.Ok recovered taken → s.ring = ring → (∀ x ∈ ring, x.2 = true) →
      ∃ s', Runs.Along RangeUpdater.step (fun _ _ => True) s (replicate (ring.length + 1) .turn) s' ∧
        Exact recovered s'.committedSeq (taken ++ ring.map Prod.fst) := by
  induction ring with
  | nil =>
    intro s taken h hring _
    have hturn : s.turn = s.publish := by
      rw [turn, hring]
    refine ⟨s.publish, .cons trivial (congrArg some hturn) (.nil _), ?_⟩
    rw [map_nil, append_nil]
    exact h.publish.2.2
  | cons x ring ih =>
    intro s taken h hring hready
    obtain ⟨r, flag⟩ := x
    obtain rfl : flag = true := hready _ (.head _)
    have hturn : s.turn = { s with ring := ring, pending := insertRange r s.pending } := by
      rw [turn, hring]
    obtain ⟨s', hrun, hexact⟩ := ih (h.take hring) rfl fun x hx => hready x (.tail _ hx)
    refine ⟨s', .cons trivial (congrArg some hturn) hrun, ?_⟩
    rw [append_assoc] at hexact
    exact hexact

/-- What is published is covered by enqueued ranges and never goes back.  A turn that finds no ready slot at the head
publishes exactly the prefix covered by the ranges enqueued before it; if every enqueue has filled its slot, the turns
that empty the ring publish exactly the prefix covered by all of them. -/
theorem committed_seq_contiguous (hrun : Runs.Along step (fun _ _ => True) (start recovered) es s) :
    (∀ i < nextIndex s.committedSeq, Covered recovered (es.filterMap RangeEvent.range?) i) ∧
    (∀ {es' s'}, Runs.Along step (fun _ _ => True) s es' s' →
      nextIndex s.committedSeq ≤ nextIndex s'.committedSeq) ∧
    ((∀ x ∈ s.ring.head?, x.2 = false) → ∃ taken,
      es.filterMap RangeEvent.range? = taken ++ s.ring.map Prod.fst ∧
        Exact recovered s.turn.committedSeq taken) ∧
    ((∀ x ∈ s.ring, x.2 = true) →
      ∃ s', Runs.Along step (fun _ _ => True) s (replicate (s.ring.length + 1) .turn) s' ∧
        Exact recovered s'.committedSeq (es.filterMap RangeEvent.range?)) := by
  obtain ⟨taken, hok, hranges⟩ := Ok.run hrun
  refine ⟨fun i hi => ?_, hok.forward, fun hhead => ⟨taken, hranges.symm, ?_⟩, fun hready => ?_⟩
  · rw [← hranges]
    exact (hok.covered i (hok.published ▸ hi)).mono (subset_append_left _ _)
  · rw [turn]
    split
    next r ring hring => cases hhead (r, true) (by rw [hring]; rfl)
    · exact hok.publish.2.2
  · rw [← hranges]
    exact Ok.drain s.ring hok rfl hready

theorem committed_seq_contiguous_reversedRun : ∃ s : RangeUpdater,
    Runs.Along step (fun _ _ => True) (start 0xFFFFFFFFFFFFFFFF)
      [.enqueue 3 5, .enqueue 0 3, .ready 0, .turn, .turn, .ready 0, .turn] s ∧
      s.ring = [] ∧ nextIndex s.committedSeq = 0 ∧
      Exact 0xFFFFFFFFFFFFFFFF s.turn.committedSeq [⟨3, 5⟩, ⟨0, 3⟩] ∧
      nextIndex s.turn.committedSeq = 5 := by
  refine Runs.exists_of_exec (fun s : RangeUpdater =>
    (s.ring, nextIndex s.committedSeq, nextIndex s.turn.committedSeq)) ([], 0, 5) (by decide +kernel)
    fun s hrun hs => ?_
  simp only [Prod.mk.injEq] at hs
  obtain ⟨taken, htaken, hexact⟩ := (committed_seq_contiguous hrun).2.2.1 (by rw [hs.1]; rintro _ ⟨⟩)
  rw [hs.1, map_nil, append_nil] at htaken
  have htaken : [⟨3, 5⟩, ⟨0, 3⟩] = taken := htaken
  exact ⟨hs.1, hs.2.1, htaken ▸ hexact, hs.2.2⟩

end RangeUpdater

end Embarcadero
