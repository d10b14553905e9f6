import Embarcadero.Lib.Carried
import Embarcadero.Lib.Contiguous
import Embarcadero.Lib.Runs
import Embarcadero.Lib.Shares
import Embarcadero.ReplicationSet

namespace Embarcadero.Corfu

open Function (update update_apply update_self)
open List

structure DurableBatch where
  messageCount : Nat
  clientId : Nat
  deriving DecidableEq

structure DurableFrontier where
  nextSequence : Nat := 0
  pending : List (Nat × DurableBatch) := []

/-- `DurableFrontier::Record`: the frontier and the newly contiguous batches, or nothing if the
completion is refused. -/
def DurableFrontier.record (f : DurableFrontier) (sequence : Nat) (batch : DurableBatch) :
    Option (DurableFrontier × List DurableBatch) :=
  if batch.messageCount = 0 ∨ sequence < f.nextSequence then none
  else
    (Contiguous.emplace sequence batch f.pending).map fun pending =>
      let r := Contiguous.drain (fun _ => 1) (fun _ _ => true) pending.length f.nextSequence pending
      (⟨r.1, r.2.1⟩, r.2.2.map Prod.snd)

namespace DurableFrontier

def recordAll (calls : List (Nat × DurableBatch)) : DurableFrontier × List DurableBatch :=
  calls.foldl (fun r call => (r.1.record call.1 call.2).elim r fun r' => (r'.1, r.2 ++ r'.2)) ({}, [])

variable {f f' : DurableFrontier} {calls out : List (Nat × DurableBatch)} {k : Nat} {b : DurableBatch}
  {batches : List DurableBatch}

structure Releases (f : DurableFrontier) (calls out : List (Nat × DurableBatch)) : Prop where
  tracks : Contiguous.Tracks (fun _ => 1) (fun k => calls.lookup k) f.nextSequence f.pending out
  gap : calls.lookup f.nextSequence = none

theorem Releases.refused (h : f.Releases calls out) (hb : 0 < b.messageCount) (hrefused : f.record k b = none) :
    (calls.lookup k).isSome := by
  rw [DurableFrontier.record] at hrefused
  split at hrefused
  next hearly =>
    cases hearly with
    | inl hzero => exact absurd hzero (Nat.ne_of_gt hb)
    | inr hlt => exact h.tracks.isSome_of_lt hlt
  next hlate =>
    rw [not_or, Nat.not_lt] at hlate
    rw [Option.map_eq_none_iff, Contiguous.emplace] at hrefused
    split at hrefused
    next hpending =>
      rw [← h.tracks.ahead k hlate.2]
      exact hpending
    · cases hrefused

theorem Releases.accepted (h : f.Releases calls out) (hrecord : f.record k b = some (f', batches)) :
    ∃ new, new.map Prod.snd = batches ∧ f'.Releases (calls ++ [(k, b)]) (out ++ new) := by
  rw [DurableFrontier.record] at hrecord
  split at hrecord
  · cases hrecord
  next hlate =>
    rw [not_or, Nat.not_lt] at hlate
    obtain ⟨pending, hemplace, heq⟩ := Option.map_eq_some_iff.mp hrecord
    have hall := (h.tracks.record hlate.2 hemplace).drain (fun _ _ => true) fun _ _ => Nat.one_pos
    cases heq
    exact ⟨_, rfl, hall.1, Option.eq_none_iff_forall_ne_some.mpr fun b' hb' => nomatch hall.2.1 b' hb'⟩

theorem Releases.released (h : f.Releases calls out) :
    (out.map Prod.snd).map some = (List.range f.nextSequence).map (calls.lookup ·) := by
  have hpositions := h.tracks.chain.positions
  rw [Nat.sub_zero, ← range_eq_range'] at hpositions
  rw [← hpositions, map_map, map_map]
  exact map_congr_left fun p hp => (h.tracks.chain.seen_of_mem hp).symm

theorem releases_recordAll (hcounts : ∀ call ∈ calls, 0 < call.2.messageCount) :
    ∃ out, out.map Prod.snd = (recordAll calls).2 ∧ (recordAll calls).1.Releases calls out := by
  induction calls using List.reverseRecOn with
  | nil => exact ⟨[], rfl, .nil _, rfl⟩
  | append_singleton calls call ih =>
    obtain ⟨out, hout, h⟩ := ih fun c hc => hcounts c (mem_append_left _ hc)
    have hb := hcounts call (by simp)
    rw [recordAll, foldl_append, foldl_cons, foldl_nil, ← recordAll]
    cases hrecord : (recordAll calls).1.record call.1 call.2 with
    | none =>
      have hsame := Contiguous.lookup_concat_of_isSome (h.refused hb hrecord) call.2
      exact ⟨out, hout, hsame ▸ h.tracks, (congrFun hsame _).trans h.gap⟩
    | some result =>
      obtain ⟨new, hnew, h'⟩ := h.accepted hrecord
      exact ⟨out ++ new, by rw [map_append, hout, hnew]; rfl, h'⟩

/-- After any calls of `Record`, the first completions of the sequence numbers below the first missing one have been
released, each once and in order. -/
theorem record_releases_in_order (calls : List (Nat × DurableBatch))
    (hcounts : ∀ call ∈ calls, 0 < call.2.messageCount) :
    let r := recordAll calls
    r.2.map some = (List.range r.1.nextSequence).map (calls.lookup ·) ∧ calls.lookup r.1.nextSequence = none := by
  obtain ⟨out, hout, h⟩ := releases_recordAll hcounts
  exact ⟨hout ▸ h.released, h.gap⟩

theorem record_releases_in_order_conflicts :
    let calls := [(2, ⟨5, 7⟩), (0, ⟨3, 7⟩), (2, ⟨9, 8⟩), (0, ⟨4, 8⟩), (1, ⟨1, 8⟩), (4, ⟨2, 7⟩)]
    (recordAll calls).2 = [⟨3, 7⟩, ⟨1, 8⟩, ⟨5, 7⟩] ∧
      (recordAll calls).2.map some = (List.range (recordAll calls).1.nextSequence).map (calls.lookup ·) :=
  ⟨by decide, (record_releases_in_order _ (by decide)).1⟩

end DurableFrontier

inductive DoneCell
  | tinode (b : Nat)
  | replicaTinode (b : Nat)
  deriving DecidableEq

structure Replication extends ReplicationSet where
  replicateTinode : Bool

namespace Replication

def cells (r : Replication) : List DoneCell :=
  (List.range r.replicationFactor).flatMap fun i =>
    (if r.replicateTinode then [.replicaTinode (r.broker i)] else []) ++ [.tinode (r.broker i)]

end Replication

def perClientDelta (batches : List DurableBatch) : List (Nat × Nat) :=
  batches.foldl (fun delta b => Shares.add b.clientId b.messageCount delta) []

inductive DurableCall
  | idle
  | record (sequence : Nat) (batch : DurableBatch)
  | count (messages : Nat) (delta : List (Nat × Nat))
  | store (lastOffset : Nat) (cells : List DoneCell) (delta : List (Nat × Nat))
  | credit (delta : List (Nat × Nat))
  deriving DecidableEq

/-- `done` is `none` where it reads `kReplicationNotStarted`; `durable` are the completions that have
been recorded so far. -/
structure DurableCompletion (n : Nat) where
  frontier : DurableFrontier := {}
  durableCount : Nat := 0
  done : DoneCell → Option Nat := fun _ => none
  perClientDurable : Nat → Nat := fun _ => 0
  calls : Fin n → DurableCall := fun _ => .idle
  durable : List (Nat × DurableBatch) := []

inductive DurableEvent (n : Nat)
  | call (t : Fin n) (sequence : Nat) (batch : DurableBatch)
  | record (t : Fin n)
  | fetchAdd (t : Fin n)
  | store (t : Fin n)
  | credit (t : Fin n)

namespace DurableCompletion

variable {n : Nat}

def setCall (s : DurableCompletion n) (t : Fin n) (c : DurableCall) : DurableCompletion n :=
  { s with calls := update s.calls t c }

def record (s : DurableCompletion n) (t : Fin n) (sequence : Nat) (batch : DurableBatch) : DurableCompletion n :=
  let s := { s with durable := s.durable ++ [(sequence, batch)] }
  match s.frontier.record sequence batch with
  | none => s.setCall t .idle
  | some (frontier, batches) =>
    let messages := (batches.map (·.messageCount)).sum
    { s with frontier }.setCall t (if messages = 0 then .idle else .count messages (perClientDelta batches))

def step (r : Replication) (s : DurableCompletion n) : DurableEvent n → Option (DurableCompletion n)
  | .call t sequence batch => if s.calls t = .idle then some (s.setCall t (.record sequence batch)) else none
  | .record t =>
    match s.calls t with
    | .record sequence batch => some (s.record t sequence batch)
    | _ => none
  | .fetchAdd t =>
    match s.calls t with
    | .count messages delta =>
      some { s.setCall t (.store (s.durableCount + messages - 1) r.cells delta) with
        durableCount := s.durableCount + messages }
    | _ => none
  | .store t =>
    match s.calls t with
    | .store _ [] delta => some (s.setCall t (.credit delta))
    | .store lastOffset (c :: cells) delta =>
      some { s.setCall t (.store lastOffset cells delta) with done := update s.done c (some lastOffset) }
    | _ => none
  | .credit t =>
    match s.calls t with
    | .credit [] => some (s.setCall t .idle)
    | .credit ((client, count) :: delta) =>
      some { s.setCall t (.credit delta) with
        perClientDurable := update s.perClientDurable client (s.perClientDurable client + count) }
    | _ => none

end DurableCompletion

def DurableCall.storing : DurableCall → Bool
  | .store .. => true
  | _ => false

namespace DurableCompletion

variable {n : Nat}

def OneStorer (s : DurableCompletion n) : DurableEvent n → Prop
  | .call _ _ batch => 0 < batch.messageCount
  | .fetchAdd _ => ∀ t, (s.calls t).storing = false
  | _ => True

instance (s : DurableCompletion n) : (e : DurableEvent n) → Decidable (s.OneStorer e)
  | .call .. => inferInstanceAs (Decidable (_ < _))
  | .fetchAdd _ => inferInstanceAs (Decidable (∀ _, _))
  | .record _ | .store _ | .credit _ => isTrue trivial

structure ContiguousTo (durable : List (Nat × DurableBatch)) (k total : Nat) : Prop where
  all : ∀ j < k, (durable.lookup j).isSome
  gap : durable.lookup k = none
  sum : total = ((List.range k).map fun j => (durable.lookup j).elim 0 (·.messageCount)).sum

def counting : DurableCall → Nat
  | .count messages _ => messages
  | _ => 0

variable {r : Replication} {s s' : DurableCompletion n} {e : DurableEvent n} {es : List (DurableEvent n)}

structure Counted (s : DurableCompletion n) (out : List (Nat × DurableBatch)) : Prop where
  tracks : Contiguous.Tracks (fun _ => 1) (fun k => s.durable.lookup k) s.frontier.nextSequence s.frontier.pending out
  gap : s.durable.lookup s.frontier.nextSequence = none
  total : (out.map (·.2.messageCount)).sum = s.durableCount + ∑ t, counting (s.calls t)

structure Stored (r : Replication) (s : DurableCompletion n) : Prop where
  alone : ∀ t t', (s.calls t).storing → (s.calls t').storing → t = t'
  stored : ∀ t v cells delta, s.calls t = .store v cells delta →
    v + 1 = s.durableCount ∧ ∀ c ∈ r.cells, c ∈ cells ∨ s.done c = some v
  bounded : ∀ c ∈ r.cells, doneCount (s.done c) ≤ s.durableCount
  settled : (∀ t, (s.calls t).storing = false) → ∀ c ∈ r.cells, doneCount (s.done c) = s.durableCount

def Positive : DurableCall → Prop
  | .record _ batch => 0 < batch.messageCount
  | .count messages _ => 0 < messages
  | _ => True

structure Ok (r : Replication) (s : DurableCompletion n) : Prop where
  counted : ∃ out, s.Counted out
  stored : s.Stored r
  positive : ∀ t, Positive (s.calls t)

theorem Counted.contiguous {out : List (Nat × DurableBatch)} (h : s.Counted out) :
    ContiguousTo s.durable s.frontier.nextSequence (s.durableCount + ∑ t, counting (s.calls t)) := by
  have hpositions := h.tracks.chain.positions
  rw [Nat.sub_zero, ← range_eq_range'] at hpositions
  have hseen : ∀ p ∈ out, s.durable.lookup p.1 = some p.2 := fun p hp => h.tracks.chain.seen_of_mem hp
  refine ⟨fun j hj => h.tracks.isSome_of_lt hj, h.gap, ?_⟩
  · rw [← h.total, ← hpositions, map_map]
    refine congrArg List.sum (map_congr_left fun p hp => ?_)
    rw [Function.comp_apply, hseen p hp]
    rfl

theorem Counted.releases {out : List (Nat × DurableBatch)} (h : s.Counted out) : s.frontier.Releases s.durable out :=
  ⟨h.tracks, h.gap⟩

variable {c : DurableCall} {t : Fin n} {delta : List (Nat × Nat)} {v : Nat}

theorem counting_record {k : Nat} {b : DurableBatch} (hcall : s.calls t = .record k b) (c : DurableCall) :
    (∑ u, counting (update s.calls t c u)) = (∑ u, counting (s.calls u)) + counting c := by
  have hsum := Carried.sum_update counting s.calls t c
  rw [hcall] at hsum
  exact hsum

theorem Counted.record {out : List (Nat × DurableBatch)} (h : s.Counted out) {k : Nat} {b : DurableBatch}
    (hb : 0 < b.messageCount) (hcall : s.calls t = .record k b) : ∃ out', (s.record t k b).Counted out' := by
  rw [DurableCompletion.record]
  dsimp only
  cases hrecord : s.frontier.record k b with
  | none =>
    have hsome := h.releases.refused hb hrecord
    have hsame := Contiguous.lookup_concat_of_isSome hsome b
    refine ⟨out, ⟨?_, ?_, ?_⟩⟩
    · dsimp only [setCall]
      rw [hsame]
      exact h.tracks
    · exact (congrFun hsame _).trans h.gap
    · dsimp only [setCall]
      rw [h.total, counting_record hcall]
      rfl
  | some result =>
    obtain ⟨f, batches⟩ := result
    obtain ⟨new, rfl, htracks, hgap⟩ := h.releases.accepted hrecord
    refine ⟨out ++ new, ⟨htracks, hgap, ?_⟩⟩
    dsimp only [setCall]
    rw [map_append, sum_append, h.total, counting_record hcall, map_map]
    have hcount : counting (if ((new.map Prod.snd).map (·.messageCount)).sum = 0 then .idle
        else .count ((new.map Prod.snd).map (·.messageCount)).sum (perClientDelta (new.map Prod.snd))) =
          (new.map fun p => p.2.messageCount).sum := by
      rw [map_map]
      split
      next hzero => exact hzero.symm
      · rfl
    rw [map_map] at hcount
    rw [hcount, Nat.add_assoc]

theorem Stored.setCall (h : s.Stored r) (hold : (s.calls t).storing = false) (hnew : c.storing = false)
    (hcalls : s'.calls = update s.calls t c) (hdone : s'.done = s.done) (hcount : s'.durableCount = s.durableCount) :
    s'.Stored r := by
  have hstoring : ∀ u, (s'.calls u).storing = (s.calls u).storing := by
    intro u
    rw [hcalls, update_apply]
    split
    next hu => rw [hu, hold, hnew]
    · rfl
  refine ⟨fun u u' hu hu' => ?_, fun u v cells delta hu => ?_, ?_, fun hidle => ?_⟩
  · rw [hstoring] at hu hu'
    exact h.alone u u' hu hu'
  · rw [hcalls, update_apply] at hu
    split at hu
    · rw [hu] at hnew
      cases hnew
    · rw [hcount, hdone]
      exact h.stored u v cells delta hu
  · rw [hcount, hdone]
    exact h.bounded
  · rw [hcount, hdone]
    exact h.settled fun u => (hstoring u).symm.trans (hidle u)

theorem positive_update (h : ∀ t, Positive (s.calls t)) (hc : Positive c) (u : Fin n) :
    Positive (update s.calls t c u) := by
  rw [update_apply]
  split
  · exact hc
  · exact h u

theorem Counted.setCall {out : List (Nat × DurableBatch)} (h : s.Counted out) (hold : counting (s.calls t) = 0)
    (hnew : counting c = 0) : (s.setCall t c).Counted out := by
  have hsum := Carried.sum_update counting s.calls t c
  rw [hold, hnew] at hsum
  exact ⟨h.tracks, h.gap, h.total.trans (congrArg (s.durableCount + ·) hsum.symm)⟩

theorem Stored.fetchAdd (h : s.Stored r) {m : Nat} (hm : 0 < m) (hidle : ∀ t, (s.calls t).storing = false) :
    Stored r { s.setCall t (.store (s.durableCount + m - 1) r.cells delta) with
      durableCount := s.durableCount + m } := by
  have honly : ∀ u, (update s.calls t (.store (s.durableCount + m - 1) r.cells delta) u).storing = true → u = t := by
    intro u hu
    by_contra hne
    rw [Function.update_of_ne hne, hidle u] at hu
    cases hu
  refine ⟨fun u u' hu hu' => (honly u hu).trans (honly u' hu').symm, fun u v cells delta' hu => ?_, fun c hc => ?_,
    fun hnone => ?_⟩
  · cases honly u (congrArg DurableCall.storing hu)
    dsimp only [DurableCompletion.setCall] at hu
    rw [update_self] at hu
    cases hu
    exact ⟨by dsimp only; omega, fun c hc => .inl hc⟩
  · exact (h.settled hidle c hc).le.trans (Nat.le_add_right _ _)
  · have htrue := hnone t
    dsimp only [DurableCompletion.setCall] at htrue
    rw [update_self] at htrue
    cases htrue

theorem Stored.store (h : s.Stored r) {c : DoneCell} {cells : List DoneCell}
    (hcall : s.calls t = .store v (c :: cells) delta) :
    Stored r { s.setCall t (.store v cells delta) with done := update s.done c (some v) } := by
  obtain ⟨hv, hcells⟩ := h.stored t v _ delta hcall
  have hstoring : ∀ u, (update s.calls t (.store v cells delta) u).storing = (s.calls u).storing := by
    intro u
    rw [update_apply]
    split
    next hu =>
      rw [hu, hcall]
      rfl
    · rfl
  refine ⟨fun u u' hu hu' => ?_, fun u v' cells' delta' hu => ?_, fun c' hc' => ?_, fun hnone => ?_⟩
  · exact h.alone u u' ((hstoring u).symm.trans hu) ((hstoring u').symm.trans hu')
  · have heq : u = t := h.alone u t ((hstoring u).symm.trans (congrArg DurableCall.storing hu)) (by rw [hcall]; rfl)
    cases heq
    dsimp only [DurableCompletion.setCall] at hu ⊢
    rw [update_self] at hu
    cases hu
    refine ⟨hv, fun c' hc' => ?_⟩
    rw [update_apply]
    split
    · exact .inr rfl
    next hne => exact (hcells c' hc').imp_left fun hmem => (mem_cons.mp hmem).resolve_left hne
  · dsimp only
    rw [update_apply]
    split
    · exact hv.le
    · exact h.bounded c' hc'
  · have htrue := (hstoring t).symm.trans (hnone t)
    rw [hcall] at htrue
    cases htrue

theorem Stored.finish (h : s.Stored r) (hcall : s.calls t = .store v [] delta) :
    (s.setCall t (.credit delta)).Stored r := by
  obtain ⟨hv, hcells⟩ := h.stored t v _ delta hcall
  have hnot : ∀ u, (update s.calls t (.credit delta) u).storing = false := by
    intro u
    rw [update_apply]
    split
    · rfl
    next hne =>
      rw [Bool.eq_false_iff]
      exact fun hu => hne (h.alone u t hu (by rw [hcall]; rfl))
  refine ⟨fun u _ hu => ?_, fun u v' cells delta' hu => ?_, h.bounded, fun _ c hc => ?_⟩
  · cases (hnot u).symm.trans hu
  · cases (hnot u).symm.trans (congrArg DurableCall.storing hu)
  · have hlast := (hcells c hc).resolve_left not_mem_nil
    exact (congrArg doneCount hlast).trans hv

theorem record_eq (s : DurableCompletion n) (t : Fin n) (k : Nat) (b : DurableBatch) :
    ∃ f c, s.record t k b =
        { s with frontier := f, durable := s.durable ++ [(k, b)], calls := update s.calls t c } ∧
      c.storing = false ∧ Positive c := by
  rw [record]
  dsimp only
  cases s.frontier.record k b with
  | none => exact ⟨_, .idle, rfl, rfl, trivial⟩
  | some result =>
    refine ⟨result.1, _, rfl, ?_⟩
    split
    · exact ⟨rfl, trivial⟩
    · exact ⟨rfl, Nat.pos_of_ne_zero ‹_›⟩

theorem Ok.step (h : s.Ok r) (hk : s.OneStorer e) (hstep : s.step r e = some s') : s'.Ok r := by
  obtain ⟨out, hcounted⟩ := h.counted
  cases e with
  | call t k b =>
    obtain ⟨hidle, rfl⟩ := Runs.of_guard hstep
    refine ⟨⟨out, hcounted.setCall (by rw [hidle]; rfl) rfl⟩, h.stored.setCall (by rw [hidle]; rfl) rfl rfl rfl rfl, ?_⟩
    exact positive_update h.positive hk
  | record t =>
    rw [DurableCompletion.step] at hstep
    split at hstep
    next k b hcall =>
      cases hstep
      have hb : 0 < b.messageCount := by
        have := h.positive t
        rwa [hcall] at this
      obtain ⟨f, c, heq, hstoring, hpositive⟩ := record_eq s t k b
      have hcounted := hcounted.record hb hcall
      rw [heq] at hcounted ⊢
      exact ⟨hcounted, h.stored.setCall (by rw [hcall]; rfl) hstoring rfl rfl rfl, positive_update h.positive hpositive⟩
    · cases hstep
  | fetchAdd t =>
    rw [DurableCompletion.step] at hstep
    split at hstep
    next m delta hcall =>
      cases hstep
      have hm : 0 < m := by
        have := h.positive t
        rwa [hcall] at this
      refine ⟨⟨out, hcounted.tracks, hcounted.gap, ?_⟩, h.stored.fetchAdd hm hk, positive_update h.positive trivial⟩
      have hsum := Carried.sum_update counting s.calls t (.store (s.durableCount + m - 1) r.cells delta)
      rw [hcall] at hsum
      rw [hcounted.total]
      dsimp only [setCall, counting] at hsum ⊢
      omega
    · cases hstep
  | store t =>
    rw [DurableCompletion.step] at hstep
    split at hstep
    next v delta hcall =>
      cases hstep
      exact ⟨⟨out, hcounted.setCall (by rw [hcall]; rfl) rfl⟩, h.stored.finish hcall,
        positive_update h.positive trivial⟩
    next v c cells delta hcall =>
      cases hstep
      have hset := hcounted.setCall (t := t) (c := .store v cells delta) (by rw [hcall]; rfl) rfl
      exact ⟨⟨out, hset.tracks, hset.gap, hset.total⟩, h.stored.store hcall, positive_update h.positive trivial⟩
    · cases hstep
  | credit t =>
    rw [DurableCompletion.step] at hstep
    split at hstep
    next hcall =>
      cases hstep
      exact ⟨⟨out, hcounted.setCall (by rw [hcall]; rfl) rfl⟩,
        h.stored.setCall (by rw [hcall]; rfl) rfl rfl rfl rfl, positive_update h.positive trivial⟩
    next client count delta hcall =>
      cases hstep
      have hset := hcounted.setCall (t := t) (c := .credit delta) (by rw [hcall]; rfl) rfl
      exact ⟨⟨out, hset.tracks, hset.gap, hset.total⟩,
        h.stored.setCall (c := .credit delta) (by rw [hcall]; rfl) rfl rfl rfl rfl, positive_update h.positive trivial⟩
    · cases hstep

theorem ok_start (r : Replication) : ({} : DurableCompletion n).Ok r where
  counted := ⟨[], .nil _, rfl, by simp [counting]⟩
  stored := ⟨nofun, nofun, fun _ _ => Nat.le_refl 0, fun _ _ _ => rfl⟩
  positive _ := trivial

theorem Ok.forward (h : s.Ok r) (hstep : s.step r e = some s') {c : DoneCell} (hc : c ∈ r.cells) :
    doneCount (s.done c) ≤ doneCount (s'.done c) := by
  cases e with
  | call t k b =>
    obtain ⟨-, rfl⟩ := Runs.of_guard hstep
    exact Nat.le_refl _
  | record t =>
    rw [DurableCompletion.step] at hstep
    split at hstep
    next k b _ =>
      cases hstep
      obtain ⟨f, c, heq, -⟩ := record_eq s t k b
      rw [heq]
    · cases hstep
  | store t =>
    rw [DurableCompletion.step] at hstep
    split at hstep
    · cases hstep
      exact Nat.le_refl _
    next v c' cells delta hcall =>
      cases hstep
      dsimp only
      rw [update_apply]
      split
      next heq => exact (h.stored.bounded c hc).trans (h.stored.stored t v _ delta hcall).1.ge
      · exact Nat.le_refl _
    · cases hstep
  | fetchAdd t | credit t =>
    rw [DurableCompletion.step] at hstep
    repeat' split at hstep
    all_goals cases hstep
    all_goals exact Nat.le_refl _

/-- As long as no call counts its messages while another one is storing, every `replication_done` of
the replication set only grows, stays within the contiguously durable messages and reaches them
whenever no call is in progress. -/
theorem durable_frontier_exact (hrun : Runs.Along (step r) OneStorer ({} : DurableCompletion n) es s) :
    ∃ k total, ContiguousTo s.durable k total ∧
      (∀ c ∈ r.cells, doneCount (s.done c) ≤ total) ∧
      ((∀ t, s.calls t = .idle) → ∀ c ∈ r.cells, doneCount (s.done c) = total) ∧
      ∀ {e s'}, s.step r e = some s' → ∀ c ∈ r.cells, doneCount (s.done c) ≤ doneCount (s'.done c) := by
  have hok : s.Ok r := hrun.invariant (fun _ _ _ hk hstep h => h.step hk hstep) (ok_start r)
  obtain ⟨out, hcounted⟩ := hok.counted
  refine ⟨_, _, hcounted.contiguous, fun c hc => ?_, fun hidle c hc => ?_, fun hstep c hc => hok.forward hstep hc⟩
  · exact (hok.stored.bounded c hc).trans (Nat.le_add_right _ _)
  · have hzero : (∑ t, counting (s.calls t)) = 0 := Finset.sum_eq_zero fun t _ => by rw [hidle t]; rfl
    rw [hzero]
    exact hok.stored.settled (fun t => by rw [hidle t]; rfl) c hc

section Scenario

def twoReplicas : Replication := ⟨⟨0, 2, 3⟩, false⟩

theorem durable_frontier_exact_reversedRun : ∃ s : DurableCompletion 2,
    Runs.Along (step twoReplicas) OneStorer {}
      [.call 0 1 ⟨3, 7⟩, .record 0, .call 1 0 ⟨2, 7⟩, .record 1, .fetchAdd 1, .store 1, .store 1, .store 1, .credit 1,
        .credit 1] s ∧
      s.done (.tinode 1) = some 4 ∧ ∃ k, ContiguousTo s.durable k 5 := by
  refine Runs.exists_of_exec (fun s : DurableCompletion 2 => (s.done (.tinode 1), decide (∀ t, s.calls t = .idle)))
    (some 4, true) (by decide +kernel) fun s hrun ha => ?_
  obtain ⟨hdone, hidle⟩ := Prod.mk.inj ha
  obtain ⟨k, total, hcontiguous, -, hquiet, -⟩ := durable_frontier_exact hrun
  have htotal := hquiet (of_decide_eq_true hidle) (.tinode 1) (by decide)
  rw [hdone] at htotal
  cases htotal
  exact ⟨hdone, k, hcontiguous⟩

/-- Both calls count, the later one stores first: the other one then stores its smaller offset. -/
theorem durable_frontier_regresses : ∃ s : DurableCompletion 2,
    Runs.Along (step twoReplicas) (fun _ _ => True) {}
      [.call 0 0 ⟨2, 7⟩, .call 1 1 ⟨3, 7⟩, .record 0, .record 1, .fetchAdd 0, .fetchAdd 1, .store 1, .store 1, .store 1,
        .credit 1, .credit 1, .store 0, .store 0, .store 0, .credit 0, .credit 0] s ∧
      (∀ t, s.calls t = .idle) ∧ s.done (.tinode 1) = some 1 ∧ ContiguousTo s.durable 2 5 := by
  refine Runs.exists_of_exec (fun s : DurableCompletion 2 =>
    (decide (∀ t, s.calls t = .idle), s.done (.tinode 1), s.durable))
    (true, some 1, [(0, ⟨2, 7⟩), (1, ⟨3, 7⟩)]) (by decide +kernel) fun s hrun ha => ?_
  simp only [Prod.mk.injEq] at ha
  obtain ⟨hidle, hdone, hdurable⟩ := ha
  refine ⟨of_decide_eq_true hidle, hdone, ?_⟩
  rw [hdurable]
  exact ⟨by decide, rfl, rfl⟩

end Scenario

end DurableCompletion

end Embarcadero.Corfu
