import Embarcadero.Lib.Carried
import Embarcadero.Lib.Runs
import Embarcadero.Lib.Shares
import Embarcadero.ReplicationSet

namespace Embarcadero

open Function (update update_apply)
open List
open Shares (share)

structure DurableQueue.DurableBatch where
  endLogicalCount : Nat
  perClientDelta : List (Nat × Nat)
  deriving DecidableEq

inductive QueueCall
  | idle
  | visible (batch : DurableQueue.DurableBatch) (todo : List (Nat × Nat))
  | sample (i readyReplicas : Nat) (minRep : Option Nat)
  | pop (durableFrontier : Nat)
  | credit (todo : List (Nat × Nat))
  deriving DecidableEq

/-- The queue with the ledgers and the replicas' progress, `none` being `kReplicationNotStarted`.  The last three record
what has been enqueued, what has been taken, and the frontier of each drain with what was enqueued then. -/
structure DurableQueue (n : Nat) where
  done : Nat → Option Nat := fun _ => none
  durablePending : List DurableQueue.DurableBatch := []
  perClientOrdered : Nat → Nat := fun _ => 0
  perClientDurable : Nat → Nat := fun _ => 0
  calls : Fin n → QueueCall := fun _ => .idle
  enqueued : List DurableQueue.DurableBatch := []
  taken : List DurableQueue.DurableBatch := []
  drains : List (Nat × Nat) := []

inductive QueueEvent (n : Nat)
  | publish (t : Fin n) (batch : DurableQueue.DurableBatch)
  | drain (t : Fin n)
  | turn (t : Fin n)
  | replicate (b lastOffset : Nat)

namespace DurableQueue

variable {n : Nat}

def setCall (s : DurableQueue n) (t : Fin n) (c : QueueCall) : DurableQueue n := { s with calls := update s.calls t c }

def drainDurableBatches (r : ReplicationSet) : QueueCall :=
  if r.replicationFactor = 0 then .idle else .sample 0 0 none

def sample (r : ReplicationSet) (done : Nat → Option Nat) (i readyReplicas : Nat) (minRep : Option Nat) : QueueCall :=
  if i < r.replicationFactor then
    match done (r.broker i) with
    | none => .sample (i + 1) readyReplicas minRep
    | some v => .sample (i + 1) (readyReplicas + 1) (some (minRep.elim v (min v)))
  else
    match minRep with
    | none => .idle
    | some v => if readyReplicas < r.replicationFactor then .idle else .pop (v + 1)

def turn (r : ReplicationSet) (s : DurableQueue n) (t : Fin n) : Option (DurableQueue n) :=
  match s.calls t with
  | .idle => none
  | .visible batch ((client, count) :: todo) =>
    some { s.setCall t (.visible batch todo) with
      perClientOrdered := update s.perClientOrdered client (s.perClientOrdered client + count) }
  | .visible batch [] =>
    if r.replicationFactor = 0 ∨ batch.perClientDelta = [] then some (s.setCall t (drainDurableBatches r))
    else some { s.setCall t (drainDurableBatches r) with
      durablePending := s.durablePending ++ [batch], enqueued := s.enqueued ++ [batch] }
  | .sample i readyReplicas minRep => some (s.setCall t (sample r s.done i readyReplicas minRep))
  | .pop durableFrontier =>
    let ready := s.durablePending.takeWhile (·.endLogicalCount ≤ durableFrontier)
    some { s.setCall t (.credit (ready.flatMap (·.perClientDelta))) with
      durablePending := s.durablePending.dropWhile (·.endLogicalCount ≤ durableFrontier)
      taken := s.taken ++ ready
      drains := s.drains ++ [(durableFrontier, s.enqueued.length)] }
  | .credit ((client, count) :: todo) =>
    some { s.setCall t (.credit todo) with
      perClientDurable := update s.perClientDurable client (s.perClientDurable client + count) }
  | .credit [] => some (s.setCall t .idle)

def step (r : ReplicationSet) (s : DurableQueue n) : QueueEvent n → Option (DurableQueue n)
  | .publish t batch => if s.calls t = .idle then some (s.setCall t (.visible batch batch.perClientDelta)) else none
  | .drain t => if s.calls t = .idle then some (s.setCall t (drainDurableBatches r)) else none
  | .turn t => s.turn r t
  | .replicate b lastOffset =>
    if doneCount (s.done b) ≤ lastOffset + 1 then some { s with done := update s.done b (some lastOffset) } else none

def enqueuing : QueueCall → Option DurableBatch
  | .visible batch [] => some batch
  | _ => none

def Increasing (s : DurableQueue n) : QueueEvent n → Prop
  | .turn t => ∀ batch ∈ enqueuing (s.calls t), ∀ b ∈ s.enqueued, b.endLogicalCount ≤ batch.endLogicalCount
  | _ => True

instance (s : DurableQueue n) : (e : QueueEvent n) → Decidable (s.Increasing e)
  | .turn t => inferInstanceAs (Decidable (∀ batch ∈ enqueuing (s.calls t), _))
  | .publish .. | .drain _ | .replicate .. => isTrue trivial

def deltas (l : List DurableBatch) : List (Nat × Nat) := l.flatMap (·.perClientDelta)

def crediting : QueueCall → List (Nat × Nat)
  | .credit todo => todo
  | _ => []

def announcing : QueueCall → List (Nat × Nat)
  | .visible _ todo => todo
  | _ => []

def announced : QueueCall → List (Nat × Nat)
  | .visible batch _ => batch.perClientDelta
  | _ => []

structure Ledgers (s : DurableQueue n) : Prop where
  durable : ∀ client, s.perClientDurable client + ∑ t, share client (crediting (s.calls t)) =
    share client (deltas s.taken)
  ordered : ∀ client, share client (deltas s.enqueued) + ∑ t, share client (announced (s.calls t)) ≤
    s.perClientOrdered client + ∑ t, share client (announcing (s.calls t))
  begun : ∀ t, ∀ client, share client (announcing (s.calls t)) ≤ share client (announced (s.calls t))

structure Queued (r : ReplicationSet) (s : DurableQueue n) : Prop where
  queue : s.enqueued = s.taken ++ s.durablePending
  sorted : s.enqueued.Pairwise (·.endLogicalCount ≤ ·.endLogicalCount)
  covered : ∀ b ∈ s.taken, ∀ i < r.replicationFactor, b.endLogicalCount ≤ doneCount (s.done (r.broker i))
  drained : ∀ d ∈ s.drains, d.2 ≤ s.enqueued.length ∧
    ∀ b ∈ (s.enqueued.take d.2).drop s.taken.length, d.1 < b.endLogicalCount

def Sampled (r : ReplicationSet) (done : Nat → Option Nat) : QueueCall → Prop
  | .sample i readyReplicas minRep => i ≤ r.replicationFactor ∧ readyReplicas ≤ i ∧
      (readyReplicas = i → ∀ j < i, ∃ v ∈ minRep, v + 1 ≤ doneCount (done (r.broker j)))
  | .pop durableFrontier => ∀ j < r.replicationFactor, durableFrontier ≤ doneCount (done (r.broker j))
  | _ => True

structure Ok (r : ReplicationSet) (s : DurableQueue n) : Prop where
  ledgers : s.Ledgers
  queued : s.Queued r
  sampled : ∀ t, Sampled r s.done (s.calls t)

variable {r : ReplicationSet} {s s' : DurableQueue n} {e : QueueEvent n} {es : List (QueueEvent n)} {t : Fin n}
  {c : QueueCall}

theorem Ledgers.move (h : s.Ledgers) (hcalls : s'.calls = update s.calls t c)
    (hdurable : ∀ client, s'.perClientDurable client + share client (crediting c) + share client (deltas s.taken) =
      s.perClientDurable client + share client (crediting (s.calls t)) + share client (deltas s'.taken))
    (hordered : ∀ client, share client (deltas s'.enqueued) + share client (announced c) +
      s.perClientOrdered client + share client (announcing (s.calls t)) ≤
        share client (deltas s.enqueued) + share client (announced (s.calls t)) +
          s'.perClientOrdered client + share client (announcing c))
    (hbegun : ∀ client, share client (announcing c) ≤ share client (announced c)) : s'.Ledgers := by
  refine ⟨fun client => ?_, fun client => ?_, fun u => ?_⟩
  · have hsum := Carried.sum_update (fun c => share client (crediting c)) s.calls t c
    rw [hcalls]
    have := h.durable client
    have := hdurable client
    omega
  · have hsum := Carried.sum_update (fun c => share client (announced c)) s.calls t c
    have hsum' := Carried.sum_update (fun c => share client (announcing c)) s.calls t c
    rw [hcalls]
    have := h.ordered client
    have := hordered client
    omega
  · rw [hcalls, update_apply]
    split
    · exact hbegun
    · exact h.begun u

theorem Ledgers.setCall (h : s.Ledgers)
    (hold : crediting (s.calls t) = [] ∧ announced (s.calls t) = announcing (s.calls t))
    (hnew : crediting c = [] ∧ announced c = announcing c) : (s.setCall t c).Ledgers := by
  refine h.move rfl (fun client => ?_) (fun client => ?_) fun client => Nat.le_of_eq (by rw [hnew.2])
  · rw [hold.1, hnew.1]
    rfl
  · rw [hold.2, hnew.2]
    exact Nat.le_of_eq (by dsimp only [DurableQueue.setCall]; omega)

theorem sampled_setCall (h : ∀ t, Sampled r s.done (s.calls t)) (hc : Sampled r s.done c) (u : Fin n) :
    Sampled r s.done (update s.calls t c u) := by
  rw [update_apply]
  split
  · exact hc
  · exact h u

theorem Sampled.mono {done done' : Nat → Option Nat} (h : Sampled r done c)
    (hle : ∀ b, doneCount (done b) ≤ doneCount (done' b)) : Sampled r done' c := by
  cases c with
  | sample i readyReplicas minRep =>
    refine ⟨h.1, h.2.1, fun hall j hj => ?_⟩
    obtain ⟨v, hv, hcount⟩ := h.2.2 hall j hj
    exact ⟨v, hv, hcount.trans (hle _)⟩
  | pop durableFrontier => exact fun j hj => (h j hj).trans (hle _)
  | idle => trivial
  | visible batch todo => trivial
  | credit todo => trivial

theorem sampled_drainDurableBatches (r : ReplicationSet) (done : Nat → Option Nat) :
    Sampled r done (drainDurableBatches r) := by
  rw [drainDurableBatches]
  split
  · trivial
  · exact ⟨Nat.zero_le _, Nat.le_refl _, fun _ j hj => absurd hj (Nat.not_lt_zero j)⟩

theorem Sampled.sample {done : Nat → Option Nat} {i readyReplicas : Nat} {minRep : Option Nat}
    (h : Sampled r done (.sample i readyReplicas minRep)) :
    Sampled r done (DurableQueue.sample r done i readyReplicas minRep) := by
  obtain ⟨hi, hready, hmin⟩ := h
  rw [DurableQueue.sample.eq_def]
  split
  next hlt =>
    split
    · exact ⟨hlt, Nat.le_succ_of_le hready, fun hall => absurd hall (by omega)⟩
    next v hv =>
      have hcount : doneCount (done (r.broker i)) = v + 1 := by rw [hv]; rfl
      refine ⟨hlt, Nat.succ_le_succ hready, fun hall j hj => ⟨_, rfl, ?_⟩⟩
      rcases Nat.lt_succ_iff_lt_or_eq.mp hj with hj | rfl
      · obtain ⟨m, hm, hle⟩ := hmin (Nat.succ.inj hall) j hj
        cases hm
        exact (Nat.succ_le_succ (Nat.min_le_right v m)).trans hle
      · rw [hcount]
        cases minRep with
        | none => exact Nat.le_refl _
        | some m => exact Nat.succ_le_succ (Nat.min_le_left v m)
  next hend =>
    split
    · trivial
    next v =>
      split
      · trivial
      next hall =>
        intro j hj
        obtain ⟨w, hw, hle⟩ := hmin (by omega) j (by omega)
        cases hw
        exact hle

theorem lt_of_mem_dropWhile {l : List DurableBatch} (hsorted : l.Pairwise (·.endLogicalCount ≤ ·.endLogicalCount))
    {durableFrontier : Nat} {b : DurableBatch} (hb : b ∈ l.dropWhile (·.endLogicalCount ≤ durableFrontier)) :
    durableFrontier < b.endLogicalCount := by
  induction l with
  | nil => cases hb
  | cons a l ih =>
    obtain ⟨ha, hl⟩ := pairwise_cons.mp hsorted
    rw [dropWhile_cons] at hb
    split at hb
    · exact ih hl hb
    next hlt =>
      rw [decide_eq_true_eq, Nat.not_le] at hlt
      cases hb with
      | head => exact hlt
      | tail _ hb => exact hlt.trans_le (ha b hb)

theorem Queued.pop (h : s.Queued r) {durableFrontier : Nat}
    (hfrontier : ∀ j < r.replicationFactor, durableFrontier ≤ doneCount (s.done (r.broker j)))
    (henqueued : s'.enqueued = s.enqueued) (hdone : s'.done = s.done)
    (hpending : s'.durablePending = s.durablePending.dropWhile (·.endLogicalCount ≤ durableFrontier))
    (htaken : s'.taken = s.taken ++ s.durablePending.takeWhile (·.endLogicalCount ≤ durableFrontier))
    (hdrains : s'.drains = s.drains ++ [(durableFrontier, s.enqueued.length)]) : s'.Queued r := by
  have hqueue : s'.enqueued = s'.taken ++ s'.durablePending := by
    rw [henqueued, htaken, hpending, append_assoc, takeWhile_append_dropWhile, h.queue]
  refine ⟨hqueue, henqueued ▸ h.sorted, fun b hb i hi => ?_, fun d hd => ?_⟩
  · rw [hdone]
    rw [htaken] at hb
    cases mem_append.mp hb with
    | inl hb => exact h.covered b hb i hi
    | inr hb =>
      have hle := mem_takeWhile_imp hb
      exact (of_decide_eq_true hle).trans (hfrontier i hi)
  · rw [hdrains] at hd
    rw [henqueued]
    cases mem_append.mp hd with
    | inl hd =>
      refine ⟨(h.drained d hd).1, fun b hb => (h.drained d hd).2 b ?_⟩
      rw [htaken, length_append, ← drop_drop] at hb
      exact mem_of_mem_drop hb
    | inr hd =>
      cases mem_singleton.mp hd
      refine ⟨Nat.le_refl _, fun b hb => ?_⟩
      rw [take_length, ← henqueued, hqueue, drop_left, hpending] at hb
      have hsorted := h.sorted
      rw [h.queue, pairwise_append] at hsorted
      exact lt_of_mem_dropWhile hsorted.2.1 hb

theorem Queued.enqueue (h : s.Queued r) {batch : DurableBatch}
    (hlast : ∀ b ∈ s.enqueued, b.endLogicalCount ≤ batch.endLogicalCount) (hdone : s'.done = s.done)
    (htaken : s'.taken = s.taken) (hdrains : s'.drains = s.drains) (henqueued : s'.enqueued = s.enqueued ++ [batch])
    (hpending : s'.durablePending = s.durablePending ++ [batch]) : s'.Queued r := by
  refine ⟨?_, ?_, fun b hb => ?_, fun d hd => ?_⟩
  · rw [henqueued, htaken, hpending, ← append_assoc, h.queue]
  · rw [henqueued, pairwise_append]
    refine ⟨h.sorted, pairwise_singleton _ _, fun b hb b' hb' => ?_⟩
    rw [mem_singleton.mp hb']
    exact hlast b hb
  · rw [hdone]
    exact h.covered b (htaken ▸ hb)
  · obtain ⟨hle, hbeyond⟩ := h.drained d (hdrains ▸ hd)
    rw [henqueued, htaken, take_append_of_le_length hle, length_append]
    exact ⟨Nat.le_add_right_of_le hle, hbeyond⟩

theorem share_nil (client : Nat) : share client ([] : List (Nat × Nat)) = 0 := rfl

theorem share_todo (ledger : Nat → Nat) (client client' count : Nat) (todo : List (Nat × Nat)) :
    update ledger client (ledger client + count) client' + share client' todo =
      ledger client' + share client' ((client, count) :: todo) := by
  rw [Shares.share_cons, update_apply]
  dsimp only
  by_cases heq : client' = client
  · rw [if_pos heq, if_pos heq.symm, heq]
    omega
  · rw [if_neg heq, if_neg (Ne.symm heq)]
    omega

theorem drainDurableBatches_carries (r : ReplicationSet) :
    crediting (drainDurableBatches r) = [] ∧ announced (drainDurableBatches r) = [] ∧
      announcing (drainDurableBatches r) = [] := by
  rw [drainDurableBatches]
  split <;> exact ⟨rfl, rfl, rfl⟩

theorem sample_carries (r : ReplicationSet) (done : Nat → Option Nat) (i readyReplicas : Nat) (minRep : Option Nat) :
    crediting (sample r done i readyReplicas minRep) = [] ∧
      announced (sample r done i readyReplicas minRep) = announcing (sample r done i readyReplicas minRep) := by
  rw [sample.eq_def]
  split <;> split <;> first | exact ⟨rfl, rfl⟩ | (split <;> exact ⟨rfl, rfl⟩)

theorem Ok.turn (h : s.Ok r) (hk : s.Increasing (.turn t)) (hstep : s.turn r t = some s') : s'.Ok r := by
  rw [DurableQueue.turn] at hstep
  have hs := h.sampled t
  split at hstep
  · cases hstep
  next batch client count todo hcall =>
    cases hstep
    refine ⟨h.ledgers.move rfl (fun _ => by rw [hcall]; rfl) (fun client' => ?_) (fun client' => ?_),
      { h.queued with }, sampled_setCall h.sampled trivial⟩
    · have := share_todo s.perClientOrdered client client' count todo
      rw [hcall]
      dsimp only [setCall, announced, announcing]
      omega
    · have := h.ledgers.begun t client'
      rw [hcall] at this
      dsimp only [announced, announcing] at this ⊢
      rw [Shares.share_cons] at this
      omega
  next batch hcall =>
    obtain ⟨hcredit, hann, htodo⟩ := drainDurableBatches_carries r
    split at hstep
    · cases hstep
      refine ⟨h.ledgers.move rfl (fun _ => ?_) (fun client => ?_) (fun _ => ?_), { h.queued with },
        sampled_setCall h.sampled (sampled_drainDurableBatches r _)⟩
      · rw [hcall, hcredit]
        rfl
      · rw [hcall, hann, htodo]
        dsimp only [setCall, announcing, share_nil]
        omega
      · rw [hann, htodo]
    · cases hstep
      refine ⟨h.ledgers.move rfl (fun _ => ?_) (fun client => ?_) (fun _ => ?_),
        h.queued.enqueue (hk batch (by rw [hcall]; rfl)) rfl rfl rfl rfl rfl,
          sampled_setCall h.sampled (sampled_drainDurableBatches r _)⟩
      · rw [hcall, hcredit]
        rfl
      · rw [hcall, hann, htodo]
        dsimp only [setCall, announced, announcing, deltas]
        rw [flatMap_append, Shares.share_append, flatMap_cons, flatMap_nil, append_nil, share_nil]
        omega
      · rw [hann, htodo]
  next i readyReplicas minRep hcall =>
    cases hstep
    rw [hcall] at hs
    exact ⟨h.ledgers.setCall (by rw [hcall]; exact ⟨rfl, rfl⟩) (sample_carries ..), { h.queued with },
      sampled_setCall h.sampled hs.sample⟩
  next durableFrontier hcall =>
    cases hstep
    rw [hcall] at hs
    refine ⟨h.ledgers.move rfl (fun client => ?_) (fun client => ?_) (fun _ => Nat.le_refl _),
      h.queued.pop hs rfl rfl rfl rfl rfl, sampled_setCall h.sampled trivial⟩
    · rw [hcall]
      dsimp only [setCall, crediting, deltas]
      rw [flatMap_append, Shares.share_append, share_nil]
      omega
    · rw [hcall]
      exact Nat.le_refl _
  next client count todo hcall =>
    cases hstep
    refine ⟨h.ledgers.move rfl (fun client' => ?_) (fun _ => by rw [hcall]; exact Nat.le_refl _)
      (fun _ => Nat.le_refl _),
      { h.queued with }, sampled_setCall h.sampled trivial⟩
    have := share_todo s.perClientDurable client client' count todo
    rw [hcall]
    dsimp only [setCall, crediting]
    omega
  next hcall =>
    cases hstep
    exact ⟨h.ledgers.setCall (by rw [hcall]; exact ⟨rfl, rfl⟩) ⟨rfl, rfl⟩, { h.queued with },
      sampled_setCall h.sampled trivial⟩

theorem Ok.step (h : s.Ok r) (hk : s.Increasing e) (hstep : s.step r e = some s') : s'.Ok r := by
  cases e with
  | publish t batch =>
    obtain ⟨hidle, rfl⟩ := Runs.of_guard hstep
    exact ⟨h.ledgers.setCall (by rw [hidle]; exact ⟨rfl, rfl⟩) ⟨rfl, rfl⟩, { h.queued with },
      sampled_setCall h.sampled trivial⟩
  | drain t =>
    obtain ⟨hidle, rfl⟩ := Runs.of_guard hstep
    obtain ⟨hcredit, hann, htodo⟩ := drainDurableBatches_carries r
    exact ⟨h.ledgers.setCall (by rw [hidle]; exact ⟨rfl, rfl⟩) ⟨hcredit, hann.trans htodo.symm⟩, { h.queued with },
      sampled_setCall h.sampled (sampled_drainDurableBatches r _)⟩
  | turn t => exact h.turn hk hstep
  | replicate b lastOffset =>
    obtain ⟨hle, rfl⟩ := Runs.of_guard hstep
    have hmono : ∀ b', doneCount (s.done b') ≤ doneCount (update s.done b (some lastOffset) b') := by
      intro b'
      rw [update_apply]
      split
      next heq =>
        rw [heq]
        exact hle
      · exact Nat.le_refl _
    exact ⟨{ h.ledgers with },
      { h.queued with covered := fun b hb i hi => (h.queued.covered b hb i hi).trans (hmono _) },
      fun t => (h.sampled t).mono hmono⟩

theorem ok_start (r : ReplicationSet) (n : Nat) : ({} : DurableQueue n).Ok r where
  ledgers := ⟨fun _ => by simp [crediting, deltas, share], fun _ => by simp [announced, announcing, deltas, share],
    fun _ _ => Nat.le_refl _⟩
  queued := ⟨rfl, .nil, nofun, nofun⟩
  sampled _ := trivial

theorem Ledgers.durable_le (h : s.Ledgers) (hqueue : s.enqueued = s.taken ++ s.durablePending) (client : Nat) :
    s.perClientDurable client ≤ s.perClientOrdered client := by
  have hdurable := h.durable client
  have hordered := h.ordered client
  have hbegun : (∑ t, share client (announcing (s.calls t))) ≤ ∑ t, share client (announced (s.calls t)) :=
    Finset.sum_le_sum fun t _ => h.begun t client
  have hsplit : share client (deltas s.enqueued) =
      share client (deltas s.taken) + share client (deltas s.durablePending) := by
    rw [hqueue, deltas, flatMap_append, Shares.share_append]
    rfl
  omega

/-- In every interleaving the batches are taken in order and each once, and the durable ledger has what has been taken,
apart from what threads have still to add.  A batch is taken only if all replicas cover it, a drain leaves none of those
enqueued before it that it covers, and no client has more durable than ordered credit. -/
theorem durable_credit_follows (hrun : Runs.Along (step r) Increasing ({} : DurableQueue n) es s) :
    s.enqueued = s.taken ++ s.durablePending ∧
      (∀ client, s.perClientDurable client + ∑ t, share client (crediting (s.calls t)) =
        share client (deltas s.taken)) ∧
      (∀ b ∈ s.taken, ∀ i < r.replicationFactor, b.endLogicalCount ≤ doneCount (s.done (r.broker i))) ∧
      (∀ d ∈ s.drains, ∀ b ∈ (s.enqueued.take d.2).drop s.taken.length, d.1 < b.endLogicalCount) ∧
      ∀ client, s.perClientDurable client ≤ s.perClientOrdered client := by
  have hok : s.Ok r := hrun.invariant (fun _ _ _ hk hstep h => h.step hk hstep) (ok_start r n)
  exact ⟨hok.queued.queue, hok.ledgers.durable, hok.queued.covered, fun d hd => (hok.queued.drained d hd).2,
    hok.ledgers.durable_le hok.queued.queue⟩

theorem durable_credit_follows_twoDrains : ∃ s : DurableQueue 2,
    Runs.Along (step ⟨0, 2, 3⟩) Increasing {}
      [.replicate 0 9, .replicate 1 4, .publish 0 ⟨5, [(7, 3), (8, 2)]⟩, .turn 0, .turn 0, .drain 1, .turn 0, .turn 1,
        .turn 1, .turn 1, .turn 0, .turn 0, .turn 0, .turn 1, .turn 0, .turn 0, .publish 0 ⟨8, [(7, 3)]⟩, .turn 0,
        .turn 1, .turn 0, .turn 0, .turn 0, .turn 0, .turn 0] s ∧
      s.perClientDurable 7 = 3 ∧ s.durablePending = [⟨8, [(7, 3)]⟩] ∧ s.drains = [(5, 1), (5, 1), (5, 2)] ∧
      s.perClientDurable 7 ≤ s.perClientOrdered 7 := by
  refine Runs.exists_of_exec (fun s : DurableQueue 2 => (s.perClientDurable 7, s.durablePending, s.drains))
    (3, [⟨8, [(7, 3)]⟩], [(5, 1), (5, 1), (5, 2)]) (by decide +kernel) fun s hrun ha => ?_
  obtain ⟨hdurable, hpending, hdrains⟩ : _ ∧ _ ∧ _ := by simpa only [Prod.mk.injEq] using ha
  exact ⟨hdurable, hpending, hdrains, (durable_credit_follows hrun).2.2.2.2 7⟩

end DurableQueue

end Embarcadero
