import Embarcadero.Machine

namespace Embarcadero

open Function (update)

def epochCheckInterval : UInt64 := 100

structure BrokerEpoch where
  brokerEpoch : UInt64 := 0
  lastCheckedEpoch : UInt64 := 0
  epochCheckCounter : UInt64 := 0
  deriving DecidableEq

namespace BrokerEpoch

def refresh (control : UInt64) (b : BrokerEpoch) (forceFullRead : Bool) : (UInt64 × Bool) × BrokerEpoch :=
  if !forceFullRead then ((b.brokerEpoch, false), b)
  else if b.brokerEpoch < control then ((control, true), { b with brokerEpoch := control })
  else ((control, false), b)

def check (control : UInt64) (b : BrokerEpoch) : (UInt64 × Bool) × BrokerEpoch :=
  refresh control { b with epochCheckCounter := b.epochCheckCounter + 1 }
    (b.epochCheckCounter % epochCheckInterval = 0)

def checkEpochOnce (control : UInt64) (b : BrokerEpoch) : BrokerEpoch :=
  let r := b.check control
  { r.2 with lastCheckedEpoch := r.1.1 }

end BrokerEpoch

def epochCreated (currentEpoch : UInt64) : Nat := min currentEpoch.toNat 0xFFFF

structure Examined where
  seen : UInt64
  current : UInt64
  batch : PendingBatch5

/-- The control epoch, the brokers and the sequencer on broker `head`, whose `cached_epoch_` its own
producers write too.  A reserved batch is kept with the epoch its producer saw. -/
structure EpochFencing where
  controlEpoch : UInt64
  brokers : Nat → BrokerEpoch
  cachedEpoch : UInt64 := 0
  reserved : List (UInt64 × PendingBatch5) := []
  examined : List Examined := []

inductive EpochEvent
  | controlEpoch (epoch : UInt64)
  | checkEpochOnce (b : Nat)
  | reserve (b slot : Nat) (h : BatchHeader) (epochAlreadyChecked : Bool)
  | cacheEpoch
  | examine (i : Nat)
  | examineDrain (i : Nat)

namespace EpochFencing

def start (epoch : UInt64) : EpochFencing where
  controlEpoch := epoch
  brokers := fun _ => { brokerEpoch := epoch }

def stamp (s : EpochFencing) (b slot : Nat) (h : BatchHeader) (epoch : UInt64) : EpochFencing :=
  { s with reserved := s.reserved ++ [(epoch, .ofSlot b slot { h with epochCreated := epochCreated epoch })] }

def reserve (head : Nat) (s : EpochFencing) (b slot : Nat) (h : BatchHeader) (epochAlreadyChecked : Bool) :
    EpochFencing :=
  if epochAlreadyChecked then s.stamp b slot h (s.brokers b).lastCheckedEpoch
  else
    let r := (s.brokers b).check s.controlEpoch
    let s := { s with brokers := update s.brokers b r.2 }
    if r.1.2 then s
    else { s.stamp b slot h r.1.1 with cachedEpoch := if b = head then r.1.1 else s.cachedEpoch }

def sequencerEpoch (s : EpochFencing) : UInt64 := if s.cachedEpoch = 0 then s.controlEpoch else s.cachedEpoch

def examine (s : EpochFencing) (seen current : UInt64) (p : PendingBatch5) : EpochFencing :=
  { s with examined := s.examined ++ [⟨seen, current, p.markStale current.toNat⟩] }

def step (head : Nat) (s : EpochFencing) : EpochEvent → Option EpochFencing
  | .controlEpoch epoch => if s.controlEpoch ≤ epoch then some { s with controlEpoch := epoch } else none
  | .checkEpochOnce b =>
    some { s with brokers := update s.brokers b ((s.brokers b).checkEpochOnce s.controlEpoch) }
  | .reserve b slot h checked => some (s.reserve head b slot h checked)
  | .cacheEpoch => some { s with cachedEpoch := s.controlEpoch }
  | .examine i => s.reserved[i]?.map fun r =>
      { s.examine r.1 s.sequencerEpoch r.2 with cachedEpoch := s.sequencerEpoch }
  | .examineDrain i => s.reserved[i]?.map fun r => s.examine r.1 s.controlEpoch r.2

def Fits (seen current : UInt64) : Prop := seen.toNat ≤ 0xFFFF ∧ current.toNat - seen.toNat ≤ 0xFFFF

instance (seen current : UInt64) : Decidable (Fits seen current) := inferInstanceAs (Decidable (_ ∧ _))

def InRange (s : EpochFencing) : EpochEvent → Prop
  | .examine i => ∀ r ∈ s.reserved[i]?, Fits r.1 s.sequencerEpoch
  | .examineDrain i => ∀ r ∈ s.reserved[i]?, Fits r.1 s.controlEpoch
  | _ => True

instance (s : EpochFencing) : (e : EpochEvent) → Decidable (s.InRange e)
  | .examine _ => inferInstanceAs (Decidable (∀ r ∈ _, _))
  | .examineDrain _ => inferInstanceAs (Decidable (∀ r ∈ _, _))
  | .controlEpoch _ | .checkEpochOnce _ | .reserve .. | .cacheEpoch => isTrue trivial

variable {head : Nat} {epoch : UInt64} {s s' : EpochFencing} {e : EpochEvent} {es : List EpochEvent}

def Examined.Exact (x : Examined) : Prop :=
  x.seen ≤ x.current → (x.batch.skipped = true ↔ maxEpochAge < x.current.toNat - x.seen.toNat)

theorem skipped_markStale {p : PendingBatch5} (h : p.skipped = false) (current : Nat) :
    (p.markStale current).skipped = true ↔ maxEpochAge < (current % 2 ^ 16 + 2 ^ 16 - p.epochCreated) % 2 ^ 16 := by
  rw [PendingBatch5.markStale, h]
  split <;> simp_all

structure Stamped (s : EpochFencing) : Prop where
  created : ∀ r ∈ s.reserved, r.2.skipped = false ∧ r.2.epochCreated = epochCreated r.1
  exact : ∀ x ∈ s.examined, Examined.Exact x

theorem Stamped.examine (h : s.Stamped) {seen current : UInt64} {p : PendingBatch5}
    (hp : (seen, p) ∈ s.reserved) (hfits : Fits seen current) : (s.examine seen current p).Stamped := by
  refine ⟨h.created, fun x hx => ?_⟩
  cases List.mem_append.mp hx with
  | inl hx => exact h.exact x hx
  | inr hx =>
    cases List.mem_singleton.mp hx
    intro hle
    obtain ⟨hskipped, hcreated⟩ := h.created _ hp
    dsimp only at hskipped hcreated hle ⊢
    rw [skipped_markStale hskipped, hcreated, epochCreated]
    have hle := UInt64.le_iff_toNat_le.mp hle
    obtain ⟨hseen, hdist⟩ := hfits
    rw [Nat.min_eq_left hseen]
    have hage : (current.toNat % 2 ^ 16 + 2 ^ 16 - seen.toNat) % 2 ^ 16 = current.toNat - seen.toNat := by omega
    rw [hage]

theorem Stamped.stamp (h : s.Stamped) (b slot : Nat) (hdr : BatchHeader) (epoch : UInt64) :
    (s.stamp b slot hdr epoch).Stamped := by
  refine ⟨fun r hr => ?_, h.exact⟩
  cases List.mem_append.mp hr with
  | inl hr => exact h.created r hr
  | inr hr =>
    cases List.mem_singleton.mp hr
    exact ⟨rfl, rfl⟩

theorem Stamped.reserve (h : s.Stamped) (b slot : Nat) (hdr : BatchHeader) (checked : Bool) :
    (s.reserve head b slot hdr checked).Stamped := by
  rw [EpochFencing.reserve]
  split
  · exact h.stamp b slot hdr _
  · dsimp only
    split
    · exact ⟨h.created, h.exact⟩
    · have hstamp := h.stamp b slot hdr ((s.brokers b).check s.controlEpoch).1.1
      exact ⟨hstamp.created, hstamp.exact⟩

theorem Stamped.step (h : s.Stamped) (hin : s.InRange e) (hstep : s.step head e = some s') : s'.Stamped := by
  cases e with
  | controlEpoch epoch =>
    obtain ⟨-, rfl⟩ := Runs.of_guard hstep
    exact ⟨h.created, h.exact⟩
  | checkEpochOnce b =>
    cases hstep
    exact ⟨h.created, h.exact⟩
  | reserve b slot hdr checked =>
    cases hstep
    exact h.reserve b slot hdr checked
  | cacheEpoch =>
    cases hstep
    exact ⟨h.created, h.exact⟩
  | examine i =>
    obtain ⟨⟨seen, p⟩, hr, rfl⟩ := Option.map_eq_some_iff.mp hstep
    have hexamine := h.examine (List.mem_of_getElem? hr) (hin _ hr)
    exact ⟨hexamine.created, hexamine.exact⟩
  | examineDrain i =>
    obtain ⟨⟨seen, p⟩, hr, rfl⟩ := Option.map_eq_some_iff.mp hstep
    exact h.examine (List.mem_of_getElem? hr) (hin _ hr)

/-- As long as the epochs fit the stamp, a batch is skipped exactly if it is too old. -/
theorem stale_epoch_filter_exact (hrun : Runs.Along (step head) InRange (start epoch) es s) :
    ∀ x ∈ s.examined, x.seen ≤ x.current → (x.batch.skipped = true ↔ maxEpochAge < x.current.toNat - x.seen.toNat) :=
  (hrun.invariant (fun _ _ _ hin hstep h => h.step hin hstep) ⟨nofun, nofun⟩ : s.Stamped).exact

theorem stale_epoch_filter_exact_oldBatch : ∃ s : EpochFencing,
    Runs.Along (step 0) InRange (start 1)
      [.reserve 1 0 {} false, .controlEpoch 2002, .cacheEpoch, .examine 0] s ∧
      s.examined.length = 1 ∧ ∀ x ∈ s.examined, x.batch.skipped = true := by
  refine Runs.exists_of_exec (fun s : EpochFencing => s.examined.map fun x : Examined => (x.seen, x.current))
    [(1, 2002)] (by decide +kernel) fun s hrun hs => ?_
  refine ⟨by simpa using congrArg List.length hs, fun x hx => ?_⟩
  have hepochs : (x.seen, x.current) ∈ [((1 : UInt64), (2002 : UInt64))] := hs ▸ List.mem_map_of_mem hx
  obtain ⟨hseen, hcurrent⟩ := Prod.mk.inj (List.mem_singleton.mp hepochs)
  refine (stale_epoch_filter_exact hrun x hx ?_).mpr ?_
  · rw [hseen, hcurrent]
    decide
  · rw [hseen, hcurrent]
    decide

/-- From epoch 65536 on all stamps are the same: a batch is skipped in the very epoch it was
reserved in. -/
theorem stale_epoch_filter_skips_fresh : ∃ s : EpochFencing,
    Runs.Along (step 0) (fun _ _ => True) (start 70000) [.reserve 1 0 {} false, .cacheEpoch, .examine 0] s ∧
      ¬ ∀ x ∈ s.examined, x.seen ≤ x.current →
        (x.batch.skipped = true ↔ maxEpochAge < x.current.toNat - x.seen.toNat) := by
  refine Runs.exists_of_exec (fun s : EpochFencing =>
    s.examined.map fun x : Examined => (x.seen, x.current, x.batch.skipped))
    [(70000, 70000, true)] (by decide +kernel) fun s hrun hs => ?_
  refine fun hall => ?_
  obtain ⟨x, hx, heq⟩ := List.mem_map.mp (hs ▸ List.mem_singleton_self _ :
    (70000, 70000, true) ∈ s.examined.map fun x : Examined => (x.seen, x.current, x.batch.skipped))
  simp only [Prod.mk.injEq] at heq
  obtain ⟨hseen, hcurrent, hskipped⟩ := heq
  have hage := (hall x hx (by rw [hseen, hcurrent]; decide)).mp hskipped
  rw [hseen, hcurrent, Nat.sub_self] at hage
  cases hage

end EpochFencing

end Embarcadero
