import Embarcadero.Lib.Log
import Embarcadero.Lib.Residue
import Embarcadero.Lib.Runs

namespace Embarcadero

open List
open Function (update)

def sequenceMax : Nat := 2 ^ 64 - 1

def unwrapPBRConsumed (previous modulo slots : Nat) : Nat :=
  if slots < 2 ∨ slots ≤ modulo then previous
  else
    let oldModulo := previous % slots
    let delta := if oldModulo ≤ modulo then modulo - oldModulo else slots - oldModulo + modulo
    if sequenceMax - previous < delta then previous else previous + delta

structure PBRProducerState where
  nextSlotSeq : Nat := 0
  logicalOffset : Nat := 0
  deriving DecidableEq

structure PBRReservation where
  absolute : Nat
  slot : Nat
  logical : Nat
  messages : Nat
  deriving DecidableEq

/-- Where a call of `TryReservePBR` is.  `refresh` remembers the snapshot the retry goes on with. -/
inductive PBRCall
  | idle
  | refresh (messages : Nat) (snapshot : Option PBRProducerState)
  | load (messages : Nat)
  | loadConsumed (messages : Nat) (current : PBRProducerState) (refreshed : Bool)
  | exchange (messages : Nat) (current : PBRProducerState)
  deriving DecidableEq

inductive PBRRefresh
  | free
  | held (thread : Nat)
  | sampled (thread consumed : Nat)
  | stored (thread : Nat)
  deriving DecidableEq

def PBRRefresh.holder : PBRRefresh → Option Nat
  | .free => none
  | .held i => some i
  | .sampled i _ => some i
  | .stored i => some i

structure PBR where
  state : PBRProducerState := {}
  cached : Nat := 0
  refresh : PBRRefresh := .free
  calls : Nat → PBRCall := fun _ => .idle
  frontier : Nat := 0
  lastSampled : Nat := 0
  reservations : List PBRReservation := []

inductive PBREvent
  | call (thread messages : Nat)
  | acquire (thread : Nat)
  /-- `consumed` is the published value for `position`: no older than the last position read, and
  possibly overtaken by the consumer already. -/
  | sample (thread position consumed : Nat)
  | storeCache (thread : Nat)
  | release (thread : Nat)
  | load (thread : Nat)
  | loadConsumed (thread : Nat)
  | exchange (thread : Nat) (spurious : Bool)
  | consume (slots : Nat)
  deriving DecidableEq

namespace PBR

def setCall (s : PBR) (i : Nat) (c : PBRCall) : PBR := { s with calls := update s.calls i c }

def resume (messages : Nat) : Option PBRProducerState → PBRCall
  | none => .load messages
  | some current => .loadConsumed messages current true

def refreshed (slots cached consumed : Nat) : Nat :=
  if consumed ≤ slots ∧ 2 ≤ slots then
    unwrapPBRConsumed cached (if consumed = slots then 0 else consumed) slots
  else cached

def afterConsumed (slots messages : Nat) (current : PBRProducerState) (again : Bool) (retired : Nat) :
    PBRCall :=
  if current.nextSlotSeq < retired then .load messages
  else if slots - 1 ≤ current.nextSlotSeq - retired then
    if again then .idle else .refresh messages (some current)
  else if current.nextSlotSeq = sequenceMax ∨ sequenceMax - current.logicalOffset < messages then
    .idle
  else .exchange messages current

def reserve (slots : Nat) (s : PBR) (i messages : Nat) (current : PBRProducerState) : PBR :=
  { s with
    calls := update s.calls i .idle
    state := ⟨current.nextSlotSeq + 1, current.logicalOffset + messages⟩
    reservations := s.reservations ++
      [⟨current.nextSlotSeq, current.nextSlotSeq % slots, current.logicalOffset, messages⟩] }

end PBR

def PBR.step (slots : Nat) (s : PBR) : PBREvent → Option PBR
  | .call i messages =>
    if s.calls i = .idle then
      some (if slots < 2 ∨ messages = 0 then s else s.setCall i (.refresh messages none))
    else none
  | .acquire i =>
    match s.calls i, s.refresh.holder with
    | .refresh _ _, none => some { s with refresh := .held i }
    | .refresh messages snapshot, some j =>
      if j = i then none else some (s.setCall i (resume messages snapshot))
    | _, _ => none
  | .sample i position consumed =>
    if s.refresh = .held i ∧ s.lastSampled ≤ position ∧ position ≤ s.frontier ∧
        consumed ≤ slots ∧ consumed % slots = position % slots then
      some { s with refresh := .sampled i consumed, lastSampled := position }
    else none
  | .storeCache i =>
    match s.refresh with
    | .sampled j consumed =>
      if j = i then some { s with
        cached := refreshed slots s.cached consumed
        refresh := .stored i } else none
    | _ => none
  | .release i =>
    match s.calls i with
    | .refresh messages snapshot =>
      if s.refresh = .stored i then
        some { s.setCall i (resume messages snapshot) with refresh := .free }
      else none
    | _ => none
  | .load i =>
    match s.calls i with
    | .load messages => some (s.setCall i (.loadConsumed messages s.state false))
    | _ => none
  | .loadConsumed i =>
    match s.calls i with
    | .loadConsumed messages current again =>
      some (s.setCall i (afterConsumed slots messages current again s.cached))
    | _ => none
  | .exchange i spurious =>
    match s.calls i with
    | .exchange messages current =>
      some (if s.state = current ∧ ¬spurious then s.reserve slots i messages current
        else s.setCall i (.loadConsumed messages s.state false))
    | _ => none
  | .consume n =>
    if s.frontier + n ≤ s.state.nextSlotSeq then some { s with frontier := s.frontier + n }
    else none

theorem le_unwrapPBRConsumed (previous modulo slots : Nat) : previous ≤ unwrapPBRConsumed previous modulo slots := by
  rw [unwrapPBRConsumed]
  dsimp only
  repeat' split
  all_goals omega

theorem unwrapPBRConsumed_eq {previous position slots : Nat} (hslots : 2 ≤ slots)
    (hle : previous ≤ position) (hlt : position < previous + slots) (hmax : position ≤ sequenceMax) :
    unwrapPBRConsumed previous (position % slots) slots = position := by
  have hmod : position % slots < slots := Nat.mod_lt _ (by omega)
  have hforward := Residue.forward_eq hle hlt
  rw [unwrapPBRConsumed, if_neg (by omega)]
  dsimp only
  rw [hforward, if_neg (by omega)]
  omega

example : unwrapPBRConsumed 6 1 4 = 9 := by decide

namespace PBR

variable {slots : Nat} {s t : PBR}

def RefreshOk (slots lastSampled : Nat) : PBRRefresh → Prop
  | .sampled _ consumed => Residue.Points slots consumed lastSampled
  | _ => True

def Bounded (c : PBRProducerState) : Prop :=
  c.nextSlotSeq ≤ sequenceMax ∧ c.logicalOffset ≤ sequenceMax

def CallOk (slots cached : Nat) : PBRCall → Prop
  | .idle => True
  | .refresh _ none => True
  | .refresh _ (some current) => Bounded current
  | .load _ => True
  | .loadConsumed _ current _ => Bounded current
  | .exchange messages current =>
    current.nextSlotSeq + 1 ≤ cached + (slots - 1) ∧
      Bounded ⟨current.nextSlotSeq + 1, current.logicalOffset + messages⟩

structure Ok (slots : Nat) (s : PBR) : Prop where
  cached : s.cached ≤ s.lastSampled
  sampled : s.lastSampled ≤ s.frontier
  frontier : s.frontier ≤ s.state.nextSlotSeq
  window : s.state.nextSlotSeq ≤ s.cached + (slots - 1)
  bounded : Bounded s.state
  refresh : RefreshOk slots s.lastSampled s.refresh
  calls : ∀ i, CallOk slots s.cached (s.calls i)
  absolute : s.reservations.map (·.absolute) = List.range s.state.nextSlotSeq
  slot : ∀ r ∈ s.reservations, r.slot = r.absolute % slots
  tiles : Log.Tiles 0 (s.reservations.map fun r => (r.logical, r.messages)) s.state.logicalOffset

theorem ok_start (slots : Nat) : Ok slots {} where
  cached := Nat.le_refl _
  sampled := Nat.le_refl _
  frontier := Nat.le_refl _
  window := Nat.zero_le _
  bounded := ⟨Nat.zero_le _, Nat.zero_le _⟩
  refresh := trivial
  calls := fun _ => trivial
  absolute := rfl
  slot := by simp
  tiles := rfl

variable {cached consumed i messages : Nat} {c : PBRCall} {current : PBRProducerState}

theorem CallOk.mono {cached' : Nat} (h : CallOk slots cached c) (hle : cached ≤ cached') : CallOk slots cached' c := by
  cases c with
  | idle => trivial
  | refresh messages snapshot =>
    cases snapshot with
    | none => trivial
    | some current => exact h
  | load messages => trivial
  | loadConsumed messages current again => exact h
  | exchange messages current => exact ⟨Nat.le_trans h.1 (Nat.add_le_add_right hle _), h.2⟩

theorem CallOk.resume {snapshot : Option PBRProducerState} (h : CallOk slots cached (.refresh messages snapshot)) :
    CallOk slots cached (PBR.resume messages snapshot) := by
  cases snapshot with
  | none => trivial
  | some current => exact h

theorem callOk_afterConsumed (h : Bounded current) (messages cached : Nat) (again : Bool) :
    CallOk slots cached (afterConsumed slots messages current again cached) := by
  rw [afterConsumed]
  split
  · trivial
  · split
    · cases again with
      | false => exact h
      | true => trivial
    · split
      · trivial
      · have h₁ := h.1
        have h₂ := h.2
        refine ⟨?_, ?_, ?_⟩
        · omega
        · dsimp only
          omega
        · dsimp only
          omega

theorem Ok.setCall (h : Ok slots s) (hc : CallOk slots s.cached c) : Ok slots (s.setCall i c) :=
  { h with
    calls := (Function.forall_update_iff _ fun _ c => CallOk slots s.cached c).mpr ⟨hc, fun j _ => h.calls j⟩ }

theorem Ok.refreshed_eq (h : Ok slots s) (hslots : 2 ≤ slots) (hr : s.refresh = .sampled i consumed) :
    refreshed slots s.cached consumed = s.lastSampled := by
  have hpoints := h.refresh
  rw [hr] at hpoints
  have h₁ := h.cached
  have h₂ := h.sampled
  have h₃ := h.frontier
  have h₄ := h.window
  have h₅ := h.bounded.1
  rw [refreshed, if_pos ⟨hpoints.1, hslots⟩, hpoints.slot]
  exact unwrapPBRConsumed_eq hslots h₁ (by omega) (by omega)

theorem Ok.storeCache {j : Nat} (h : Ok slots s) (hr : s.refresh = .sampled j consumed) :
    Ok slots { s with cached := refreshed slots s.cached consumed, refresh := .stored i } := by
  have hle : s.cached ≤ refreshed slots s.cached consumed ∧ refreshed slots s.cached consumed ≤ s.lastSampled := by
    by_cases hslots : 2 ≤ slots
    · rw [h.refreshed_eq hslots hr]
      exact ⟨h.cached, Nat.le_refl _⟩
    · rw [refreshed, if_neg (fun h => hslots h.2)]
      exact ⟨Nat.le_refl _, h.cached⟩
  exact { h with
    cached := hle.2
    window := Nat.le_trans h.window (Nat.add_le_add_right hle.1 _)
    refresh := trivial
    calls := fun i => (h.calls i).mono hle.1 }

theorem Ok.reserve (h : Ok slots s) (hc : CallOk slots s.cached (.exchange messages current))
    (hstate : s.state = current) : Ok slots (s.reserve slots i messages current) := by
  subst hstate
  exact {
    cached := h.cached
    sampled := h.sampled
    frontier := Nat.le_succ_of_le h.frontier
    window := hc.1
    bounded := hc.2
    refresh := h.refresh
    calls := (h.setCall (i := i) (c := .idle) trivial).calls
    absolute := by
      rw [PBR.reserve, map_append, h.absolute, range_succ]
      rfl
    slot := by
      intro r hr
      rcases mem_append.mp hr with hr | hr
      · exact h.slot r hr
      · rw [mem_singleton.mp hr]
    tiles := by
      rw [PBR.reserve, map_append]
      exact h.tiles.append ⟨rfl, rfl⟩ }

theorem Ok.step {e : PBREvent} (h : Ok slots s) (hstep : s.step slots e = some t) : Ok slots t := by
  cases e with
  | call i messages =>
    obtain ⟨-, rfl⟩ := Runs.of_guard hstep
    split
    · exact h
    · exact h.setCall trivial
  | acquire i =>
    have hi := h.calls i
    rw [PBR.step] at hstep
    split at hstep
    · cases hstep
      exact { h with refresh := trivial }
    next messages snapshot j hcall hholder =>
      rw [hcall] at hi
      split at hstep
      · cases hstep
      · cases hstep
        exact h.setCall hi.resume
    · cases hstep
  | sample i position consumed =>
    obtain ⟨hguard, rfl⟩ := Runs.of_guard hstep
    exact { h with
      cached := Nat.le_trans h.cached hguard.2.1
      sampled := hguard.2.2.1
      refresh := hguard.2.2.2 }
  | storeCache i =>
    rw [PBR.step] at hstep
    split at hstep
    next j consumed hr =>
      obtain ⟨-, rfl⟩ := Runs.of_guard hstep
      exact h.storeCache hr
    · cases hstep
  | release i =>
    have hi := h.calls i
    rw [PBR.step] at hstep
    split at hstep
    next messages snapshot hcall =>
      rw [hcall] at hi
      split at hstep
      · cases hstep
        exact { h.setCall hi.resume with refresh := trivial }
      · cases hstep
    · cases hstep
  | load i =>
    rw [PBR.step] at hstep
    split at hstep
    · cases hstep
      exact h.setCall h.bounded
    · cases hstep
  | loadConsumed i =>
    have hi := h.calls i
    rw [PBR.step] at hstep
    split at hstep
    next messages current again hcall =>
      rw [hcall] at hi
      cases hstep
      exact h.setCall (callOk_afterConsumed hi messages s.cached again)
    · cases hstep
  | exchange i spurious =>
    have hi := h.calls i
    rw [PBR.step] at hstep
    split at hstep
    next messages current hcall =>
      rw [hcall] at hi
      cases hstep
      split
      next hcas => exact h.reserve hi hcas.1
      · exact h.setCall h.bounded
    · cases hstep
  | consume n =>
    obtain ⟨hguard, rfl⟩ := Runs.of_guard hstep
    exact { h with
      sampled := Nat.le_trans h.sampled (Nat.le_add_right _ _)
      frontier := hguard }

def outstanding (s : PBR) : List PBRReservation :=
  s.reservations.filter fun r => s.frontier ≤ r.absolute

theorem countP_range (frontier n : Nat) : (List.range n).countP (fun a => decide (frontier ≤ a)) = n - frontier := by
  induction n with
  | zero => simp
  | succ n ih =>
    rw [range_succ, countP_append, ih, countP_singleton]
    by_cases hle : frontier ≤ n
    · rw [if_pos (by simpa using hle)]
      omega
    · rw [if_neg (by simpa using hle)]
      omega

theorem Ok.length_outstanding (h : Ok slots s) : s.outstanding.length = s.state.nextSlotSeq - s.frontier := by
  rw [outstanding, ← countP_eq_length_filter, ← countP_range, ← h.absolute, countP_map]
  rfl

theorem Ok.slot_injective (h : Ok slots s) {r q : PBRReservation} (hr : r ∈ s.outstanding)
    (hq : q ∈ s.outstanding) (hslot : r.slot = q.slot) : r = q := by
  rw [outstanding, mem_filter, decide_eq_true_eq] at hr hq
  have hlt : ∀ r ∈ s.reservations, r.absolute < s.state.nextSlotSeq := by
    intro r hr
    rw [← mem_range, ← h.absolute]
    exact mem_map_of_mem hr
  have hr' := hlt r hr.1
  have hq' := hlt q hq.1
  have h₁ := h.window
  have h₂ := h.cached
  have h₃ := h.sampled
  have hmod : r.absolute % slots = q.absolute % slots := by
    rw [← h.slot r hr.1, ← h.slot q hq.1, hslot]
  have habs : r.absolute = q.absolute :=
    Residue.eq_of_mod_eq hr.2 (by omega) hq.2 (by omega) hmod
  have hnodup : (s.reservations.map (·.absolute)).Nodup := h.absolute ▸ nodup_range
  exact inj_on_of_nodup_map hnodup hr.1 hq.1 habs

end PBR

/-- In every interleaving of producers, observers and the consumer: the cached frontier trails the
true one, the ring never holds more than `slots - 1` reservations, outstanding reservations have
slots of their own, and the logical offsets tile the axis. -/
theorem pbr_reservation_safe (slots : Nat) (events : List PBREvent) (s : PBR)
    (hrun : Runs.Along (PBR.step slots) (fun _ _ => True) {} events s) :
    s.cached ≤ s.frontier ∧ s.frontier ≤ s.state.nextSlotSeq ∧
    s.outstanding.length ≤ slots - 1 ∧
    (∀ r ∈ s.outstanding, ∀ q ∈ s.outstanding, r.slot = q.slot → r = q) ∧
    Log.Tiles 0 (s.reservations.map fun r => (r.logical, r.messages)) s.state.logicalOffset := by
  have h : PBR.Ok slots s :=
    hrun.invariant (fun _ _ _ _ hstep h => h.step hstep) (PBR.ok_start slots)
  refine ⟨Nat.le_trans h.cached h.sampled, h.frontier, ?_, fun r hr q hq => h.slot_injective hr hq, h.tiles⟩
  rw [h.length_outstanding]
  have h₁ := h.window
  have h₂ := h.cached
  have h₃ := h.sampled
  omega

def racingProducers : List PBREvent :=
  [.call 0 5, .acquire 0, .sample 0 0 3, .call 1 7, .acquire 1, .load 1, .storeCache 0, .release 0,
    .load 0, .loadConsumed 0, .loadConsumed 1, .exchange 0 false, .exchange 1 false,
    .loadConsumed 1, .exchange 1 false, .call 0 1, .acquire 0, .sample 0 0 3, .storeCache 0,
    .release 0, .load 0, .loadConsumed 0, .consume 2, .acquire 0, .sample 0 1 1, .storeCache 0,
    .release 0, .loadConsumed 0, .exchange 0 false]

theorem pbr_reservation_safe_racingProducers :
    ∃ s, Runs.Along (PBR.step 3) (fun _ _ => True) {} racingProducers s ∧
      s.reservations = [⟨0, 0, 0, 5⟩, ⟨1, 1, 5, 7⟩, ⟨2, 2, 12, 1⟩] ∧
      s.cached ≤ s.frontier ∧ s.outstanding.length ≤ 2 := by
  have hrun := Runs.exists_along_of_exec (f := PBR.reservations)
    (show (Runs.exec (PBR.step 3) (fun _ _ => True) {} racingProducers).map _ =
      some [⟨0, 0, 0, 5⟩, ⟨1, 1, 5, 7⟩, ⟨2, 2, 12, 1⟩] by decide +kernel)
  cases hrun with
  | intro s hs =>
    have h := pbr_reservation_safe 3 racingProducers s hs.1
    exact ⟨s, hs.1, hs.2, h.1, h.2.2.1⟩

end Embarcadero
