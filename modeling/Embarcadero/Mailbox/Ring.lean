import Embarcadero.Lib.Runs
import Embarcadero.Lib.StampedRing

/-! `MailboxRing`: one producer and one consumer share slots in memory.  The consumer learns from the stamp of a slot
that its record is there; the producer learns from `read_index`, of which it keeps a shadow, that a slot is free. -/

namespace Embarcadero.Mailbox

open Function (update update_apply)
open List
open StampedRing (Stamps)

structure RingHeader where
  recordSize : Nat
  capacity : Nat
  pos : 1 ≤ capacity
  lt : capacity < 2 ^ 32
  power : capacity &&& (capacity - 1) = 0

structure MailboxSlot where
  seq : Nat := 0
  len : Nat := 0
  payload : Nat → UInt8 := fun _ => 0

abbrev Record := List UInt8

def MailboxSlot.fill (slot : MailboxSlot) (record : Record) : MailboxSlot :=
  { slot with len := record.length, payload := fun i => record.getD i (slot.payload i) }

def MailboxSlot.bytes (slot : MailboxSlot) : Record := (List.range slot.len).map slot.payload

structure RingMemory where
  slots : Nat → MailboxSlot := fun _ => {}
  writeIndex : Nat := 0
  readIndex : Nat := 0

inductive PerRingStatus
  | success
  | full
  | wedged
  deriving DecidableEq

inductive ProducerReturn
  | hasSpace (space : Bool)
  | tryProduce (produced : Bool)
  | tryProduceBounded (status : PerRingStatus)
  deriving DecidableEq

def ProducerReturn.failed : ProducerReturn → Bool
  | .hasSpace _ => false
  | .tryProduce produced => !produced
  | .tryProduceBounded status => status != .success

def ProducerReturn.succeeded : ProducerReturn → Bool
  | .hasSpace _ => false
  | .tryProduce produced => produced
  | .tryProduceBounded status => status == .success

inductive Producer
  | idle
  | spinning (w : Nat) (record : Record) (spin maxSpins : Nat)
  | writing (w : Nat) (record : Record) (ret : ProducerReturn)
  | stamping (w : Nat) (record : Record) (ret : ProducerReturn)
  | returning (w : Nat) (record : Record) (ret : ProducerReturn)
  deriving DecidableEq

def Producer.published : Producer → Option Record
  | .returning _ record _ => some record
  | _ => none

def Producer.checking : Producer → Bool
  | .idle | .spinning .. => true
  | _ => false

inductive Consumer
  | idle
  | copying (r outCap : Nat)
  | releasing (r : Nat) (record : Record)
  | aborted
  deriving DecidableEq

structure Ring where
  memory : RingMemory := {}
  cachedReadIndex : Nat := 0
  producer : Producer := .idle
  lastReturn : Option ProducerReturn := none
  consumer : Consumer := .idle
  produced : List Record := []
  returned : List Record := []
  consumed : List Record := []

def sub64 (a b : Nat) : Nat := (a + 2 ^ 64 - b) % 2 ^ 64

def add64 (a b : Nat) : Nat := (a + b) % 2 ^ 64

section Operations

variable (h : RingHeader)

def RingHeader.slotAt (index : Nat) : Nat := index &&& (h.capacity - 1)

namespace Ring

def refresh (s : Ring) (w : Nat) : Ring :=
  if h.capacity ≤ sub64 w s.cachedReadIndex then { s with cachedReadIndex := s.memory.readIndex } else s

def hasRoom (s : Ring) (w : Nat) : Bool := decide (sub64 w s.cachedReadIndex < h.capacity)

def tryProduce (s : Ring) (record : Record) : Ring :=
  if h.recordSize < record.length then { s with lastReturn := some (.tryProduce false) }
  else
    let w := s.memory.writeIndex
    let s := s.refresh h w
    if s.hasRoom h w then { s with producer := .writing w record (.tryProduce true), lastReturn := none }
    else { s with lastReturn := some (.tryProduce false) }

def tryProduceBounded (s : Ring) (record : Record) (maxSpins : Nat) : Ring :=
  if h.recordSize < record.length then { s with lastReturn := some (.tryProduceBounded .full) }
  else { s with producer := .spinning s.memory.writeIndex record 0 maxSpins, lastReturn := none }

def spin (s : Ring) (w : Nat) (record : Record) (spin maxSpins : Nat) : Ring :=
  let s := s.refresh h w
  if s.hasRoom h w then { s with producer := .writing w record (.tryProduceBounded .success) }
  else if maxSpins ≤ spin then { s with producer := .idle, lastReturn := some (.tryProduceBounded .wedged) }
  else { s with producer := .spinning w record (spin + 1) maxSpins }

def hasSpace (s : Ring) : Ring :=
  let w := s.memory.writeIndex
  let s := s.refresh h w
  { s with lastReturn := some (.hasSpace (s.hasRoom h w)) }

def attach (s : Ring) : Ring := { s with cachedReadIndex := s.memory.readIndex }

def setSlot (s : Ring) (i : Nat) (slot : MailboxSlot) : Ring :=
  { s with memory := { s.memory with slots := update s.memory.slots i slot } }

def slot (s : Ring) (index : Nat) : MailboxSlot := s.memory.slots (h.slotAt index)

def tryConsume (s : Ring) (outCap : Nat) : Ring :=
  let r := s.memory.readIndex
  if (s.slot h r).seq = add64 r 1 then { s with consumer := .copying r outCap } else s

def copy (s : Ring) (r outCap : Nat) : Ring :=
  if (s.slot h r).len ≤ outCap then { s with consumer := .releasing r (s.slot h r).bytes }
  else { s with consumer := .aborted }

inductive Event
  | attach
  | hasSpace
  | tryProduce (record : Record)
  | tryProduceBounded (record : Record) (maxSpins : Nat)
  | spin
  | write
  | stamp
  | finish
  | tryConsume (outCap : Nat)
  | copy
  | release

def step (s : Ring) : Event → Option Ring
  | .attach => if s.producer = .idle then some s.attach else none
  | .hasSpace => if s.producer = .idle then some (s.hasSpace h) else none
  | .tryProduce record => if s.producer = .idle then some (s.tryProduce h record) else none
  | .tryProduceBounded record maxSpins =>
    if s.producer = .idle then some (s.tryProduceBounded h record maxSpins) else none
  | .spin =>
    match s.producer with
    | .spinning w record n maxSpins => some (s.spin h w record n maxSpins)
    | _ => none
  | .write =>
    match s.producer with
    | .writing w record ret =>
      some { s.setSlot (h.slotAt w) ((s.slot h w).fill record) with producer := .stamping w record ret }
    | _ => none
  | .stamp =>
    match s.producer with
    | .stamping w record ret =>
      some { s.setSlot (h.slotAt w) { s.slot h w with seq := add64 w 1 } with
        producer := .returning w record ret
        produced := s.produced ++ [record] }
    | _ => none
  | .finish =>
    match s.producer with
    | .returning w record ret =>
      some { s with
        memory := { s.memory with writeIndex := add64 w 1 }
        producer := .idle
        lastReturn := some ret
        returned := s.returned ++ [record] }
    | _ => none
  | .tryConsume outCap => if s.consumer = .idle then some (s.tryConsume h outCap) else none
  | .copy =>
    match s.consumer with
    | .copying r outCap => some (s.copy h r outCap)
    | _ => none
  | .release =>
    match s.consumer with
    | .releasing r record =>
      some { s with
        memory := { s.memory with readIndex := add64 r 1 }
        consumer := .idle
        consumed := s.consumed ++ [record] }
    | _ => none

def attempt (s : Ring) : Event → Option Record
  | .tryProduce record | .tryProduceBounded record _ => some record
  | .spin | .write | .stamp | .finish =>
    match s.producer with
    | .spinning _ record _ _ | .writing _ record _ | .stamping _ record _ | .returning _ record _ => some record
    | .idle => none
  | _ => none

structure Fifo (s : Ring) : Prop where
  order : s.consumed <+: s.produced
  bounded : s.produced.length ≤ s.consumed.length + h.capacity
  published : s.produced = s.returned ++ s.producer.published.toList
  available : (s.slot h s.memory.readIndex).seq = add64 s.memory.readIndex 1 ↔ s.consumed.length < s.produced.length
  /-- After `HasSpace` has returned true, `TryProduce` goes on to publish. -/
  promise : s.producer = .idle → s.lastReturn = some (.hasSpace true) → ∀ record, record.length ≤ h.recordSize →
    (s.tryProduce h record).producer = .writing s.memory.writeIndex record (.tryProduce true)

structure ProduceOk (s : Ring) (record : Record) (s' : Ring) : Prop where
  unchanged : s.producer.checking → s'.memory = s.memory ∧ s'.produced = s.produced
  failed : ∀ ret, s'.producer = .idle → s'.lastReturn = some ret → ret.failed → s.producer.checking ∧
      (h.recordSize < record.length ∨ s.produced.length = s.consumed.length + h.capacity)

def reserved (s : Ring) : Bool :=
  match s.producer with
  | .idle => s.lastReturn == some (.hasSpace true)
  | .spinning .. => false
  | _ => true

def ProducerOk (s : Ring) : Producer → Prop
  | .idle => True
  | .spinning w record _ _ => w = s.memory.writeIndex ∧ record.length ≤ h.recordSize
  | .writing w _ ret | .returning w _ ret => w = s.memory.writeIndex ∧ ret.succeeded
  | .stamping w record ret =>
    w = s.memory.writeIndex ∧ ret.succeeded ∧ (s.memory.slots (s.returned.length % h.capacity)).bytes = record

def ConsumerOk (s : Ring) : Consumer → Prop
  | .copying r _ => r = s.memory.readIndex ∧ s.consumed.length < s.produced.length
  | .releasing r record => r = s.memory.readIndex ∧ s.produced[s.consumed.length]? = some record
  | _ => True

structure Shadow (s : Ring) (k : Nat) : Prop where
  cached : s.cachedReadIndex = k % 2 ^ 64
  behind : k ≤ s.consumed.length
  lap : s.returned.length ≤ k + h.capacity
  room : s.reserved → s.returned.length < k + h.capacity

structure Ok (s : Ring) : Prop where
  writeIndex : s.memory.writeIndex = s.returned.length % 2 ^ 64
  readIndex : s.memory.readIndex = s.consumed.length % 2 ^ 64
  shadow : ∃ k, s.Shadow h k
  published : s.produced = s.returned ++ s.producer.published.toList
  order : s.consumed <+: s.produced
  stamps : Stamps h.capacity (2 ^ 64) (fun i => (s.memory.slots i).seq) s.produced.length
  stored : ∀ l record, s.consumed.length ≤ l → s.produced[l]? = some record →
    (s.memory.slots (l % h.capacity)).bytes = record
  producer : s.ProducerOk h s.producer
  consumer : s.ConsumerOk s.consumer

end Ring

end Operations

theorem RingHeader.slotAt_mod (h : RingHeader) (l : Nat) : h.slotAt (l % 2 ^ 64) = l % h.capacity := by
  obtain ⟨k, hk⟩ := (Nat.and_sub_one_eq_zero_iff_isPowerOfTwo (Nat.ne_of_gt h.pos)).mp h.power
  have hlt : 2 ^ k < 2 ^ 32 := hk ▸ h.lt
  have hdvd : 2 ^ k ∣ 2 ^ 64 := Nat.pow_dvd_pow 2 (by have := (Nat.pow_lt_pow_iff_right (by decide)).mp hlt; omega)
  rw [RingHeader.slotAt, hk, Nat.and_two_pow_sub_one_eq_mod, Nat.mod_mod_of_dvd l hdvd]

theorem sub64_mod {w r : Nat} (hle : r ≤ w) (hlt : w < r + 2 ^ 64) : sub64 (w % 2 ^ 64) (r % 2 ^ 64) = w - r := by
  rw [sub64]
  omega

theorem add64_mod (l : Nat) : add64 (l % 2 ^ 64) 1 = (l + 1) % 2 ^ 64 := Nat.mod_add_mod ..

theorem MailboxSlot.bytes_fill (slot : MailboxSlot) (record : Record) : (slot.fill record).bytes = record := by
  apply ext_getElem
  · simp [MailboxSlot.bytes, MailboxSlot.fill]
  · intro i _ hi
    simp [MailboxSlot.bytes, MailboxSlot.fill, hi]

namespace Ring

variable {h : RingHeader} {s s' : Ring}

theorem Ok.produced_of_checking (hok : s.Ok h) (hc : s.producer.checking) : s.produced = s.returned := by
  rw [hok.published]
  cases hp : s.producer with
  | idle => exact append_nil _
  | spinning => exact append_nil _
  | writing => exact append_nil _
  | stamping => exact append_nil _
  | returning =>
    rw [hp] at hc
    cases hc

theorem Ok.bounded (hok : s.Ok h) : s.produced.length ≤ s.consumed.length + h.capacity := by
  obtain ⟨k, hk⟩ := hok.shadow
  have hbehind := hk.behind
  have hlap := hk.lap
  have hroom := hk.room
  rw [hok.published, length_append]
  rw [reserved] at hroom
  cases hp : s.producer with
  | returning =>
    rw [hp] at hroom
    have hroom := hroom rfl
    simp only [Producer.published, Option.toList_some, length_singleton]
    omega
  | idle | spinning | writing | stamping =>
    simp only [Producer.published, Option.toList_none, length_nil]
    omega

theorem Ok.available (hok : s.Ok h) : (s.slot h s.memory.readIndex).seq = add64 s.memory.readIndex 1 ↔
    s.consumed.length < s.produced.length := by
  rw [slot, hok.readIndex, RingHeader.slotAt_mod, add64_mod]
  exact hok.stamps.current_iff h.pos (Nat.lt_trans h.lt (by decide)) hok.order.length_le hok.bounded

theorem Ok.check (hok : s.Ok h) (hc : s.producer.checking) :
    ∃ k, s.refresh h s.memory.writeIndex = { s with cachedReadIndex := k % 2 ^ 64 } ∧ k ≤ s.consumed.length ∧
      s.returned.length ≤ k + h.capacity ∧
      (s.reserved → s.returned.length < k + h.capacity) ∧
      ((s.refresh h s.memory.writeIndex).hasRoom h s.memory.writeIndex ↔ s.returned.length < k + h.capacity) ∧
      (s.returned.length = k + h.capacity → k = s.consumed.length) := by
  obtain ⟨k, hk⟩ := hok.shadow
  have hbehind := hk.behind
  have hlap := hk.lap
  have hlt := h.lt
  have hle := hok.order.length_le
  have hbounded := hok.bounded
  rw [hok.produced_of_checking hc] at hle hbounded
  have hsub : sub64 s.memory.writeIndex s.cachedReadIndex = s.returned.length - k := by
    rw [hok.writeIndex, hk.cached]
    exact sub64_mod (by omega) (by omega)
  by_cases hfull : h.capacity ≤ s.returned.length - k
  · have hrefresh : s.refresh h s.memory.writeIndex = { s with cachedReadIndex := s.consumed.length % 2 ^ 64 } := by
      rw [refresh, hsub, if_pos hfull, hok.readIndex]
    refine ⟨s.consumed.length, hrefresh, Nat.le_refl _, hbounded, fun hr => ?_, ?_, fun _ => rfl⟩
    · have := hk.room hr
      omega
    · rw [hrefresh, hasRoom, decide_eq_true_iff, hok.writeIndex, sub64_mod hle (by omega)]
      omega
  · have hrefresh : s.refresh h s.memory.writeIndex = { s with cachedReadIndex := k % 2 ^ 64 } := by
      rw [refresh, hsub, if_neg hfull, ← hk.cached]
    refine ⟨k, hrefresh, hbehind, hlap, hk.room, ?_, fun heq => ?_⟩
    · rw [hrefresh, hasRoom, ← hk.cached, decide_eq_true_iff, hsub]
      omega
    · omega

theorem Ok.turn (hok : s.Ok h) {k : Nat} (p : Producer) (ret : Option ProducerReturn)
    (hold : s.producer.published = none) (hnew : p.published = none)
    (hk : Shadow h { s with cachedReadIndex := k % 2 ^ 64, producer := p, lastReturn := ret } k)
    (hp : s.ProducerOk h p) :
    Ok h { s with cachedReadIndex := k % 2 ^ 64, producer := p, lastReturn := ret } := by
  refine { hok with shadow := ⟨k, hk⟩, published := ?_, producer := ?_, consumer := ?_ }
  · rw [hok.published, hold, hnew]
  · cases p <;> exact hp
  · have hconsumer := hok.consumer
    cases hcons : s.consumer <;> rw [hcons] at hconsumer <;> exact hconsumer

theorem Ok.attach (hok : s.Ok h) (hidle : s.producer = .idle) : s.attach.Ok h := by
  have hc : s.producer.checking := by rw [hidle]; rfl
  obtain ⟨k, hk⟩ := hok.shadow
  have hbounded := hok.bounded
  rw [hok.produced_of_checking hc] at hbounded
  have hreadIndex := hok.readIndex
  refine { hok with shadow := ⟨s.consumed.length, hreadIndex, Nat.le_refl _, hbounded, fun hr => ?_⟩ }
  exact Nat.lt_of_lt_of_le (hk.room hr) (Nat.add_le_add_right hk.behind _)

theorem Ok.hasSpace (hok : s.Ok h) (hidle : s.producer = .idle) : (s.hasSpace h).Ok h := by
  obtain ⟨k, hrefresh, hbehind, hlap, -, hroom, -⟩ := hok.check (by rw [hidle]; rfl)
  rw [Ring.hasSpace]
  rw [hrefresh] at hroom ⊢
  have hnone : s.producer.published = none := by rw [hidle]; rfl
  refine hok.turn _ _ hnone hnone ⟨rfl, hbehind, hlap, fun hr => ?_⟩ hok.producer
  rw [reserved] at hr
  dsimp only at hr
  rw [hidle] at hr
  dsimp only at hr
  exact hroom.mp (ProducerReturn.hasSpace.inj (Option.some.inj (eq_of_beq hr)))

theorem Ok.tryProduce (hok : s.Ok h) (hidle : s.producer = .idle) (record : Record) : (s.tryProduce h record).Ok h := by
  have hnone : s.producer.published = none := by rw [hidle]; rfl
  obtain ⟨k, hrefresh, hbehind, hlap, -, hroom, -⟩ := hok.check (by rw [hidle]; rfl)
  -- A failed call leaves the producer idle and has promised nothing.
  have hfail : ∀ k, k ≤ s.consumed.length → s.returned.length ≤ k + h.capacity →
      Ok h { s with cachedReadIndex := k % 2 ^ 64, lastReturn := some (.tryProduce false) } := by
    intro k hbehind hlap
    refine hok.turn _ _ hnone hnone ⟨rfl, hbehind, hlap, fun hr => ?_⟩ hok.producer
    rw [reserved] at hr
    dsimp only at hr
    rw [hidle] at hr
    cases hr
  rw [Ring.tryProduce]
  split
  · obtain ⟨k₀, hk₀⟩ := hok.shadow
    have := hfail k₀ hk₀.behind hk₀.lap
    rwa [← hk₀.cached] at this
  · dsimp only
    rw [hrefresh] at hroom ⊢
    split
    · exact hok.turn _ _ hnone rfl ⟨rfl, hbehind, hlap, fun _ => hroom.mp ‹_›⟩ ⟨rfl, rfl⟩
    · exact hfail k hbehind hlap

theorem Ok.tryProduceBounded (hok : s.Ok h) (hidle : s.producer = .idle) (record : Record) (maxSpins : Nat) :
    (s.tryProduceBounded h record maxSpins).Ok h := by
  have hnone : s.producer.published = none := by rw [hidle]; rfl
  obtain ⟨k, hk⟩ := hok.shadow
  rw [Ring.tryProduceBounded]
  split
  · have := hok.turn _ (some (.tryProduceBounded .full)) hnone hnone ⟨rfl, hk.behind, hk.lap, fun hr => ?_⟩
      hok.producer
    · rwa [← hk.cached] at this
    · rw [reserved] at hr
      dsimp only at hr
      rw [hidle] at hr
      cases hr
  · have := hok.turn (.spinning s.memory.writeIndex record 0 maxSpins) none hnone rfl
      ⟨rfl, hk.behind, hk.lap, nofun⟩ ⟨rfl, Nat.le_of_not_lt ‹_›⟩
    rwa [← hk.cached] at this

variable {e : Event} {r w : Nat} {ret : ProducerReturn} {record : Record}

theorem Ok.spin (hok : s.Ok h) {n maxSpins : Nat} (hspinning : s.producer = .spinning w record n maxSpins) :
    (s.spin h w record n maxSpins).Ok h := by
  have hnone : s.producer.published = none := by rw [hspinning]; rfl
  obtain ⟨k, hrefresh, hbehind, hlap, -, hroom, -⟩ := hok.check (by rw [hspinning]; rfl)
  have hproducer := hok.producer
  rw [hspinning] at hproducer
  obtain ⟨rfl, hlen⟩ := hproducer
  rw [Ring.spin]
  rw [hrefresh] at hroom ⊢
  split
  · exact hok.turn _ _ hnone rfl ⟨rfl, hbehind, hlap, fun _ => hroom.mp ‹_›⟩ ⟨rfl, rfl⟩
  · split
    · exact hok.turn _ _ hnone rfl ⟨rfl, hbehind, hlap, nofun⟩ trivial
    · exact hok.turn _ _ hnone rfl ⟨rfl, hbehind, hlap, nofun⟩ ⟨rfl, hlen⟩

theorem Ok.write (hok : s.Ok h) (hwriting : s.producer = .writing w record ret) :
    Ok h { s.setSlot (h.slotAt w) ((s.slot h w).fill record) with producer := .stamping w record ret } := by
  obtain ⟨k, hk⟩ := hok.shadow
  have hroom : s.returned.length < k + h.capacity := hk.room (by rw [reserved, hwriting])
  have hpublished := hok.published
  have hproducer := hok.producer
  rw [hwriting] at hpublished hproducer
  obtain ⟨rfl, hret⟩ := hproducer
  have hslot : h.slotAt s.memory.writeIndex = s.returned.length % h.capacity := by
    rw [hok.writeIndex, RingHeader.slotAt_mod]
  have hlen : s.produced.length = s.returned.length := congrArg _ (hpublished.trans (append_nil _))
  refine { hok with
    shadow := ⟨k, hk.cached, hk.behind, hk.lap, fun _ => hroom⟩
    published := hpublished
    stamps := ?_
    stored := fun l record' hl hl' => ?_
    producer := ⟨rfl, hret, ?_⟩
    consumer := ?_ }
  · have hseq : (fun i => (update s.memory.slots (h.slotAt s.memory.writeIndex)
        ((s.slot h s.memory.writeIndex).fill record) i).seq) = fun i => (s.memory.slots i).seq := by
      funext i
      rw [update_apply]
      split
      next heq =>
        rw [heq]
        rfl
      · rfl
    exact hseq ▸ hok.stamps
  · -- The records that wait to be consumed lie less than a lap before the slot.
    have hlt : l < s.returned.length := hlen ▸ (List.getElem?_eq_some_iff.mp hl').1
    have hbehind := hk.behind
    have hl : s.consumed.length ≤ l := hl
    have hne : l % h.capacity ≠ h.slotAt s.memory.writeIndex := by
      rw [hslot]
      exact StampedRing.apart hlt (by omega)
    exact (congrArg MailboxSlot.bytes (Function.update_of_ne hne _ _)).trans (hok.stored l record' hl hl')
  · refine Eq.trans (congrArg MailboxSlot.bytes ?_) (MailboxSlot.bytes_fill (s.slot h s.memory.writeIndex) record)
    rw [setSlot]
    dsimp only
    rw [← hslot, Function.update_self]
  · have hconsumer := hok.consumer
    rw [setSlot]
    cases hcons : s.consumer <;> rw [hcons] at hconsumer <;> exact hconsumer

theorem Ok.stamp (hok : s.Ok h) (hstamping : s.producer = .stamping w record ret) :
    Ok h { s.setSlot (h.slotAt w) { s.slot h w with seq := add64 w 1 } with
      producer := .returning w record ret
      produced := s.produced ++ [record] } := by
  obtain ⟨k, hk⟩ := hok.shadow
  have hroom : s.returned.length < k + h.capacity := hk.room (by rw [reserved, hstamping])
  have hpublished := hok.published
  have hproducer := hok.producer
  rw [hstamping] at hpublished hproducer
  obtain ⟨rfl, hret, hbytes⟩ := hproducer
  have hslot : h.slotAt s.memory.writeIndex = s.returned.length % h.capacity := by
    rw [hok.writeIndex, RingHeader.slotAt_mod]
  have hsame : s.produced = s.returned := hpublished.trans (append_nil _)
  have hkeep : ∀ i, (update s.memory.slots (h.slotAt s.memory.writeIndex)
      { s.slot h s.memory.writeIndex with seq := add64 s.memory.writeIndex 1 } i).bytes = (s.memory.slots i).bytes := by
    intro i
    rw [update_apply]
    split
    next heq =>
      rw [heq]
      rfl
    · rfl
  refine { hok with
    shadow := ⟨k, hk.cached, hk.behind, hk.lap, fun _ => hroom⟩
    published := ?_
    order := hok.order.trans (prefix_append _ _)
    stamps := ?_
    stored := fun l record' hl hl' => ?_
    producer := ⟨rfl, hret⟩
    consumer := ?_ }
  · rw [hsame]
    rfl
  · have hseq : (fun i => (update s.memory.slots (h.slotAt s.memory.writeIndex)
        { s.slot h s.memory.writeIndex with seq := add64 s.memory.writeIndex 1 } i).seq) =
        update (fun i => (s.memory.slots i).seq) (s.produced.length % h.capacity)
          ((s.produced.length + 1) % 2 ^ 64) := by
      funext i
      rw [update_apply, update_apply, hslot, hsame]
      split
      · exact (congrArg (add64 · 1) hok.writeIndex).trans (add64_mod _)
      · rfl
    rw [length_append]
    exact hseq ▸ hok.stamps.publish
  · refine (hkeep _).trans ?_
    rw [List.getElem?_append] at hl'
    split at hl'
    · exact hok.stored l record' hl hl'
    next hge =>
      rw [List.getElem?_singleton] at hl'
      split at hl'
      · cases hl'
        have hlast : l = s.returned.length := by
          rw [hsame] at *
          omega
        rw [hlast]
        exact hbytes
      · cases hl'
  · have hconsumer := hok.consumer
    rw [setSlot]
    cases hcons : s.consumer with
    | copying r outCap =>
      rw [hcons] at hconsumer
      refine ⟨hconsumer.1, Nat.lt_of_lt_of_le hconsumer.2 ?_⟩
      rw [length_append]
      exact Nat.le_add_right _ _
    | releasing r record' =>
      rw [hcons] at hconsumer
      have hlt := (List.getElem?_eq_some_iff.mp hconsumer.2).1
      exact ⟨hconsumer.1, (List.getElem?_append_left hlt).trans hconsumer.2⟩
    | idle | aborted => trivial

theorem Ok.finish (hok : s.Ok h) (hreturning : s.producer = .returning w record ret) :
    Ok h { s with
      memory := { s.memory with writeIndex := add64 w 1 }
      producer := .idle
      lastReturn := some ret
      returned := s.returned ++ [record] } := by
  obtain ⟨k, hk⟩ := hok.shadow
  have hroom : s.returned.length < k + h.capacity := hk.room (by rw [reserved, hreturning])
  have hpublished := hok.published
  have hproducer := hok.producer
  rw [hreturning] at hpublished hproducer
  obtain ⟨rfl, hret⟩ := hproducer
  have hlen : (s.returned ++ [record]).length = s.returned.length + 1 := length_append
  refine { hok with
    writeIndex := ?_
    shadow := ⟨k, hk.cached, hk.behind, ?_, fun hr => ?_⟩
    published := ?_
    producer := trivial
    consumer := ?_ }
  · dsimp only
    rw [hlen, hok.writeIndex, add64_mod]
  · exact hlen ▸ hroom
  · -- The call returns success, which is not the promise of `HasSpace`.
    cases eq_of_beq hr
    cases hret
  · exact hpublished.trans (append_nil _).symm
  · have hconsumer := hok.consumer
    cases hcons : s.consumer <;> rw [hcons] at hconsumer <;> exact hconsumer

theorem Ok.tryConsume (hok : s.Ok h) (outCap : Nat) : (s.tryConsume h outCap).Ok h := by
  rw [Ring.tryConsume]
  split
  · have hproducer := hok.producer
    obtain ⟨k, hk⟩ := hok.shadow
    refine { hok with shadow := ⟨k, { hk with }⟩, producer := ?_, consumer := ⟨rfl, hok.available.mp ‹_›⟩ }
    cases hp : s.producer <;> rw [hp] at hproducer <;> exact hproducer
  · exact hok

theorem Ok.copy (hok : s.Ok h) {outCap : Nat} (hcopying : s.consumer = .copying r outCap) :
    (s.copy h r outCap).Ok h := by
  have hconsumer := hok.consumer
  rw [hcopying] at hconsumer
  obtain ⟨rfl, hlt⟩ := hconsumer
  have hproducer := hok.producer
  obtain ⟨k, hk⟩ := hok.shadow
  have hbytes : s.produced[s.consumed.length]? = some (s.slot h s.memory.readIndex).bytes := by
    obtain ⟨record, hrecord⟩ : ∃ record, s.produced[s.consumed.length]? = some record :=
      ⟨_, List.getElem?_eq_getElem hlt⟩
    rw [slot, hok.readIndex, RingHeader.slotAt_mod, hok.stored _ record (Nat.le_refl _) hrecord, hrecord]
  rw [Ring.copy]
  split
  · refine { hok with shadow := ⟨k, { hk with }⟩, producer := ?_, consumer := ⟨rfl, hbytes⟩ }
    cases hp : s.producer <;> rw [hp] at hproducer <;> exact hproducer
  · refine { hok with shadow := ⟨k, { hk with }⟩, producer := ?_, consumer := trivial }
    cases hp : s.producer <;> rw [hp] at hproducer <;> exact hproducer

theorem Ok.release (hok : s.Ok h) (hreleasing : s.consumer = .releasing r record) :
    Ok h { s with
      memory := { s.memory with readIndex := add64 r 1 }
      consumer := .idle
      consumed := s.consumed ++ [record] } := by
  have hconsumer := hok.consumer
  rw [hreleasing] at hconsumer
  obtain ⟨rfl, hrecord⟩ := hconsumer
  have hproducer := hok.producer
  obtain ⟨k, hk⟩ := hok.shadow
  have hlen : (s.consumed ++ [record]).length = s.consumed.length + 1 := length_append
  refine { hok with
    readIndex := ?_
    shadow := ⟨k, hk.cached, hlen ▸ Nat.le_succ_of_le hk.behind, hk.lap, hk.room⟩
    order := ?_
    stored := fun l record' hl => hok.stored l record' (Nat.le_of_succ_le (hlen.symm.trans_le hl))
    producer := ?_
    consumer := trivial }
  · dsimp only
    rw [hlen, hok.readIndex, add64_mod]
  · rw [prefix_iff_eq_take, hlen, take_add_one, hrecord, ← prefix_iff_eq_take.mp hok.order]
    rfl
  · cases hp : s.producer <;> rw [hp] at hproducer <;> exact hproducer

theorem Ok.step (hok : s.Ok h) (hstep : s.step h e = some s') : s'.Ok h := by
  cases e with
  | attach | hasSpace | tryProduce record | tryProduceBounded record maxSpins =>
    obtain ⟨hguard, rfl⟩ := Runs.of_guard hstep
    first
      | exact hok.attach hguard
      | exact hok.hasSpace hguard
      | exact hok.tryProduce hguard record
      | exact hok.tryProduceBounded hguard record maxSpins
  | spin | write | stamp | finish | copy | release =>
    rw [Ring.step] at hstep
    split at hstep
    · cases hstep
      first
        | exact hok.spin ‹_›
        | exact hok.write ‹_›
        | exact hok.stamp ‹_›
        | exact hok.finish ‹_›
        | exact hok.copy ‹_›
        | exact hok.release ‹_›
    · cases hstep
  | tryConsume outCap =>
    obtain ⟨-, rfl⟩ := Runs.of_guard hstep
    exact hok.tryConsume outCap

theorem Ok.start (h : RingHeader) : Ok h {} where
  writeIndex := rfl
  readIndex := rfl
  shadow := ⟨0, rfl, Nat.le_refl _, Nat.zero_le _, fun _ => Nat.lt_of_lt_of_le h.pos (Nat.le_add_left _ _)⟩
  published := rfl
  order := prefix_rfl
  stamps := .zero
  stored := nofun
  producer := trivial
  consumer := trivial

theorem Ok.promise (hok : s.Ok h) (hidle : s.producer = .idle) (hret : s.lastReturn = some (.hasSpace true))
    (hlen : record.length ≤ h.recordSize) :
    (s.tryProduce h record).producer = .writing s.memory.writeIndex record (.tryProduce true) := by
  obtain ⟨k, -, -, -, hreserved, hroom, -⟩ := hok.check (by rw [hidle]; rfl)
  have hspace : s.returned.length < k + h.capacity := by
    apply hreserved
    rw [reserved, hidle, hret]
    rfl
  have hstart : s.tryProduce h record = { s.refresh h s.memory.writeIndex with
      producer := .writing s.memory.writeIndex record (.tryProduce true), lastReturn := none } := by
    rw [Ring.tryProduce, if_neg (Nat.not_lt.mpr hlen)]
    exact if_pos (hroom.mpr hspace)
  rw [hstart]

theorem Ok.fifo (hok : s.Ok h) : s.Fifo h where
  order := hok.order
  bounded := hok.bounded
  published := hok.published
  available := hok.available
  promise hidle hret _ hlen := hok.promise hidle hret hlen

theorem Ok.full (hok : s.Ok h) (hc : s.producer.checking)
    (hroom : ¬ (s.refresh h s.memory.writeIndex).hasRoom h s.memory.writeIndex) :
    s.produced.length = s.consumed.length + h.capacity := by
  obtain ⟨k, -, -, hlap, -, hiff, hfresh⟩ := hok.check hc
  have hfull : s.returned.length = k + h.capacity := Nat.le_antisymm hlap (Nat.le_of_not_lt (mt hiff.mpr hroom))
  rw [hok.produced_of_checking hc, hfull, hfresh hfull]

theorem memory_refresh (w : Nat) : (s.refresh h w).memory = s.memory ∧ (s.refresh h w).produced = s.produced := by
  rw [refresh]
  split <;> exact ⟨rfl, rfl⟩

theorem Ok.produceOk (hok : s.Ok h) (hstep : s.step h e = some s') (hattempt : s.attempt e = some record) :
    ProduceOk h s record s' := by
  cases e with
  | attach | hasSpace | tryConsume | copy | release => cases hattempt
  | tryProduce record' =>
    cases hattempt
    obtain ⟨hidle, rfl⟩ := Runs.of_guard hstep
    have hc : s.producer.checking := by rw [hidle]; rfl
    rw [Ring.tryProduce]
    split
    · exact ⟨fun _ => ⟨rfl, rfl⟩, fun _ _ _ _ => ⟨hc, .inl ‹_›⟩⟩
    · dsimp only
      split
      · exact ⟨fun _ => memory_refresh _, nofun⟩
      · exact ⟨fun _ => memory_refresh _, fun _ _ _ _ => ⟨hc, .inr (hok.full hc ‹_›)⟩⟩
  | tryProduceBounded record' maxSpins =>
    cases hattempt
    obtain ⟨hidle, rfl⟩ := Runs.of_guard hstep
    have hc : s.producer.checking := by rw [hidle]; rfl
    rw [Ring.tryProduceBounded]
    split
    · exact ⟨fun _ => ⟨rfl, rfl⟩, fun _ _ _ _ => ⟨hc, .inl ‹_›⟩⟩
    · exact ⟨fun _ => ⟨rfl, rfl⟩, nofun⟩
  | spin =>
    rw [Ring.step] at hstep
    split at hstep
    next w record' n maxSpins hspinning =>
      cases hstep
      have hc : s.producer.checking := by rw [hspinning]; rfl
      have hproducer := hok.producer
      rw [hspinning] at hproducer
      obtain ⟨rfl, -⟩ := hproducer
      rw [Ring.spin]
      split
      · exact ⟨fun _ => memory_refresh _, nofun⟩
      · have hfull := hok.full hc ‹_›
        split
        · exact ⟨fun _ => memory_refresh _, fun _ _ _ _ => ⟨hc, .inr hfull⟩⟩
        · exact ⟨fun _ => memory_refresh _, nofun⟩
    · cases hstep
  | write | stamp =>
    rw [Ring.step] at hstep
    split at hstep
    next hstage =>
      cases hstep
      refine ⟨fun hc => ?_, nofun⟩
      rw [hstage] at hc
      cases hc
    · cases hstep
  | finish =>
    rw [Ring.step] at hstep
    split at hstep
    next w record' ret hreturning =>
      cases hstep
      have hproducer := hok.producer
      rw [hreturning] at hproducer
      refine ⟨fun hc => ?_, fun ret' _ hret hfailed => ?_⟩
      · rw [hreturning] at hc
        cases hc
      · -- A call that has published returns success.
        cases hret
        have hsucceeded := hproducer.2
        cases ret with
        | hasSpace => cases hfailed
        | tryProduce produced =>
          cases produced
          · cases hsucceeded
          · cases hfailed
        | tryProduceBounded status =>
          cases status
          · cases hfailed
          · cases hsucceeded
          · cases hsucceeded
    · cases hstep

theorem mailbox_ring_fifo (h : RingHeader) {es : List Event} {s : Ring}
    (hrun : Runs.Along (step h) (fun _ _ => True) {} es s) :
    s.Fifo h ∧ ∀ e s' record, s.step h e = some s' → s.attempt e = some record → ProduceOk h s record s' := by
  have hok : s.Ok h := hrun.invariant (I := Ok h) (fun _ _ _ _ hstep hok => hok.step hstep) (.start h)
  exact ⟨hok.fifo, fun e s' record hstep hattempt => hok.produceOk hstep hattempt⟩

def oneSlot : RingHeader := ⟨4, 1, by decide, by decide, by decide⟩

theorem mailbox_ring_fifo_oneSlotRun :
    ∃ s, Runs.Along (step oneSlot) (fun _ _ => True) {}
        [.tryProduce [1, 2], .write, .stamp, .finish, .tryProduceBounded [3] 1, .spin, .tryConsume 4, .copy, .release,
          .spin, .write, .stamp, .finish, .tryConsume 4, .copy, .release, .hasSpace] s ∧
      s.consumed = [[1, 2], [3]] ∧ s.Fifo oneSlot := by
  refine Runs.exists_of_exec (fun s : Ring => s.consumed)
    ([[1, 2], [3]] : List Record) (by decide +kernel) fun s hrun hs => ?_
  exact ⟨hs, (mailbox_ring_fifo oneSlot hrun).1⟩

end Ring

end Embarcadero.Mailbox
