import Mathlib

namespace Embarcadero.Mailbox

structure MailboxParams where
  (numBrokers recordSize upCapacity downCapacity : UInt32)

structure MailboxRingHeader where
  (magic version recordSize capacity slotStride : UInt32)
  slotsOffset : UInt64
  deriving DecidableEq

structure MailboxSegmentHeader where
  (magic version numBrokers recordSize upCapacity downCapacity : UInt32)
  (upStride downStride upBase downBase : UInt64)

def mailboxRingMagic : UInt32 := 0x584D4245
def mailboxSegmentMagic : UInt32 := 0x53424D45

def alignUp (n : Nat) : Nat := (n + 63) / 64 * 64

/-- `SlotStride`; a slot header takes one cache line, and the result is a 32-bit number. -/
def slotStride (recordSize : UInt32) : Nat :=
  if 64 + recordSize.toNat ≤ 64 then 64 else alignUp (64 + recordSize.toNat) % 2 ^ 32

def ringBytesNeeded (recordSize capacity : UInt32) : Nat := 192 + slotStride recordSize * capacity.toNat

structure Rings where
  (base stride : Nat)
  header : Nat → MailboxRingHeader

structure MailboxSegment where
  (bytes numBrokers : Nat)
  recordSize : UInt32
  /-- The rings up to the coordinator and down from it. -/
  rings : Bool → Rings

def Rings.start (r : Rings) (b : Nat) : Nat := (r.base + r.stride * b) % 2 ^ 64

def Rings.Attaches (r : Rings) (base b : Nat) : Prop :=
  (base + r.start b) % 2 ^ 64 % 64 = 0 ∧ (r.header b).magic = mailboxRingMagic ∧ (r.header b).version = 1 ∧
    ringBytesNeeded (r.header b).recordSize (r.header b).capacity ≤ r.stride

def createRing (recordSize capacity : UInt32) : MailboxRingHeader :=
  ⟨mailboxRingMagic, 1, recordSize, capacity, .ofNat (slotStride recordSize), 192⟩

def MailboxRingHeader.slotAt (h : MailboxRingHeader) (index : Nat) : Nat :=
  (h.slotsOffset.toNat + (index &&& (h.capacity - 1).toNat) % 2 ^ 32 * h.slotStride.toNat) % 2 ^ 64

inductive Source
  | create (p : MailboxParams)
  | attach (h : MailboxSegmentHeader) (ring : Bool → Nat → MailboxRingHeader)

def MailboxParams.capacity (p : MailboxParams) (up : Bool) : UInt32 := if up then p.upCapacity else p.downCapacity

def MailboxParams.stride (p : MailboxParams) (up : Bool) : Nat := ringBytesNeeded p.recordSize (p.capacity up)

def MailboxParams.bytesNeeded (p : MailboxParams) : Nat :=
  (64 + p.stride true * p.numBrokers.toNat + p.stride false * p.numBrokers.toNat) % 2 ^ 64

def MailboxParams.Accepted (p : MailboxParams) (bytes : Nat) : Prop :=
  p.bytesNeeded ≤ bytes ∧ 0 < p.numBrokers ∧ 0 < p.recordSize ∧ ∀ up, p.capacity up &&& (p.capacity up - 1) = 0

def MailboxSegmentHeader.params (h : MailboxSegmentHeader) : MailboxParams :=
  ⟨h.numBrokers, h.recordSize, h.upCapacity, h.downCapacity⟩

def MailboxSegmentHeader.stride (h : MailboxSegmentHeader) (up : Bool) : Nat :=
  (if up then h.upStride else h.downStride).toNat

def MailboxSegmentHeader.base (h : MailboxSegmentHeader) (up : Bool) : Nat :=
  (if up then h.upBase else h.downBase).toNat

def MailboxSegmentHeader.Accepted (h : MailboxSegmentHeader) (bytes : Nat) : Prop :=
  64 ≤ bytes ∧ h.magic = mailboxSegmentMagic ∧ h.version = 2 ∧ 0 < h.numBrokers ∧ 0 < h.recordSize ∧
    (∀ up, 0 < h.params.capacity up ∧ h.params.capacity up &&& (h.params.capacity up - 1) = 0 ∧
      h.stride up = h.params.stride up) ∧
    64 ≤ h.base true ∧ h.base true ≤ h.base false ∧ h.base true ≤ bytes ∧
    h.stride true ≤ (bytes - h.base true) / h.numBrokers.toNat ∧
    (h.base true + h.stride true * h.numBrokers.toNat) % 2 ^ 64 ≤ h.base false ∧
    h.base false ≤ bytes ∧ h.stride false ≤ (bytes - h.base false) / h.numBrokers.toNat

def Source.segment (bytes : UInt64) : Source → MailboxSegment
  | .create p => ⟨bytes.toNat, p.numBrokers.toNat, p.recordSize, fun up =>
      ⟨if up then 64 else (64 + p.stride true * p.numBrokers.toNat) % 2 ^ 64, p.stride up,
        fun _ => createRing p.recordSize (p.capacity up)⟩⟩
  | .attach h ring => ⟨bytes.toNat, h.numBrokers.toNat, h.recordSize, fun up => ⟨h.base up, h.stride up, ring up⟩⟩

/-- The segment passes the checks of `CreateInPlace` or `AttachInPlace` on a mapping at `base`. -/
def Source.Accepted (base : Nat) (bytes : UInt64) (src : Source) : Prop :=
  base ≠ 0 ∧ base % 64 = 0 ∧
    (match src with | .create p => p.Accepted bytes.toNat | .attach h _ => h.Accepted bytes.toNat) ∧
    ∀ up, ∀ b < (src.segment bytes).numBrokers, ((src.segment bytes).rings up).Attaches base b

structure MailboxSegment.Safe (x : MailboxSegment) : Prop where
  inside : ∀ up, ∀ b < x.numBrokers, 64 ≤ (x.rings up).start b ∧ (x.rings up).start b + (x.rings up).stride ≤ x.bytes
  disjoint : ∀ up up', ∀ b < x.numBrokers, ∀ b' < x.numBrokers, (up, b) ≠ (up', b') →
    (x.rings up).start b + (x.rings up).stride ≤ (x.rings up').start b' ∨
      (x.rings up').start b' + (x.rings up').stride ≤ (x.rings up).start b
  slots : ∀ up, ∀ b < x.numBrokers, ∀ i < 2 ^ 64, 192 ≤ ((x.rings up).header b).slotAt i ∧
    ((x.rings up).header b).slotAt i + 64 + x.recordSize.toNat ≤ (x.rings up).stride
  slots_disjoint : ∀ up, ∀ b < x.numBrokers, ∀ i < 2 ^ 64, ∀ j < 2 ^ 64,
    i % ((x.rings up).header b).capacity.toNat < j % ((x.rings up).header b).capacity.toNat →
    ((x.rings up).header b).slotAt i + 64 + x.recordSize.toNat ≤ ((x.rings up).header b).slotAt j

def MailboxRingHeader.Fits (r : MailboxRingHeader) (recordSize : UInt32) (stride : Nat) : Prop :=
  0 < r.capacity ∧ r.capacity &&& (r.capacity - 1) = 0 ∧ 192 ≤ r.slotsOffset.toNat ∧
    r.slotsOffset.toNat + (r.capacity.toNat - 1) * r.slotStride.toNat + 64 + recordSize.toNat ≤ stride ∧
    (r.capacity = 1 ∨ 64 + recordSize.toNat ≤ r.slotStride.toNat)

def Source.Sized : Source → Prop
  | .create p => p.recordSize.toNat ≤ 2 ^ 32 - 128 ∧ (∀ up, 0 < p.capacity up) ∧
      64 + p.stride true * p.numBrokers.toNat + p.stride false * p.numBrokers.toNat < 2 ^ 64
  | .attach h ring => ∀ up, ∀ b < h.numBrokers.toNat, (ring up b).Fits h.recordSize (h.stride up)

section

variable (base : Nat) (bytes : UInt64) (b n : Nat) (p : MailboxParams) (h : MailboxSegmentHeader) (r : Rings)

instance : Decidable (r.Attaches base b) := inferInstanceAs (Decidable (_ ∧ _))
instance : Decidable (p.Accepted n) := inferInstanceAs (Decidable (_ ∧ _ ∧ _ ∧ ∀ _ : Bool, _))
instance (r : MailboxRingHeader) (recordSize : UInt32) : Decidable (r.Fits recordSize n) :=
  inferInstanceAs (Decidable (_ ∧ _ ∧ _ ∧ _ ∧ (_ ∨ _)))
instance : Decidable (h.Accepted n) := inferInstanceAs (Decidable (_ ∧ _ ∧ _ ∧ _ ∧ _ ∧ (∀ _ : Bool, _) ∧ _))

instance : (src : Source) → Decidable (src.Accepted base bytes)
  | .create p => inferInstanceAs (Decidable (_ ∧ _ ∧ p.Accepted _ ∧ ∀ _ : Bool, ∀ b < p.numBrokers.toNat, _))
  | .attach h _ => inferInstanceAs (Decidable (_ ∧ _ ∧ h.Accepted _ ∧ ∀ _ : Bool, ∀ b < h.numBrokers.toNat, _))

instance : (src : Source) → Decidable src.Sized
  | .create _ => inferInstanceAs (Decidable (_ ∧ (∀ _ : Bool, _) ∧ _))
  | .attach h _ => inferInstanceAs (Decidable (∀ _ : Bool, ∀ b < h.numBrokers.toNat, _))

end

variable {r c : UInt32} {x : MailboxSegment}

theorem slotStride_lt (r : UInt32) : slotStride r < 2 ^ 32 := by
  rw [slotStride]
  split <;> omega

theorem le_slotStride_iff : 64 + r.toNat ≤ slotStride r ↔ r.toNat ≤ 2 ^ 32 - 128 := by
  have hr := r.toNat_lt
  rw [slotStride, alignUp]
  split <;> omega

theorem exists_unmasked {n : Nat} (hpos : 0 < n) (h : n &&& (n - 1) ≠ 0) : ∃ j, 0 < j ∧ j < n ∧ j &&& (n - 1) = 0 := by
  obtain ⟨t, m, hodd, rfl⟩ := Nat.exists_eq_two_pow_mul_odd (Nat.ne_of_gt hpos)
  have hm : m ≠ 1 := by
    rintro rfl
    rw [Nat.mul_one, Nat.and_two_pow_sub_one_eq_mod, Nat.mod_self] at h
    exact h rfl
  have hpow := Nat.two_pow_pos t
  obtain ⟨d, rfl⟩ := hodd
  have hd : 0 < d := by omega
  refine ⟨2 ^ t, hpow, (Nat.lt_mul_iff_one_lt_right hpow).mpr (by omega), ?_⟩
  have hdiv : (2 ^ t * (2 * d + 1) - 1) / 2 ^ t = 2 * d := by
    rw [Nat.div_eq_iff hpow, Nat.mul_comm (2 * d)]
    rw [Nat.mul_add, Nat.mul_one]
    omega
  rw [Nat.two_pow_and, Nat.testBit_eq_decide_div_mod_eq, hdiv]
  simp

namespace MailboxRingHeader

variable {q : MailboxRingHeader} {stride : Nat}

theorem capacity_sub_toNat (hpos : 0 < q.capacity) : (q.capacity - 1).toNat = q.capacity.toNat - 1 :=
  UInt32.toNat_sub_of_le q.capacity 1 (UInt32.le_iff_toNat_le.mpr (UInt32.lt_iff_toNat_lt.mp hpos))

theorem slotAt_eq (q : MailboxRingHeader) (i : Nat) : q.slotAt i =
    (q.slotsOffset.toNat + (i &&& (q.capacity - 1).toNat) * q.slotStride.toNat) % 2 ^ 64 := by
  rw [slotAt, Nat.mod_eq_of_lt (Nat.lt_of_le_of_lt Nat.and_le_right (q.capacity - 1).toNat_lt)]

theorem slotAt_of_power (hpos : 0 < q.capacity) (hpower : q.capacity &&& (q.capacity - 1) = 0) (i : Nat) :
    q.slotAt i = (q.slotsOffset.toNat + i % q.capacity.toNat * q.slotStride.toNat) % 2 ^ 64 := by
  have hand := congrArg UInt32.toNat hpower
  rw [UInt32.toNat_and, capacity_sub_toNat hpos] at hand
  obtain ⟨k, hk⟩ := (Nat.and_sub_one_eq_zero_iff_isPowerOfTwo (Nat.ne_of_gt (UInt32.lt_iff_toNat_lt.mp hpos))).mp hand
  rw [slotAt_eq, capacity_sub_toNat hpos, hk, Nat.and_two_pow_sub_one_eq_mod]

structure SlotsSafe (q : MailboxRingHeader) (recordSize : UInt32) (stride : Nat) : Prop where
  inside : ∀ i < 2 ^ 64, 192 ≤ q.slotAt i ∧ q.slotAt i + 64 + recordSize.toNat ≤ stride
  disjoint : ∀ i < 2 ^ 64, ∀ j < 2 ^ 64, i % q.capacity.toNat < j % q.capacity.toNat →
    q.slotAt i + 64 + recordSize.toNat ≤ q.slotAt j

theorem Fits.safe (h : q.Fits r stride) (hstride : stride < 2 ^ 64) : q.SlotsSafe r stride := by
  obtain ⟨hpos, hpower, hoffset, hlast, hslot⟩ := h
  have hc := UInt32.lt_iff_toNat_lt.mp hpos
  have hle : ∀ i, i % q.capacity.toNat * q.slotStride.toNat ≤ (q.capacity.toNat - 1) * q.slotStride.toNat := fun i =>
    Nat.mul_le_mul_right _ (Nat.le_sub_one_of_lt (Nat.mod_lt i hc))
  have heq : ∀ i, q.slotAt i = q.slotsOffset.toNat + i % q.capacity.toNat * q.slotStride.toNat := fun i => by
    have := hle i
    rw [slotAt_of_power hpos hpower, Nat.mod_eq_of_lt (by omega)]
  refine ⟨fun i _ => ?_, fun i _ j _ hij => ?_⟩
  · have := hle i
    rw [heq]
    omega
  · cases hslot with
    | inl hone =>
      rw [hone] at hij
      change i % 1 < j % 1 at hij
      omega
    | inr hslot =>
      have hstep := Nat.mul_le_mul_right q.slotStride.toNat (Nat.succ_le_of_lt hij)
      rw [Nat.succ_mul] at hstep
      rw [heq, heq]
      omega

theorem SlotsSafe.power (h : q.SlotsSafe r stride) : 0 < q.capacity ∧ q.capacity &&& (q.capacity - 1) = 0 := by
  -- two indices with the same masked value would share a slot
  have hsame : ∀ j < 2 ^ 64, 0 < j % q.capacity.toNat → j &&& (q.capacity - 1).toNat ≠ 0 := by
    intro j hj hlt hzero
    have hle := h.disjoint 0 (by decide) j hj (by rwa [Nat.zero_mod])
    rw [slotAt_eq, slotAt_eq, hzero, Nat.zero_and] at hle
    omega
  have hpos : 0 < q.capacity := by
    by_contra hzero
    have hc : q.capacity = 0 := UInt32.le_antisymm (UInt32.not_lt.mp hzero) (UInt32.zero_le)
    refine hsame (2 ^ 32) (by decide) ?_ ?_
    · rw [hc]
      decide
    · rw [hc]
      decide
  refine ⟨hpos, ?_⟩
  by_contra hne
  have hnat : q.capacity.toNat &&& (q.capacity.toNat - 1) ≠ 0 := by
    intro hzero
    refine hne (UInt32.toNat.inj ?_)
    rw [UInt32.toNat_and, capacity_sub_toNat hpos, hzero]
    rfl
  obtain ⟨j, hj, hlt, hzero⟩ := exists_unmasked (UInt32.lt_iff_toNat_lt.mp hpos) hnat
  have hc := q.capacity.toNat_lt
  refine hsame j (by omega) (by rwa [Nat.mod_eq_of_lt hlt]) ?_
  rwa [capacity_sub_toNat hpos]

theorem SlotsSafe.fits (h : q.SlotsSafe r stride) : q.Fits r stride := by
  obtain ⟨hpos, hpower⟩ := h.power
  have hc := UInt32.lt_iff_toNat_lt.mp hpos
  have hc' := q.capacity.toNat_lt
  have hs := q.slotStride.toNat_lt
  have hmod : ∀ i < q.capacity.toNat, q.slotAt i = (q.slotsOffset.toNat + i * q.slotStride.toNat) % 2 ^ 64 :=
    fun i hi => by rw [slotAt_of_power hpos hpower, Nat.mod_eq_of_lt hi]
  -- slot after slot the addresses grow, so they never wrap around
  have heq : ∀ i < q.capacity.toNat, q.slotAt i = q.slotsOffset.toNat + i * q.slotStride.toNat := by
    intro i
    induction i with
    | zero =>
      intro hi
      rw [hmod 0 hi, Nat.zero_mul, Nat.add_zero, Nat.mod_eq_of_lt q.slotsOffset.toNat_lt]
    | succ i ih =>
      intro hi
      have hprev := ih (Nat.lt_of_succ_lt hi)
      have hlt := hmod i (Nat.lt_of_succ_lt hi) ▸ Nat.mod_lt (q.slotsOffset.toNat + i * q.slotStride.toNat)
        (Nat.two_pow_pos 64)
      have hdis := h.disjoint i (by omega) (i + 1) (by omega)
        (by rw [Nat.mod_eq_of_lt hi, Nat.mod_eq_of_lt (Nat.lt_of_succ_lt hi)]; exact Nat.lt_succ_self i)
      rw [hmod (i + 1) hi, Nat.succ_mul, ← Nat.add_assoc, ← hprev] at hdis ⊢
      omega
  have hfirst := h.inside 0 (by decide)
  have hlast := h.inside (q.capacity.toNat - 1) (by omega)
  rw [heq 0 hc, Nat.zero_mul, Nat.add_zero] at hfirst
  rw [heq _ (by omega)] at hlast
  refine ⟨hpos, hpower, hfirst.1, hlast.2, ?_⟩
  by_cases hone : q.capacity.toNat = 1
  · exact .inl (UInt32.toNat.inj hone)
  · have hdis := h.disjoint 0 (by decide) 1 (by decide)
      (by rw [Nat.zero_mod, Nat.mod_eq_of_lt (by omega)]; exact Nat.one_pos)
    rw [heq 0 hc, heq 1 (by omega)] at hdis
    exact .inr (by omega)

theorem fits_createRing (hpower : c &&& (c - 1) = 0) :
    (createRing r c).Fits r (ringBytesNeeded r c) ↔ 0 < c ∧ r.toNat ≤ 2 ^ 32 - 128 := by
  have hslot : (createRing r c).slotStride.toNat = Mailbox.slotStride r :=
    UInt32.toNat_ofNat_of_lt' (slotStride_lt r)
  have hmul : 0 < c →
      Mailbox.slotStride r * c.toNat = (c.toNat - 1) * Mailbox.slotStride r + Mailbox.slotStride r := by
    intro hpos
    have hc : 1 ≤ c.toNat := UInt32.lt_iff_toNat_lt.mp hpos
    rw [Nat.mul_comm, ← Nat.succ_mul, Nat.succ_eq_add_one, Nat.sub_add_cancel hc]
  rw [Fits, hslot, ringBytesNeeded, ← le_slotStride_iff]
  change 0 < c ∧ c &&& (c - 1) = 0 ∧ 192 ≤ 192 ∧ 192 + (c.toNat - 1) * _ + 64 + r.toNat ≤ _ ∧ (c = 1 ∨ _) ↔ _
  constructor
  · rintro ⟨hpos, -, -, hle, -⟩
    have hbytes := hmul hpos
    exact ⟨hpos, by omega⟩
  · rintro ⟨hpos, hle⟩
    have hbytes := hmul hpos
    exact ⟨hpos, hpower, Nat.le_refl _, by omega, .inr hle⟩

end MailboxRingHeader

structure MailboxSegment.Spaced (x : MailboxSegment) : Prop where
  bytes : x.bytes < 2 ^ 64
  up : 64 ≤ (x.rings true).base
  down : (x.rings true).base + (x.rings true).stride * x.numBrokers ≤ (x.rings false).base
  last : (x.rings false).base + (x.rings false).stride * x.numBrokers ≤ x.bytes

theorem mul_add_le {n k b : Nat} (hb : b < n) : k * b + k ≤ k * n := Nat.mul_succ k b ▸ Nat.mul_le_mul_left k hb

theorem MailboxSegment.Spaced.start_eq (h : x.Spaced) {up : Bool} {b : Nat} (hb : b < x.numBrokers) :
    (x.rings up).start b = (x.rings up).base + (x.rings up).stride * b := by
  have := mul_add_le (k := (x.rings up).stride) hb
  have := h.bytes
  have := h.down
  have := h.last
  rw [Rings.start, Nat.mod_eq_of_lt]
  cases up <;> omega

theorem MailboxSegment.Spaced.safe (h : x.Spaced)
    (hfits : ∀ up, ∀ b < x.numBrokers, ((x.rings up).header b).Fits x.recordSize (x.rings up).stride) : x.Safe := by
  have hup := h.up
  have hdown := h.down
  have hlast := h.last
  have hbytes := h.bytes
  have hslots : ∀ up, ∀ b < x.numBrokers, ((x.rings up).header b).SlotsSafe x.recordSize (x.rings up).stride := by
    intro up b hb
    have := mul_add_le (k := (x.rings up).stride) hb
    refine (hfits up b hb).safe ?_
    cases up <;> omega
  refine ⟨fun up b hb => ?_, fun up up' b hb b' hb' hne => ?_, fun up b hb => (hslots up b hb).inside,
    fun up b hb => (hslots up b hb).disjoint⟩
  · have := mul_add_le (k := (x.rings up).stride) hb
    rw [h.start_eq hb]
    cases up <;> omega
  · rw [h.start_eq hb, h.start_eq hb']
    have hle := mul_add_le (k := (x.rings up).stride) hb
    have hle' := mul_add_le (k := (x.rings up').stride) hb'
    by_cases hd : up = up'
    · subst hd
      have hb : b ≠ b' := fun heq => hne (congrArg _ heq)
      rcases Nat.lt_or_gt_of_ne hb with hlt | hlt
      · have := mul_add_le (k := (x.rings up).stride) hlt
        omega
      · have := mul_add_le (k := (x.rings up).stride) hlt
        omega
    · cases up <;> cases up' <;> first | exact absurd rfl hd | omega

theorem Rings.stop_le {q : Rings} {bytes n : Nat} (hbytes : bytes < 2 ^ 64) (hbase : q.base < 2 ^ 64) (hn : 0 < n)
    (h : ∀ b < n, q.start b + q.stride ≤ bytes) : q.base + q.stride * n ≤ bytes := by
  have hstart : ∀ b < n, q.start b = q.base + q.stride * b := by
    intro b
    induction b with
    | zero => exact fun _ => Nat.mod_eq_of_lt hbase
    | succ b ih =>
      intro hb
      have hprev := ih (Nat.lt_of_succ_lt hb)
      have hle := h b (Nat.lt_of_succ_lt hb)
      rw [Rings.start, Nat.mul_succ, ← Nat.add_assoc, ← hprev, Nat.mod_eq_of_lt (by omega)]
  have hlast := h (n - 1) (by omega)
  have hmul : q.stride * n = q.stride * (n - 1) + q.stride := by
    rw [← Nat.mul_succ, Nat.succ_eq_add_one, Nat.sub_add_cancel hn]
  rw [hstart (n - 1) (by omega)] at hlast
  omega

theorem MailboxSegment.Safe.fits (h : x.Safe) (up : Bool) {b : Nat} (hb : b < x.numBrokers) :
    ((x.rings up).header b).Fits x.recordSize (x.rings up).stride :=
  MailboxRingHeader.SlotsSafe.fits ⟨h.slots up b hb, h.slots_disjoint up b hb⟩

theorem MailboxParams.safe_iff {p : MailboxParams} {bytes : UInt64} (haccepted : p.Accepted bytes.toNat) :
    ((Source.create p).segment bytes).Safe ↔ (Source.create p).Sized := by
  obtain ⟨hneeded, hbrokers, -, hpower⟩ := haccepted
  have hn := UInt32.lt_iff_toNat_lt.mp hbrokers
  have hbytes := bytes.toNat_lt
  constructor
  · intro h
    have hfits : ∀ up, 0 < p.capacity up ∧ p.recordSize.toNat ≤ 2 ^ 32 - 128 := fun up =>
      (MailboxRingHeader.fits_createRing (hpower up)).mp (h.fits up hn)
    have hup := Rings.stop_le (q := (((Source.create p).segment bytes).rings true)) hbytes
      (show 64 < 2 ^ 64 by decide) hn fun b hb => (h.inside true b hb).2
    change 64 + p.stride true * p.numBrokers.toNat ≤ bytes.toNat at hup
    have hbase : (((Source.create p).segment bytes).rings false).base = 64 + p.stride true * p.numBrokers.toNat :=
      Nat.mod_eq_of_lt (by omega)
    have hdown := Rings.stop_le hbytes (by rw [hbase]; omega) hn fun b hb => (h.inside false b hb).2
    rw [hbase] at hdown
    exact ⟨(hfits true).2, fun up => (hfits up).1, Nat.lt_of_le_of_lt hdown hbytes⟩
  · rintro ⟨hrecord, hpos, hsize⟩
    rw [MailboxParams.bytesNeeded, Nat.mod_eq_of_lt hsize] at hneeded
    have hbase : (64 + p.stride true * p.numBrokers.toNat) % 2 ^ 64 = 64 + p.stride true * p.numBrokers.toNat :=
      Nat.mod_eq_of_lt (by omega)
    refine MailboxSegment.Spaced.safe ⟨hbytes, Nat.le_refl _, hbase.ge, ?_⟩ fun up b _ => ?_
    · exact (Nat.add_le_add_right hbase.le _).trans hneeded
    · exact (MailboxRingHeader.fits_createRing (hpower up)).mpr ⟨hpos up, hrecord⟩

theorem MailboxSegmentHeader.spaced {h : MailboxSegmentHeader} {ring : Bool → Nat → MailboxRingHeader} {bytes : UInt64}
    (haccepted : h.Accepted bytes.toNat) : ((Source.attach h ring).segment bytes).Spaced := by
  obtain ⟨-, -, -, hbrokers, -, -, hup, -, hupLe, hupStride, hdown, hdownLe, hdownStride⟩ := haccepted
  have hn := UInt32.lt_iff_toNat_lt.mp hbrokers
  rw [Nat.le_div_iff_mul_le hn] at hupStride hdownStride
  have hbytes := bytes.toNat_lt
  rw [Nat.mod_eq_of_lt (by omega)] at hdown
  refine ⟨hbytes, hup, hdown, ?_⟩
  dsimp only [Source.segment]
  omega

def smallParams : MailboxParams := ⟨2, 512, 4, 8⟩

end Embarcadero.Mailbox
