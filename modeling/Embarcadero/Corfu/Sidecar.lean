import Embarcadero.Corfu.OrderedChain
import Embarcadero.Lib.Journal
import Embarcadero.Lib.LittleEndian

namespace Embarcadero.Corfu

open List

structure CorfuSlotKey where
  topic : List UInt8
  brokerId : UInt32
  brokerBatchSeq : UInt64
  deriving DecidableEq

inductive CorfuSlotState
  | unwritten
  | value
  | junk
  deriving DecidableEq

structure Entry where
  state : CorfuSlotState
  value : CorfuValueId
  offset : UInt64
  size : UInt64
  deriving DecidableEq

def kMagic : UInt32 := 0x43524653

def kVersion : UInt16 := 1

def kMaxTopic : Nat := 1024

section Crc

def crcBit (crc : UInt32) : UInt32 := (crc >>> 1) ^^^ (0x82f63b78 &&& (0 - (crc &&& 1)))

def crcByte (crc : UInt32) (b : UInt8) : UInt32 := Nat.iterate crcBit 8 (crc ^^^ b.toUInt32)

def crc32c (bytes : List UInt8) : UInt32 := ~~~ bytes.foldl crcByte (~~~ 0)

end Crc

def put8 (v : UInt8) : List UInt8 := LittleEndian.encode 1 v.toNat

def put16 (v : UInt16) : List UInt8 := LittleEndian.encode 2 v.toNat

def put32 (v : UInt32) : List UInt8 := LittleEndian.encode 4 v.toNat

def put64 (v : UInt64) : List UInt8 := LittleEndian.encode 8 v.toNat

def get (w : Nat) (p : List UInt8) : Option (Nat × List UInt8) :=
  if p.length < w then none else some (LittleEndian.decode (p.take w), p.drop w)

def get8 (p : List UInt8) : Option (UInt8 × List UInt8) := (get 1 p).map fun r => (UInt8.ofNat r.1, r.2)

def get16 (p : List UInt8) : Option (UInt16 × List UInt8) := (get 2 p).map fun r => (UInt16.ofNat r.1, r.2)

def get32 (p : List UInt8) : Option (UInt32 × List UInt8) := (get 4 p).map fun r => (UInt32.ofNat r.1, r.2)

def get64 (p : List UInt8) : Option (UInt64 × List UInt8) := (get 8 p).map fun r => (UInt64.ofNat r.1, r.2)

def CorfuSlotState.toByte : CorfuSlotState → UInt8
  | .unwritten => 0
  | .value => 1
  | .junk => 2

def putFields (key : CorfuSlotKey) (e : Entry) : List UInt8 :=
  put32 key.brokerId ++ (put64 key.brokerBatchSeq ++ (put8 e.state.toByte ++ (put64 e.value.clientId ++
    (put64 e.value.originalClientBatchSeq ++ (put64 e.value.totalOrder ++ (put32 e.value.numMsg ++
      (put64 e.value.totalSize ++ (put64 e.offset ++ put64 e.size))))))))

def putBody (key : CorfuSlotKey) (e : Entry) : List UInt8 :=
  put16 (UInt16.ofNat key.topic.length) ++ (key.topic ++ putFields key e)

def putHeader (len : UInt32) : List UInt8 := put32 kMagic ++ put16 kVersion ++ put16 0 ++ put32 len

def bodyLength (r : CorfuSlotKey × Entry) : UInt32 := UInt32.ofNat (putBody r.1 r.2).length

def checksum (r : CorfuSlotKey × Entry) : UInt32 := crc32c (putHeader (bodyLength r) ++ putBody r.1 r.2)

def putRecord (r : CorfuSlotKey × Entry) : List UInt8 :=
  putHeader (bodyLength r) ++ putBody r.1 r.2 ++ put32 (checksum r)

def getHeader (p : List UInt8) : Option (UInt32 × List UInt8) := do
  let (magic, p) ← get32 p
  let (ver, p) ← get16 p
  let (_, p) ← get16 p
  let (len, p) ← get32 p
  if magic ≠ kMagic ∨ ver ≠ kVersion then none else some (len, p)

def getFields (topic p : List UInt8) : Option (CorfuSlotKey × UInt8 × CorfuValueId × UInt64 × UInt64) := do
  let brokerId ← get32 p
  let brokerBatchSeq ← get64 brokerId.2
  let state ← get8 brokerBatchSeq.2
  let clientId ← get64 state.2
  let originalClientBatchSeq ← get64 clientId.2
  let totalOrder ← get64 originalClientBatchSeq.2
  let numMsg ← get32 totalOrder.2
  let totalSize ← get64 numMsg.2
  let offset ← get64 totalSize.2
  let size ← get64 offset.2
  if size.2 ≠ [] then none
  else some (⟨topic, brokerId.1, brokerBatchSeq.1⟩, state.1,
    ⟨clientId.1, originalClientBatchSeq.1, totalOrder.1, numMsg.1, totalSize.1⟩, offset.1, size.1)

def getBody (p : List UInt8) : Option (CorfuSlotKey × UInt8 × CorfuValueId × UInt64 × UInt64) := do
  let (topicLen, p) ← get16 p
  if kMaxTopic < topicLen.toNat ∨ p.length < topicLen.toNat then none
  else getFields (p.take topicLen.toNat) (p.drop topicLen.toNat)

def getState (state : UInt8) : Option CorfuSlotState :=
  if state = CorfuSlotState.value.toByte then some .value
  else if state = CorfuSlotState.junk.toByte then some .junk
  else none

def getRecord (fileSize : Nat) (bytes : List UInt8) : Except String (Option ((CorfuSlotKey × Entry) × List UInt8)) :=
  if bytes.length < 12 then .ok none
  else
    match getHeader bytes with
    | none => .error "corrupt Corfu sidecar header"
    | some (len, p) =>
      if fileSize < len.toNat ∨ p.length < (len + 4).toNat then .ok none
      else
        match getBody (p.take len.toNat) with
        | none => .error "corrupt Corfu sidecar body"
        | some (key, state, value, offset, size) =>
          match get32 (p.drop len.toNat) with
          | none => .error "corrupt Corfu sidecar checksum"
          | some (crc, rest) =>
            if crc ≠ crc32c (bytes.take (12 + len.toNat)) then
              if rest = [] then .ok none else .error "corrupt Corfu sidecar checksum"
            else
              match getState state with
              | none => .error "corrupt Corfu sidecar state"
              | some state => .ok (some ((key, ⟨state, value, offset, size⟩), rest))

structure Recordable (r : CorfuSlotKey × Entry) : Prop where
  topic : r.1.topic.length ≤ kMaxTopic
  state : r.2.state ≠ .unwritten

theorem get_append {w v : Nat} (hv : v < 256 ^ w) (rest : List UInt8) :
    get w (LittleEndian.encode w v ++ rest) = some (v, rest) := by
  have hlen := LittleEndian.length_encode w v
  rw [get, if_neg (by rw [length_append]; omega), take_left' hlen, drop_left' hlen,
    LittleEndian.decode_encode, Nat.mod_eq_of_lt hv]

@[simp] theorem get8_put8 (v : UInt8) (rest : List UInt8) : get8 (put8 v ++ rest) = some (v, rest) := by
  rw [get8, put8, get_append (Nat.lt_of_lt_of_eq v.toNat_lt (by decide)), Option.map_some, UInt8.ofNat_toNat]

@[simp] theorem get16_put16 (v : UInt16) (rest : List UInt8) : get16 (put16 v ++ rest) = some (v, rest) := by
  rw [get16, put16, get_append (Nat.lt_of_lt_of_eq v.toNat_lt (by decide)), Option.map_some, UInt16.ofNat_toNat]

@[simp] theorem get32_put32 (v : UInt32) (rest : List UInt8) : get32 (put32 v ++ rest) = some (v, rest) := by
  rw [get32, put32, get_append (Nat.lt_of_lt_of_eq v.toNat_lt (by decide)), Option.map_some, UInt32.ofNat_toNat]

@[simp] theorem get64_put64 (v : UInt64) (rest : List UInt8) : get64 (put64 v ++ rest) = some (v, rest) := by
  rw [get64, put64, get_append (Nat.lt_of_lt_of_eq v.toNat_lt (by decide)), Option.map_some, UInt64.ofNat_toNat]

theorem getHeader_putHeader (len : UInt32) (rest : List UInt8) :
    getHeader (putHeader len ++ rest) = some (len, rest) := by
  simp [getHeader, putHeader, append_assoc]

theorem getState_toByte {state : CorfuSlotState} (h : state ≠ .unwritten) : getState state.toByte = some state := by
  cases state with
  | unwritten => exact absurd rfl h
  | value => rfl
  | junk => rfl

theorem getFields_putFields (key : CorfuSlotKey) (e : Entry) :
    getFields key.topic (putFields key e) = some (key, e.state.toByte, e.value, e.offset, e.size) := by
  have hlast := get64_put64 e.size []
  rw [append_nil] at hlast
  have hbind : ∀ {α β : Type} (a : α) (f : α → Option β), (some a >>= f) = f a := fun _ _ => rfl
  rw [getFields, putFields, get32_put32, hbind, get64_put64, hbind, get8_put8, hbind, get64_put64, hbind,
    get64_put64, hbind, get64_put64, hbind, get32_put32, hbind, get64_put64, hbind, get64_put64, hbind, hlast, hbind]
  rfl

theorem getBody_putBody {key : CorfuSlotKey} {e : Entry} (h : key.topic.length ≤ kMaxTopic) :
    getBody (putBody key e) = some (key, e.state.toByte, e.value, e.offset, e.size) := by
  have hsmall : key.topic.length < 2 ^ 16 := Nat.lt_of_le_of_lt h (by decide)
  have hlen : (UInt16.ofNat key.topic.length).toNat = key.topic.length := UInt16.toNat_ofNat_of_lt' hsmall
  rw [getBody, putBody, get16_put16, Option.bind_eq_bind, Option.bind_some]
  dsimp only
  rw [hlen, if_neg (by rw [length_append]; omega), take_left, drop_left]
  exact getFields_putFields key e

theorem length_putHeader (len : UInt32) : (putHeader len).length = 12 := by
  simp [putHeader, put16, put32]

theorem length_putBody (key : CorfuSlotKey) (e : Entry) : (putBody key e).length = key.topic.length + 67 := by
  simp only [putBody, putFields, put8, put16, put32, put64, length_append, LittleEndian.length_encode]
  omega

section Record

variable {r : CorfuSlotKey × Entry}

theorem putRecord_append (r : CorfuSlotKey × Entry) (rest : List UInt8) :
    putRecord r ++ rest = putHeader (bodyLength r) ++ (putBody r.1 r.2 ++ (put32 (checksum r) ++ rest)) := by
  rw [putRecord, append_assoc, append_assoc]

theorem length_putRecord (r : CorfuSlotKey × Entry) : (putRecord r).length = (putBody r.1 r.2).length + 16 := by
  have hlen := congrArg List.length (putRecord_append r [])
  simp only [append_nil, length_append, length_putHeader, put32, LittleEndian.length_encode] at hlen
  omega

theorem toNat_bodyLength (h : Recordable r) :
    (bodyLength r).toNat = (putBody r.1 r.2).length ∧ (bodyLength r + 4).toNat = (putBody r.1 r.2).length + 4 := by
  have htopic : r.1.topic.length ≤ 1024 := h.topic
  have hlen := length_putBody r.1 r.2
  have hsmall : (bodyLength r).toNat = (putBody r.1 r.2).length :=
    UInt32.toNat_ofNat_of_lt' (by rw [hlen]; exact Nat.lt_of_le_of_lt (Nat.add_le_add_right htopic 67) (by decide))
  refine ⟨hsmall, ?_⟩
  rw [UInt32.toNat_add, hsmall, hlen]
  exact Nat.mod_eq_of_lt (Nat.lt_of_le_of_lt (Nat.add_le_add_right (Nat.add_le_add_right htopic 67) 4) (by decide))

theorem getRecord_putRecord (h : Recordable r) {fileSize : Nat} (rest : List UInt8)
    (hsize : (putRecord r ++ rest).length ≤ fileSize) :
    getRecord fileSize (putRecord r ++ rest) = .ok (some (r, rest)) := by
  obtain ⟨hlen, hlen4⟩ := toNat_bodyLength h
  have hlength := length_putRecord r
  have hheader : getHeader (putRecord r ++ rest) =
      some (bodyLength r, putBody r.1 r.2 ++ (put32 (checksum r) ++ rest)) := by
    rw [putRecord_append]
    exact getHeader_putHeader _ _
  have htake : (putRecord r ++ rest).take (12 + (putBody r.1 r.2).length) =
      putHeader (bodyLength r) ++ putBody r.1 r.2 := by
    rw [putRecord_append, ← append_assoc, take_left']
    rw [length_append, length_putHeader]
  have hfits : ¬ (fileSize < (putBody r.1 r.2).length ∨
      (putBody r.1 r.2 ++ (put32 (checksum r) ++ rest)).length < (putBody r.1 r.2).length + 4) := by
    rw [length_append] at hsize
    simp only [length_append, put32, LittleEndian.length_encode]
    omega
  rw [getRecord, if_neg (by rw [length_append]; omega), hheader]
  dsimp only
  rw [hlen, hlen4, if_neg hfits, take_left, drop_left, getBody_putBody h.topic]
  dsimp only
  rw [get32_put32]
  dsimp only
  rw [htake, ← checksum, if_neg (not_not_intro rfl), getState_toByte h.state]

theorem getRecord_torn {fileSize : Nat} {torn : List UInt8} (h : Journal.Torn putRecord Recordable torn) :
    getRecord fileSize torn = .ok none := by
  rw [getRecord]
  split
  · rfl
  next hlong =>
    obtain rfl | ⟨r, hr, hpre, hne⟩ := h
    · exact absurd (Nat.zero_lt_succ _) hlong
    · have hlength := length_putRecord r
      have hshort : torn.length < (putRecord r).length :=
        Nat.lt_of_le_of_ne hpre.length_le fun heq => hne (hpre.eq_of_length heq)
      -- The header is complete: the rest is shorter than it announces.
      obtain ⟨q, hq, hqlen⟩ : ∃ q, torn = putHeader (bodyLength r) ++ q ∧ q.length < (putBody r.1 r.2).length + 4 := by
        have htake := prefix_iff_eq_take.mp hpre
        rw [← append_nil (putRecord r), putRecord_append, take_append, length_putHeader,
          take_of_length_le (by rw [length_putHeader]; omega)] at htake
        refine ⟨_, htake, ?_⟩
        rw [length_take]
        omega
      rw [hq, getHeader_putHeader]
      dsimp only
      rw [if_pos]
      right
      rw [(toNat_bodyLength hr).2]
      exact hqlen

end Record

theorem framed_putRecord : Journal.Framed putRecord Recordable where
  nonempty _ heq := by
    have hlen := congrArg List.length heq
    rw [length_putRecord, length_nil] at hlen
    omega
  split {a b r r'} ha hb heq := by
    have hread := getRecord_putRecord ha r (Nat.le_refl _)
    have hread' := getRecord_putRecord hb r' (Nat.le_refl _)
    rw [heq, hread'] at hread
    cases hread
    exact ⟨rfl, rfl⟩

end Embarcadero.Corfu
