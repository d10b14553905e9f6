import Embarcadero.Corfu.Sidecar
import Embarcadero.Lib.Runs

namespace Embarcadero.LazyLog

open List
open Corfu (crc32c put32)
open Function (update)
open Journal (fill image Torn)

structure MetadataAppendRequest where
  topic : List UInt8
  sourceBrokerId : UInt32
  sourceBatchSeq : UInt64
  clientId : UInt32
  clientBatchSeq : UInt64
  payloadOffset : UInt64
  payloadSize : UInt64
  numMessages : UInt32
  deriving DecidableEq

structure Wire where
  serialize : MetadataAppendRequest → List UInt8
  parse : List UInt8 → Option MetadataAppendRequest
  parse_serialize : ∀ r, parse (serialize r) = some r

def kRecordMagic : UInt32 := 0x4c4c4d44

def kRecordVersion : UInt32 := 1

def kRecordHeaderBytes : Nat := 16

def decimal (n : Nat) : List UInt8 := (Nat.toDigits 10 n).map fun c => UInt8.ofNat c.toNat

abbrev MetadataKey := List UInt8

def slotKey (r : MetadataAppendRequest) : MetadataKey :=
  r.topic ++ 0x1f :: decimal r.sourceBrokerId.toNat ++ 0x1f :: decimal r.clientId.toNat ++
    0x1f :: decimal r.clientBatchSeq.toNat

def getLe32 (p : List UInt8) : UInt32 := UInt32.ofNat (LittleEndian.decode (p.take 4))

abbrev MetadataRecords := MetadataKey → Option (List UInt8)

def replayLoop (w : Wire) : Nat → Nat → List UInt8 → MetadataRecords → Except String (MetadataRecords × Nat × Bool)
  | 0, offset, _, records => .ok (records, offset, false)
  | fuel + 1, offset, bytes, records =>
    if bytes.length = 0 then .ok (records, offset, false)
    else if bytes.length < kRecordHeaderBytes then .ok (records, offset, true)
    else
      let magic := getLe32 bytes
      let version := getLe32 (bytes.drop 4)
      let length := getLe32 (bytes.drop 8)
      let crc := getLe32 (bytes.drop 12)
      let body := bytes.drop kRecordHeaderBytes
      if magic ≠ kRecordMagic ∨ version ≠ kRecordVersion ∨ length = 0 ∨ length.toNat > 2 ^ 20 then
        .error ("metadata sidecar corrupt record at offset " ++ toString offset)
      else if body.length < length.toNat then .ok (records, offset, true)
      else
        let encoded := body.take length.toNat
        if crc32c encoded ≠ crc then .error ("metadata sidecar checksum failure at offset " ++ toString offset)
        else
          match w.parse encoded with
          | none => .error ("metadata sidecar invalid protobuf at offset " ++ toString offset)
          | some request =>
            if request.topic = [] then .error ("metadata sidecar invalid protobuf at offset " ++ toString offset)
            else
              replayLoop w fuel (offset + (kRecordHeaderBytes + length.toNat)) (body.drop length.toNat)
                (update records (slotKey request) (some encoded))

def replay (w : Wire) (bytes : List UInt8) : Except String (MetadataRecords × Nat × Bool) :=
  replayLoop w bytes.length 0 bytes fun _ => none

def frame (encoded : List UInt8) : List UInt8 :=
  put32 kRecordMagic ++ (put32 kRecordVersion ++ (put32 (UInt32.ofNat encoded.length) ++
    (put32 (crc32c encoded) ++ encoded)))

inductive WriteOutcome
  | failed (written : Nat)
  | unsynced
  | synced
  deriving DecidableEq

structure MetadataStore where
  file : List UInt8 := []
  synced : Nat := 0
  isOpen : Bool := false
  records : MetadataRecords := fun _ => none
  acked : List (MetadataKey × List UInt8) := []

inductive MetadataEvent
  /-- `truncated`: `ftruncate` does not fail. -/
  | reopen (truncated : Bool)
  | append (request : MetadataAppendRequest) (outcome : WriteOutcome)
  /-- All but `kept` unsynced bytes are lost.  `settled`: the bytes that are left are on the medium, so
  that a later crash leaves them too. -/
  | crash (kept : Nat) (settled : Bool)

namespace MetadataStore

def reopen (w : Wire) (s : MetadataStore) (truncated : Bool) : MetadataStore :=
  if s.isOpen then s
  else
    match replay w s.file with
    | .error _ => s
    | .ok (records, offset, torn) =>
      if torn && !truncated then s
      else { s with file := s.file.take offset, synced := min s.synced offset, isOpen := true, records }

def appendRecord (s : MetadataStore) (encoded : List UInt8) (outcome : WriteOutcome) : MetadataStore × Option String :=
  if encoded = [] ∨ encoded.length > 2 ^ 32 - 1 then (s, some "invalid metadata sidecar record length")
  else
    match outcome with
    | .failed written =>
      ({ s with file := s.file ++ (frame encoded).take (min written ((frame encoded).length - 1)) },
        some "sidecar write failed")
    | .unsynced => ({ s with file := s.file ++ frame encoded }, some "metadata sidecar fdatasync failed")
    | .synced =>
      let file := s.file ++ frame encoded
      ({ s with file, synced := file.length }, none)

def append (w : Wire) (s : MetadataStore) (request : MetadataAppendRequest) (outcome : WriteOutcome) :
    MetadataStore × Except String Bool :=
  if request.topic = [] then (s, .error "metadata topic must not be empty")
  else if !s.isOpen then (s, .error "metadata sidecar not open")
  else
    let encoded := w.serialize request
    match s.records (slotKey request) with
    | some record =>
      if record = encoded then (s, .ok true)
      else (s, .error "metadata slot conflicts with a different descriptor")
    | none =>
      match s.appendRecord encoded outcome with
      | (s, some error) => (s, .error error)
      | (s, none) => ({ s with records := update s.records (slotKey request) (some encoded) }, .ok false)

def crash (s : MetadataStore) (kept : Nat) (settled : Bool) : MetadataStore :=
  let file := s.file.take (s.synced + kept)
  { s with file, synced := if settled then file.length else s.synced, isOpen := false, records := fun _ => none }

def step (w : Wire) (s : MetadataStore) : MetadataEvent → Option MetadataStore
  | .reopen truncated => some (s.reopen w truncated)
  | .append request outcome =>
    match s.append w request outcome with
    | (s, .error _) => some s
    | (s, .ok _) => some { s with acked := s.acked ++ [(slotKey request, w.serialize request)] }
  | .crash kept settled => some (s.crash kept settled)

def Whole (w : Wire) (s : MetadataStore) : Bool :=
  match replay w s.file with
  | .ok (_, _, torn) => !torn
  | .error _ => false

def Clean (w : Wire) (s : MetadataStore) : MetadataEvent → Prop
  | .append request _ => s.Whole w ∧ (w.serialize request).length ≤ 2 ^ 20
  | .crash _ settled => settled
  | .reopen _ => True

instance (w : Wire) (s : MetadataStore) : (e : MetadataEvent) → Decidable (s.Clean w e)
  | .append .. => inferInstanceAs (Decidable (_ ∧ _))
  | .crash .. => inferInstanceAs (Decidable (_ = _))
  | .reopen _ => isTrue trivial

end MetadataStore

structure Recordable (w : Wire) (r : MetadataAppendRequest) : Prop where
  topic : r.topic ≠ []
  nonempty : w.serialize r ≠ []
  length : (w.serialize r).length ≤ 2 ^ 20

def putRecord (w : Wire) (r : MetadataAppendRequest) : List UInt8 := frame (w.serialize r)

variable {w : Wire} {r : MetadataAppendRequest} {rs : List MetadataAppendRequest} {torn : List UInt8}
  {records : MetadataRecords} {fuel offset : Nat}

section Frame

theorem length_put32 (v : UInt32) : (put32 v).length = 4 := LittleEndian.length_encode 4 _

theorem getLe32_put32 (v : UInt32) (rest : List UInt8) : getLe32 (put32 v ++ rest) = v := by
  rw [getLe32, take_left' (length_put32 v), put32, LittleEndian.decode_encode,
    Nat.mod_eq_of_lt (Nat.lt_of_lt_of_eq v.toNat_lt (by decide)), UInt32.ofNat_toNat]

theorem drop_put32 (v : UInt32) (n : Nat) (rest : List UInt8) : (put32 v ++ rest).drop (4 + n) = rest.drop n := by
  rw [← drop_drop, drop_left' (length_put32 v)]

theorem length_frame (encoded : List UInt8) : (frame encoded).length = kRecordHeaderBytes + encoded.length := by
  simp only [frame, length_append, length_put32, kRecordHeaderBytes]
  omega

theorem replayLoop_header (encoded body : List UInt8) (hne : encoded ≠ []) (hlen : encoded.length ≤ 2 ^ 20) :
    replayLoop w (fuel + 1) offset (put32 kRecordMagic ++ (put32 kRecordVersion ++
        (put32 (UInt32.ofNat encoded.length) ++ (put32 (crc32c encoded) ++ body)))) records =
      if body.length < encoded.length then .ok (records, offset, true)
      else
        if crc32c (body.take encoded.length) ≠ crc32c encoded then
          .error ("metadata sidecar checksum failure at offset " ++ toString offset)
        else
          match w.parse (body.take encoded.length) with
          | none => .error ("metadata sidecar invalid protobuf at offset " ++ toString offset)
          | some request =>
            if request.topic = [] then .error ("metadata sidecar invalid protobuf at offset " ++ toString offset)
            else
              replayLoop w fuel (offset + (kRecordHeaderBytes + encoded.length)) (body.drop encoded.length)
                (update records (slotKey request) (some (body.take encoded.length))) := by
  have hsmall : (UInt32.ofNat encoded.length).toNat = encoded.length :=
    UInt32.toNat_ofNat_of_lt' (Nat.lt_of_le_of_lt hlen (by decide))
  have hpos : UInt32.ofNat encoded.length ≠ 0 := by
    intro hzero
    rw [hzero] at hsmall
    exact hne (eq_nil_of_length_eq_zero hsmall.symm)
  have hversion := drop_put32 kRecordMagic 0
  have hlength := drop_put32 kRecordMagic 4
  have hcrc := drop_put32 kRecordMagic 8
  have hbody := drop_put32 kRecordMagic 12
  rw [replayLoop, if_neg (by simp only [length_append, length_put32]; omega),
    if_neg (by simp only [length_append, length_put32, kRecordHeaderBytes]; omega)]
  dsimp only [kRecordHeaderBytes]
  rw [hversion, hlength, hcrc, hbody, drop_zero, drop_put32 _ 0, drop_put32 _ 4, drop_put32 _ 8, drop_put32 _ 0,
    drop_put32 _ 4, drop_put32 _ 0]
  simp only [drop_zero, getLe32_put32]
  rw [if_neg (by simp only [ne_eq, not_true_eq_false, hpos, hsmall, false_or]; omega), hsmall]

theorem replayLoop_putRecord (hr : Recordable w r) (rest : List UInt8) :
    replayLoop w (fuel + 1) offset (putRecord w r ++ rest) records =
      replayLoop w fuel (offset + (putRecord w r).length) rest
        (update records (slotKey r) (some (w.serialize r))) := by
  rw [putRecord, length_frame, frame]
  simp only [append_assoc]
  rw [replayLoop_header _ _ hr.nonempty hr.length, if_neg (by rw [length_append]; omega), take_left,
    drop_left, if_neg (not_not_intro rfl), w.parse_serialize]
  exact if_neg hr.topic

theorem replayLoop_torn (h : Torn (putRecord w) (Recordable w) torn) (hfuel : torn.length ≤ fuel) :
    replayLoop w fuel offset torn records = .ok (records, offset, !torn.isEmpty) := by
  cases fuel with
  | zero =>
    cases eq_nil_of_length_eq_zero (Nat.le_zero.mp hfuel)
    rfl
  | succ fuel =>
    obtain rfl | ⟨r, hr, hpre, hne⟩ := h
    · rfl
    · have hshort : torn.length < (putRecord w r).length :=
        Nat.lt_of_le_of_ne hpre.length_le fun heq => hne (hpre.eq_of_length heq)
      rw [putRecord, length_frame] at hshort
      have htake := prefix_iff_eq_take.mp hpre
      rcases Nat.lt_or_ge torn.length kRecordHeaderBytes with hlt | hge
      · by_cases hnil : torn = []
        · rw [hnil]
          rfl
        · rw [replayLoop, if_neg fun hzero => hnil (eq_nil_of_length_eq_zero hzero), if_pos hlt,
            isEmpty_eq_false_iff.mpr hnil]
          rfl
      · -- The header is complete: the rest is shorter than it announces.
        obtain ⟨n, hn⟩ := Nat.exists_eq_add_of_le hge
        rw [kRecordHeaderBytes] at hn hshort
        have hbody : torn = put32 kRecordMagic ++ (put32 kRecordVersion ++
            (put32 (UInt32.ofNat (w.serialize r).length) ++
              (put32 (crc32c (w.serialize r)) ++ (w.serialize r).take n))) := by
          have hsplit : 16 + n = 4 + (4 + (4 + (4 + n))) := by omega
          have hput : ∀ (v : UInt32) (m : Nat) (rest : List UInt8),
              (put32 v ++ rest).take (4 + m) = put32 v ++ rest.take m := fun v m rest => by
            rw [take_append, length_put32, take_of_length_le (by rw [length_put32]; omega), Nat.add_sub_cancel_left]
          rw [hn, hsplit, putRecord, frame, hput, hput, hput, hput] at htake
          exact htake
        rw [hbody, replayLoop_header _ _ hr.nonempty hr.length, if_pos (by rw [length_take]; omega)]
        simp [put32, LittleEndian.encode]

theorem replayLoop_image (hrs : ∀ r ∈ rs, Recordable w r) (htorn : Torn (putRecord w) (Recordable w) torn)
    (hfuel : (image (putRecord w) rs ++ torn).length ≤ fuel) :
    replayLoop w fuel offset (image (putRecord w) rs ++ torn) records =
      .ok (fill slotKey w.serialize records rs, offset + (image (putRecord w) rs).length, !torn.isEmpty) := by
  induction rs generalizing fuel offset records with
  | nil => exact replayLoop_torn htorn hfuel
  | cons r rs ih =>
    rw [Journal.image_cons, append_assoc] at hfuel ⊢
    rw [length_append] at hfuel
    have hlen := length_frame (w.serialize r)
    rw [kRecordHeaderBytes, ← putRecord] at hlen
    cases fuel with
    | zero => omega
    | succ fuel =>
      rw [replayLoop_putRecord (hrs r mem_cons_self), ih (fun r' hr' => hrs r' (mem_cons_of_mem _ hr'))
        (by omega), length_append, Nat.add_assoc]
      rfl

theorem replay_image (hrs : ∀ r ∈ rs, Recordable w r) (htorn : Torn (putRecord w) (Recordable w) torn) :
    replay w (image (putRecord w) rs ++ torn) =
      .ok (fill slotKey w.serialize (fun _ => none) rs, (image (putRecord w) rs).length, !torn.isEmpty) := by
  rw [replay, replayLoop_image hrs htorn (Nat.le_refl _), Nat.zero_add]

end Frame

namespace MetadataStore

variable {s s' : MetadataStore} {e : MetadataEvent} {es : List MetadataEvent}

def Stored (w : Wire) (rs : List MetadataAppendRequest) (synced : Nat) (a : MetadataKey × List UInt8) : Prop :=
  ∃ pre r post, rs = pre ++ r :: post ∧ (slotKey r, w.serialize r) = a ∧ (∀ x ∈ post, slotKey x ≠ a.1) ∧
    (image (putRecord w) (pre ++ [r])).length ≤ synced

structure Ok (w : Wire) (s : MetadataStore) (rs : List MetadataAppendRequest) (torn : List UInt8) : Prop where
  file : s.file = image (putRecord w) rs ++ torn
  recordable : ∀ r ∈ rs, Recordable w r
  torn : Torn (putRecord w) (Recordable w) torn
  bound : s.synced ≤ s.file.length
  closed : s.isOpen = false → s.synced = s.file.length
  acked : ∀ a ∈ s.acked, Stored w rs s.synced a
  records : s.isOpen → ∀ k v, s.records k = some v → Stored w rs s.synced (k, v)
  known : s.isOpen → ∀ a ∈ s.acked, s.records a.1 = some a.2

section Stored

variable {n n' : Nat} {a b : MetadataKey × List UInt8}

theorem Stored.mono (h : Stored w rs n a) (hn : n ≤ n') : Stored w rs n' a := by
  obtain ⟨pre, r, post, hrs, ha, hpost, hle⟩ := h
  exact ⟨pre, r, post, hrs, ha, hpost, hle.trans hn⟩

theorem Stored.append (h : Stored w rs n a) (hr : slotKey r ≠ a.1) : Stored w (rs ++ [r]) n a := by
  obtain ⟨pre, r', post, rfl, ha, hpost, hle⟩ := h
  refine ⟨pre, r', post ++ [r], by simp, ha, fun x hx => ?_, hle⟩
  cases mem_append.mp hx with
  | inl hx => exact hpost x hx
  | inr hx =>
    cases mem_singleton.mp hx
    exact hr

theorem Stored.fill (h : Stored w rs n a) (m : MetadataRecords) :
    Journal.fill slotKey w.serialize m rs a.1 = some a.2 := by
  obtain ⟨pre, r, post, rfl, rfl, hpost, -⟩ := h
  exact Journal.fill_last hpost

theorem Stored.unique (h : Stored w rs n a) (h' : Stored w rs n' b) (heq : a.1 = b.1) : a = b :=
  Prod.ext heq (Option.some.inj ((h.fill fun _ => none).symm.trans (heq ▸ h'.fill fun _ => none)))

theorem Stored.take (h : Stored w rs n a) {m : Nat} (hn : n ≤ m) :
    Stored w (rs.take (Journal.whole (putRecord w) rs m)) n a := by
  obtain ⟨pre, r, post, rfl, ha, hpost, hle⟩ := h
  have hsplit : pre ++ r :: post = (pre ++ [r]) ++ post := by simp
  have htake : (pre ++ r :: post).take (pre.length + 1) = pre ++ [r] := by
    rw [hsplit, take_left' (by simp)]
  have hwhole : pre.length + 1 ≤ Journal.whole (putRecord w) (pre ++ r :: post) m :=
    Journal.le_whole (by simp) (by rw [htake]; exact hle.trans hn)
  refine ⟨pre, r, post.take (Journal.whole (putRecord w) (pre ++ r :: post) m - (pre.length + 1)), ?_, ha,
    fun x hx => hpost x (mem_of_mem_take hx), hle⟩
  conv => lhs; rw [hsplit]
  rw [take_append, take_of_length_le (by simpa using hwhole)]
  simp

theorem stored_of_fill {k : MetadataKey} {v : List UInt8}
    (h : Journal.fill slotKey w.serialize (fun _ => none) rs k = some v)
    (hn : (image (putRecord w) rs).length ≤ n) : Stored w rs n (k, v) := by
  obtain ⟨pre, r, post, rfl, rfl, rfl, hpost⟩ := Journal.exists_last h
  refine ⟨pre, r, post, rfl, rfl, hpost, le_trans ?_ hn⟩
  simp only [Journal.image_append, Journal.image_cons, Journal.image_nil, length_append, append_nil]
  omega

end Stored

theorem ok_start (w : Wire) : Ok w {} [] [] where
  file := rfl
  recordable := nofun
  torn := .inl rfl
  bound := Nat.le_refl _
  closed _ := rfl
  acked := nofun
  records := nofun
  known := nofun

theorem Ok.replay (h : s.Ok w rs torn) : LazyLog.replay w s.file =
    .ok (Journal.fill slotKey w.serialize (fun _ => none) rs, (image (putRecord w) rs).length, !torn.isEmpty) := by
  rw [h.file]
  exact replay_image h.recordable h.torn

theorem Ok.reopen (h : s.Ok w rs torn) (truncated : Bool) : ∃ torn', (s.reopen w truncated).Ok w rs torn' := by
  rw [MetadataStore.reopen]
  split
  · exact ⟨torn, h⟩
  next hclosed =>
    rw [h.replay]
    dsimp only
    split
    · exact ⟨torn, h⟩
    · have hsynced := h.closed (Bool.eq_false_iff.mpr hclosed)
      have hfile : s.file.take (image (putRecord w) rs).length = image (putRecord w) rs := by
        rw [h.file, take_left]
      have hmin : min s.synced (image (putRecord w) rs).length = (image (putRecord w) rs).length := by
        rw [hsynced, h.file, length_append]
        exact Nat.min_eq_right (Nat.le_add_right _ _)
      have hacked : ∀ a ∈ s.acked, Stored w rs (image (putRecord w) rs).length a := fun a ha =>
        stored_of_fill ((h.acked a ha).fill _) (Nat.le_refl _)
      rw [hfile, hmin]
      exact ⟨[], {
        file := (append_nil _).symm
        recordable := h.recordable
        torn := .inl rfl
        bound := Nat.le_refl _
        closed := nofun
        acked := hacked
        records := fun _ k v hv => stored_of_fill hv (Nat.le_refl _)
        known := fun _ a ha => (h.acked a ha).fill _ }⟩

theorem Ok.crash (h : s.Ok w rs torn) (kept : Nat) : ∃ rs' torn', (s.crash kept true).Ok w rs' torn' := by
  obtain ⟨torn', hfile, htorn⟩ := Journal.take_image h.recordable h.torn (s.synced + kept)
  have hle : s.synced ≤ (s.file.take (s.synced + kept)).length := by
    rw [length_take]
    exact Nat.le_min.mpr ⟨Nat.le_add_right _ _, h.bound⟩
  exact ⟨rs.take (Journal.whole (putRecord w) rs (s.synced + kept)), torn', {
    file := by rw [← hfile, ← h.file]; rfl
    recordable := fun r hr => h.recordable r (mem_of_mem_take hr)
    torn := htorn
    bound := Nat.le_refl _
    closed := fun _ => rfl
    acked := fun a ha => ((h.acked a ha).take (Nat.le_add_right _ _)).mono hle
    records := nofun
    known := nofun }⟩

theorem Ok.appendRecord (h : s.Ok w rs []) (hopen : s.isOpen) (htopic : r.topic ≠ [])
    (hlen : (w.serialize r).length ≤ 2 ^ 20) (hnew : s.records (slotKey r) = none) {outcome : WriteOutcome}
    {error : Option String} (hs' : s.appendRecord (w.serialize r) outcome = (s', error)) :
    (error ≠ none → ∃ rs' torn', s'.Ok w rs' torn') ∧ (error = none → ∃ rs', Ok w { s' with
        records := update s'.records (slotKey r) (some (w.serialize r))
        acked := s'.acked ++ [(slotKey r, w.serialize r)] } rs' []) := by
  have hother : ∀ a ∈ s.acked, slotKey r ≠ a.1 := by
    intro a ha heq
    rw [heq, h.known hopen a ha] at hnew
    cases hnew
  have hother' : ∀ k v, s.records k = some v → slotKey r ≠ k := by
    rintro k v hv rfl
    cases hnew.symm.trans hv
  rw [MetadataStore.appendRecord.eq_def] at hs'
  split at hs'
  · cases hs'
    exact ⟨fun _ => ⟨rs, [], h⟩, nofun⟩
  next hvalid =>
    rw [not_or] at hvalid
    have hr : Recordable w r := ⟨htopic, hvalid.1, hlen⟩
    have hfile : s.file ++ putRecord w r = image (putRecord w) (rs ++ [r]) ++ [] := by
      rw [h.file, Journal.image_append, Journal.image_cons, Journal.image_nil]
      simp
    have hrecordable : ∀ x ∈ rs ++ [r], Recordable w x := fun x hx => by
      cases mem_append.mp hx with
      | inl hx => exact h.recordable x hx
      | inr hx =>
        cases mem_singleton.mp hx
        exact hr
    cases outcome with
    | failed written =>
      cases hs'
      refine ⟨fun _ => ⟨rs, _, { h with
        file := ?_
        torn := Journal.torn_take (n := min written ((putRecord w r).length - 1)) hr ?_
        bound := ?_
        closed := fun hclosed => absurd (hopen.symm.trans hclosed) nofun }⟩, nofun⟩
      · dsimp only
        rw [h.file, append_nil]
        rfl
      · have hlength := length_frame (w.serialize r)
        rw [← putRecord, kRecordHeaderBytes] at hlength
        omega
      · dsimp only
        rw [length_append]
        exact h.bound.trans (Nat.le_add_right _ _)
    | unsynced =>
      cases hs'
      exact ⟨fun _ => ⟨rs ++ [r], [], {
        file := hfile
        recordable := hrecordable
        torn := .inl rfl
        bound := by dsimp only; rw [length_append]; exact h.bound.trans (Nat.le_add_right _ _)
        closed := fun hclosed => absurd (hopen.symm.trans hclosed) nofun
        acked := fun a ha => (h.acked a ha).append (hother a ha)
        records := fun _ k v hv => (h.records hopen k v hv).append (hother' k v hv)
        known := h.known }⟩, nofun⟩
    | synced =>
      cases hs'
      have hsynced : s.synced ≤ (s.file ++ frame (w.serialize r)).length := by
        rw [length_append]
        exact h.bound.trans (Nat.le_add_right _ _)
      have hlast : Stored w (rs ++ [r]) (s.file ++ frame (w.serialize r)).length (slotKey r, w.serialize r) := by
        refine ⟨rs, r, [], rfl, rfl, nofun, ?_⟩
        have := congrArg List.length hfile
        rw [append_nil] at this
        exact this.ge
      refine ⟨nofun, fun _ => ⟨rs ++ [r], {
        file := hfile
        recordable := hrecordable
        torn := .inl rfl
        bound := Nat.le_refl _
        closed := fun hclosed => absurd (hopen.symm.trans hclosed) nofun
        acked := fun a ha => ?_
        records := fun _ k v hv => ?_
        known := fun _ a ha => ?_ }⟩⟩
      · cases mem_append.mp ha with
        | inl ha => exact ((h.acked a ha).append (hother a ha)).mono hsynced
        | inr ha =>
          cases mem_singleton.mp ha
          exact hlast
      · dsimp only at hv
        rw [Function.update_apply] at hv
        split at hv
        next heq =>
          cases hv
          cases heq
          exact hlast
        · exact ((h.records hopen k v hv).append (hother' k v hv)).mono hsynced
      · dsimp only
        cases mem_append.mp ha with
        | inl ha =>
          rw [Function.update_of_ne (Ne.symm (hother a ha))]
          exact h.known hopen a ha
        | inr ha =>
          cases mem_singleton.mp ha
          exact Function.update_self ..

theorem Ok.acknowledge (h : s.Ok w rs torn) (hopen : s.isOpen) {a : MetadataKey × List UInt8}
    (ha : s.records a.1 = some a.2) : Ok w { s with acked := s.acked ++ [a] } rs torn := by
  have hmem : ∀ b ∈ s.acked ++ [a], b ∈ s.acked ∨ b = a := fun b hb =>
    (mem_append.mp hb).imp_right mem_singleton.mp
  refine { h with acked := fun b hb => ?_, known := fun _ b hb => ?_ }
  · obtain hb | rfl := hmem b hb
    · exact h.acked b hb
    · exact h.records hopen b.1 b.2 ha
  · obtain hb | rfl := hmem b hb
    · exact h.known hopen b hb
    · exact ha

theorem Ok.nil_of_whole (h : s.Ok w rs torn) (hwhole : s.Whole w) : torn = [] := by
  rw [Whole, h.replay] at hwhole
  simpa using hwhole

theorem append_cases (w : Wire) (s : MetadataStore) (request : MetadataAppendRequest) (outcome : WriteOutcome) :
    (∃ error, s.append w request outcome = (s, .error error)) ∨
      s.isOpen ∧ s.records (slotKey request) = some (w.serialize request) ∧
        s.append w request outcome = (s, .ok true) ∨
      request.topic ≠ [] ∧ s.isOpen ∧ s.records (slotKey request) = none ∧ ∃ s' error,
        s.appendRecord (w.serialize request) outcome = (s', error) ∧
          s.append w request outcome = error.elim
            ({ s' with records := update s'.records (slotKey request) (some (w.serialize request)) }, .ok false)
            fun error => (s', .error error) := by
  rw [append]
  by_cases htopic : request.topic = []
  · rw [if_pos htopic]
    exact .inl ⟨_, rfl⟩
  · rw [if_neg htopic]
    cases hopen : s.isOpen with
    | false => exact .inl ⟨_, rfl⟩
    | true =>
      rw [if_neg (show ¬ (!true) = true from nofun)]
      cases hrecord : s.records (slotKey request) with
      | some record =>
        by_cases heq : record = w.serialize request
        · exact .inr (.inl ⟨rfl, congrArg some heq, if_pos heq⟩)
        · exact .inl ⟨_, if_neg heq⟩
      | none =>
        dsimp only
        cases s.appendRecord (w.serialize request) outcome with
        | mk s' error => exact .inr (.inr ⟨htopic, rfl, rfl, s', error, rfl, by cases error <;> rfl⟩)

theorem Ok.step (h : s.Ok w rs torn) (hk : s.Clean w e) (hstep : s.step w e = some s') :
    ∃ rs' torn', s'.Ok w rs' torn' := by
  cases e with
  | reopen truncated =>
    cases hstep
    exact ⟨rs, h.reopen truncated⟩
  | crash kept settled =>
    cases hstep
    cases (hk : settled = true)
    exact h.crash kept
  | append request outcome =>
    cases h.nil_of_whole hk.1
    rw [MetadataStore.step] at hstep
    obtain ⟨error, happend⟩ | ⟨hopen, hrecord, happend⟩ | ⟨htopic, hopen, hnew, s'', error, hrecord, happend⟩ :=
      append_cases w s request outcome
    · rw [happend] at hstep
      cases hstep
      exact ⟨rs, [], h⟩
    · rw [happend] at hstep
      cases hstep
      exact ⟨rs, [], h.acknowledge hopen hrecord⟩
    · rw [happend] at hstep
      obtain ⟨hfailed, hdone⟩ := h.appendRecord hopen htopic hk.2 hnew hrecord
      cases error with
      | some error =>
        cases hstep
        exact hfailed nofun
      | none =>
        cases hstep
        obtain ⟨rs', hok⟩ := hdone rfl
        exact ⟨rs', [], hok⟩

theorem Ok.refuses (h : s.Ok w rs torn) {a : MetadataKey × List UInt8} (ha : a ∈ s.acked)
    {request : MetadataAppendRequest} (hslot : slotKey request = a.1) (hne : w.serialize request ≠ a.2)
    (outcome : WriteOutcome) : ∃ error, (s.append w request outcome).2 = .error error := by
  have hknown : s.isOpen → s.records (slotKey request) = some a.2 := fun hopen => hslot ▸ h.known hopen a ha
  obtain ⟨error, happend⟩ | ⟨hopen, hrecord, -⟩ | ⟨-, hopen, hnew, -⟩ := append_cases w s request outcome
  · exact ⟨error, congrArg Prod.snd happend⟩
  · exact absurd (Option.some.inj (hrecord.symm.trans (hknown hopen))) hne
  · cases hnew.symm.trans (hknown hopen)

/-- As long as descriptors are short enough for `Replay` and are appended only behind complete records,
whatever a crash leaves can be opened and has every acknowledged descriptor, and no slot acknowledges
two of them. -/
theorem metadata_replica_recovers (hrun : Runs.Along (step w) (Clean w) {} es s) :
    (∀ kept settled, ((s.crash kept settled).reopen w true).isOpen ∧
      ∀ a ∈ s.acked, ((s.crash kept settled).reopen w true).records a.1 = some a.2) ∧
    (∀ a ∈ s.acked, ∀ b ∈ s.acked, a.1 = b.1 → a = b) ∧
    ∀ a ∈ s.acked, ∀ request outcome, slotKey request = a.1 → w.serialize request ≠ a.2 →
      ∃ error, (s.append w request outcome).2 = .error error := by
  have hok : ∃ rs torn, s.Ok w rs torn :=
    hrun.invariant (I := fun s => ∃ rs torn, Ok w s rs torn) (fun _ _ _ hk hstep ⟨_, _, h⟩ => h.step hk hstep)
      ⟨[], [], ok_start w⟩
  obtain ⟨rs, torn, h⟩ := hok
  refine ⟨fun kept settled => ?_, fun a ha b hb => (h.acked a ha).unique (h.acked b hb),
    fun a ha request outcome hslot hne => h.refuses ha hslot hne outcome⟩
  obtain ⟨rs', torn', h'⟩ := h.crash kept
  have hreplay : LazyLog.replay w (s.crash kept settled).file = _ := h'.replay
  rw [reopen, if_neg (show ¬ (s.crash kept settled).isOpen from nofun), hreplay]
  dsimp only
  rw [Bool.not_true, Bool.and_false, if_neg Bool.false_ne_true]
  exact ⟨rfl, fun a ha => (h'.acked a ha).fill _⟩

section Scenario

def plainSerialize (r : MetadataAppendRequest) : List UInt8 :=
  put32 r.sourceBrokerId ++ (Corfu.put64 r.sourceBatchSeq ++ (put32 r.clientId ++ (Corfu.put64 r.clientBatchSeq ++
    (Corfu.put64 r.payloadOffset ++ (Corfu.put64 r.payloadSize ++ (put32 r.numMessages ++ r.topic))))))

def plainParse (p : List UInt8) : Option MetadataAppendRequest := do
  let sourceBrokerId ← Corfu.get32 p
  let sourceBatchSeq ← Corfu.get64 sourceBrokerId.2
  let clientId ← Corfu.get32 sourceBatchSeq.2
  let clientBatchSeq ← Corfu.get64 clientId.2
  let payloadOffset ← Corfu.get64 clientBatchSeq.2
  let payloadSize ← Corfu.get64 payloadOffset.2
  let numMessages ← Corfu.get32 payloadSize.2
  return ⟨numMessages.2, sourceBrokerId.1, sourceBatchSeq.1, clientId.1, clientBatchSeq.1, payloadOffset.1,
    payloadSize.1, numMessages.1⟩

theorem plainParse_plainSerialize (r : MetadataAppendRequest) : plainParse (plainSerialize r) = some r := by
  simp [plainParse, plainSerialize]

def plainWire : Wire := ⟨plainSerialize, plainParse, plainParse_plainSerialize⟩

def descriptor (seq : UInt64) : MetadataAppendRequest := ⟨[0x74], 0, seq, 7, seq, 0, 64, 1⟩

theorem metadata_replica_recovers_retryRun : ∃ s : MetadataStore,
    Runs.Along (step plainWire) (Clean plainWire) {}
      [.reopen true, .append (descriptor 0) .synced, .append (descriptor 1) (.failed 20), .crash 7 true, .reopen true,
        .append (descriptor 1) .synced] s ∧
      s.acked.length = 2 ∧
      ∀ a ∈ s.acked, ((s.crash 0 true).reopen plainWire true).records a.1 = some a.2 := by
  refine Runs.exists_of_exec (fun s : MetadataStore => s.acked.length) 2 (by decide +kernel) fun s hrun hlen => ?_
  exact ⟨hlen, ((metadata_replica_recovers hrun).1 0 true).2⟩

/-- One byte of a failed append stays in the file, and the next record comes behind it: it is acknowledged,
and the file cannot be opened any more. -/
theorem metadata_replica_not_reopened : ∃ s : MetadataStore,
    Runs.Along (step plainWire) (fun _ _ => True) {}
      [.reopen true, .append (descriptor 0) (.failed 1), .append (descriptor 1) .synced, .crash 0 true,
        .reopen true] s ∧
      s.isOpen = false ∧ s.acked = [(slotKey (descriptor 1), plainWire.serialize (descriptor 1))] := by
  obtain ⟨s, hrun, ha⟩ := Runs.exists_along_of_exec (f := fun s : MetadataStore => (s.isOpen, s.acked))
    (show (Runs.exec (step plainWire) (fun _ _ => True) {}
      [.reopen true, .append (descriptor 0) (.failed 1), .append (descriptor 1) .synced, .crash 0 true,
        .reopen true]).map _ = some (false, [(slotKey (descriptor 1), plainWire.serialize (descriptor 1))]) by
          decide +kernel)
  exact ⟨s, hrun, Prod.mk.inj ha⟩

end Scenario

end MetadataStore

end Embarcadero.LazyLog
