import Embarcadero.Lib.LittleEndian
import Embarcadero.Lib.Runs

namespace Embarcadero

open List

def sessionControlMagic : Nat := 0x53455346

def maxSessionControlPayload : Nat := 64 * 1024

inductive AckItem
  | count (acked : Nat)
  | control (body : List UInt8)
  deriving DecidableEq

namespace AckItem

def encode : AckItem → List UInt8
  | .count acked => LittleEndian.encode 8 acked
  | .control body =>
    LittleEndian.encode 4 sessionControlMagic ++ LittleEndian.encode 4 body.length ++ body

def Sendable : AckItem → Prop
  | .count acked => acked < 2 ^ 64
  | .control body => body.length < 2 ^ 32

instance (i : AckItem) : Decidable i.Sendable :=
  match i with
  | .count _ => inferInstanceAs (Decidable (_ < _))
  | .control _ => inferInstanceAs (Decidable (_ < _))

theorem length_encode_pos (i : AckItem) : 8 ≤ i.encode.length := by
  cases i with
  | count acked => simp [encode]
  | control body =>
    simp only [encode, length_append, LittleEndian.length_encode]
    omega

end AckItem

structure AckReader where
  partialAck : List UInt8 := []
  control : Option (Nat × List UInt8) := none
  closed : Bool := false
  items : List AckItem := []
  deriving DecidableEq

inductive Delivery
  | bytes (l : List UInt8)
  | silence
  deriving DecidableEq

def Delivery.payload : Delivery → List UInt8
  | .bytes l => l
  | .silence => []

namespace AckReader

def needed (s : AckReader) : Nat :=
  match s.control with
  | none => 8 - s.partialAck.length
  | some (len, got) => len - got.length

def processWord (s : AckReader) (acked : Nat) : AckReader :=
  let s := { s with partialAck := [] }
  if acked % 2 ^ 32 = sessionControlMagic then
    let len := acked / 2 ^ 32
    if len = 0 ∨ maxSessionControlPayload < len then { s with closed := true }
    else { s with control := some (len, []) }
  else { s with items := s.items ++ [.count acked] }

-- `SessionFenced::ParseFromString`
variable (parses : List UInt8 → Bool)

def processControl (s : AckReader) (payload : List UInt8) : AckReader :=
  let s := { s with control := none }
  if parses payload then { s with items := s.items ++ [.control payload] }
  else { s with closed := true }

def recv (s : AckReader) (bytes : List UInt8) : AckReader :=
  match s.control with
  | none =>
    let word := s.partialAck ++ bytes
    if word.length ≠ 8 then { s with partialAck := word }
    else s.processWord (LittleEndian.decode word)
  | some (len, got) =>
    let payload := got ++ bytes
    if payload.length < len then { s with control := some (len, payload) }
    else s.processControl parses payload

def drain : Nat → AckReader → List UInt8 → AckReader
  | 0, s, _ => s
  | fuel + 1, s, avail =>
    if s.closed ∨ avail = [] then s
    else drain fuel (s.recv parses (avail.take s.needed)) (avail.drop s.needed)

def deliver (s : AckReader) : Delivery → AckReader
  | .bytes l => s.drain parses l.length l
  | .silence => if s.control.isSome then { s with closed := true } else s

end AckReader

section

variable {parses : List UInt8 → Bool}

def AckItem.Clear (parses : List UInt8 → Bool) : AckItem → Prop
  | .count acked => acked < 2 ^ 64 ∧ acked % 2 ^ 32 ≠ sessionControlMagic
  | .control body => body ≠ [] ∧ body.length ≤ maxSessionControlPayload ∧ parses body = true

instance (i : AckItem) : Decidable (i.Clear parses) :=
  match i with
  | .count _ => inferInstanceAs (Decidable (_ ∧ _))
  | .control _ => inferInstanceAs (Decidable (_ ∧ _ ∧ _))

def AckReader.Prompt (s : AckReader) (d : Delivery) : Prop := d = .silence → s.control = none

instance (s : AckReader) (d : Delivery) : Decidable (s.Prompt d) :=
  inferInstanceAs (Decidable (_ → _))

def encodeAll (items : List AckItem) : List UInt8 := items.flatMap AckItem.encode

inductive AckReader.Reading (items : List AckItem) : AckReader → List UInt8 → Prop
  | word {partialAck rest done todo} (hsplit : items = done ++ todo) (hlen : partialAck.length < 8)
      (hbytes : partialAck ++ rest = encodeAll todo) :
      Reading items ⟨partialAck, none, false, done⟩ rest
  | body {got rest body done todo} (hsplit : items = done ++ .control body :: todo)
      (hlen : got.length < body.length) (hbytes : got ++ rest = body ++ encodeAll todo) :
      Reading items ⟨[], some (body.length, got), false, done⟩ rest

theorem encodeAll_cons (i : AckItem) (items : List AckItem) :
    encodeAll (i :: items) = i.encode ++ encodeAll items := rfl

theorem decode_header {len : Nat} (h : len < 2 ^ 32) :
    LittleEndian.decode (LittleEndian.encode 4 sessionControlMagic ++ LittleEndian.encode 4 len) =
      sessionControlMagic + 2 ^ 32 * len := by
  rw [LittleEndian.decode_append, LittleEndian.decode_encode, LittleEndian.decode_encode,
    LittleEndian.length_encode, Nat.mod_eq_of_lt (a := len) (by omega)]
  rfl

namespace AckReader

variable {s : AckReader} {done items todo : List AckItem} {later rest : List UInt8}

theorem processWord_count {acked : Nat} (h : acked % 2 ^ 32 ≠ sessionControlMagic) :
    s.processWord acked = { s with partialAck := [], items := s.items ++ [.count acked] } := by
  rw [processWord, if_neg h]

theorem processWord_header {len : Nat} (h : len ≠ 0) (h' : len ≤ maxSessionControlPayload) :
    s.processWord (sessionControlMagic + 2 ^ 32 * len) =
      { s with partialAck := [], control := some (len, []) } := by
  have hmod : (sessionControlMagic + 2 ^ 32 * len) % 2 ^ 32 = sessionControlMagic := by
    rw [Nat.add_mul_mod_self_left]
    rfl
  have hdiv : (sessionControlMagic + 2 ^ 32 * len) / 2 ^ 32 = len := by
    rw [Nat.add_mul_div_left _ _ (by decide)]
    exact Nat.zero_add len
  rw [processWord, if_pos hmod, hdiv, if_neg]
  omega

theorem Reading.between (hsplit : items = done ++ todo) (hrest : rest = encodeAll todo) :
    Reading items ⟨[], none, false, done⟩ rest :=
  Reading.word hsplit (Nat.zero_lt_succ 7) hrest

theorem Reading.processWord {word : List UInt8} (hclear : ∀ i ∈ items, i.Clear parses) (hsplit : items = done ++ todo)
    (hlen : word.length = 8) (hbytes : word ++ rest = encodeAll todo) :
    Reading items (AckReader.processWord ⟨word, none, false, done⟩ (LittleEndian.decode word)) rest := by
  cases todo with
  | nil =>
    have := congrArg List.length hbytes
    simp [encodeAll, hlen] at this
  | cons i todo =>
    have hi : i.Clear parses := hclear i (by simp [hsplit])
    rw [encodeAll_cons] at hbytes
    cases i with
    | count acked =>
      have hsame := append_inj hbytes (by simp [hlen, AckItem.encode])
      have hdec : LittleEndian.decode word = acked := by
        rw [hsame.1, AckItem.encode, LittleEndian.decode_encode]
        exact Nat.mod_eq_of_lt hi.1
      rw [hdec, processWord_count hi.2]
      exact Reading.between (by simp [hsplit]) hsame.2
    | control body =>
      rw [AckItem.encode, append_assoc] at hbytes
      have hsame := append_inj hbytes (by simp [hlen])
      have hbody : body.length ≤ 64 * 1024 := hi.2.1
      rw [hsame.1, decode_header (by omega), processWord_header (by simpa using hi.1) hi.2.1]
      exact Reading.body hsplit (length_pos_iff.mpr hi.1) hsame.2

theorem Reading.processControl {body payload : List UInt8} (hclear : ∀ i ∈ items, i.Clear parses)
    (hsplit : items = done ++ .control body :: todo) (hlen : payload.length = body.length)
    (hbytes : payload ++ rest = body ++ encodeAll todo) :
    Reading items
      (AckReader.processControl parses ⟨[], some (body.length, payload), false, done⟩ payload)
      rest := by
  have hsame := append_inj hbytes hlen
  have hi : (AckItem.control body).Clear parses := hclear _ (by simp [hsplit])
  rw [AckReader.processControl, hsame.1, if_pos hi.2.2]
  exact Reading.between (by simp [hsplit]) hsame.2

theorem Reading.recv {bytes : List UInt8} (hclear : ∀ i ∈ items, i.Clear parses) (hs : Reading items s (bytes ++ rest))
    (hneeded : bytes.length ≤ s.needed) : Reading items (s.recv parses bytes) rest := by
  cases hs with
  | @word partialAck _ done todo hsplit hlen hbytes =>
    rw [← append_assoc] at hbytes
    change bytes.length ≤ 8 - partialAck.length at hneeded
    rw [AckReader.recv]
    dsimp only
    split
    next hword =>
      apply Reading.word hsplit _ hbytes
      rw [length_append] at hword ⊢
      omega
    next hword => exact Reading.processWord hclear hsplit (not_not.mp hword) hbytes
  | @body got _ body done todo hsplit hlen hbytes =>
    rw [← append_assoc] at hbytes
    change bytes.length ≤ body.length - got.length at hneeded
    rw [AckReader.recv]
    dsimp only
    split
    · exact Reading.body hsplit ‹_› hbytes
    next hpayload =>
      apply Reading.processControl hclear hsplit _ hbytes
      rw [length_append] at hpayload ⊢
      omega

theorem Reading.open (hs : Reading items s rest) : s.closed = false ∧ 0 < s.needed := by
  cases hs with
  | word hsplit hlen hbytes => exact ⟨rfl, Nat.sub_pos_of_lt hlen⟩
  | body hsplit hlen hbytes => exact ⟨rfl, Nat.sub_pos_of_lt hlen⟩

theorem Reading.drain (hclear : ∀ i ∈ items, i.Clear parses) (fuel : Nat) :
    ∀ {s : AckReader} {avail : List UInt8}, avail.length ≤ fuel →
      Reading items s (avail ++ later) → Reading items (s.drain parses fuel avail) later := by
  induction fuel with
  | zero =>
    intro s avail hlen hs
    rw [length_eq_zero_iff.mp (Nat.le_zero.mp hlen)] at hs
    exact hs
  | succ fuel ih =>
    intro s avail hlen hs
    rw [AckReader.drain, hs.open.1]
    by_cases hnil : avail = []
    · rw [hnil] at hs
      rw [if_pos (.inr hnil)]
      exact hs
    · rw [if_neg (by simp [hnil])]
      have hpos := length_pos_iff.mpr hnil
      apply ih
      · rw [length_drop]
        have := hs.open.2
        omega
      · apply Reading.recv hclear
        · rw [← append_assoc, take_append_drop]
          exact hs
        · exact length_take_le _ _

theorem Reading.deliver {d : Delivery} (hclear : ∀ i ∈ items, i.Clear parses) (hprompt : s.Prompt d)
    (hs : Reading items s (d.payload ++ later)) : Reading items (s.deliver parses d) later := by
  cases d with
  | bytes l => exact hs.drain hclear l.length (Nat.le_refl _)
  | silence =>
    rw [AckReader.deliver, hprompt rfl]
    exact hs

theorem Reading.items_eq (hs : Reading items s []) : s.items = items ∧ s.closed = false := by
  cases hs with
  | @word partialAck _ done todo hsplit hlen hbytes =>
    cases todo with
    | nil => exact ⟨by simp [hsplit], rfl⟩
    | cons i todo =>
      have hle := i.length_encode_pos
      have := congrArg List.length hbytes
      simp only [encodeAll_cons, append_nil, length_append] at this
      omega
  | @body got _ body done todo hsplit hlen hbytes =>
    have := congrArg List.length hbytes
    simp only [append_nil, length_append] at this
    omega

theorem Reading.run {ds : List Delivery} {t : AckReader} (hclear : ∀ i ∈ items, i.Clear parses)
    (hrun : Runs.Along (fun s d => some (AckReader.deliver parses s d)) Prompt s ds t) :
    Reading items s (ds.flatMap Delivery.payload ++ later) → Reading items t later := by
  induction hrun with
  | nil s => exact id
  | cons hprompt hstep hrest ih =>
    intro hs
    cases hstep
    apply ih
    rw [flatMap_cons, append_assoc] at hs
    exact hs.deliver hclear hprompt

end AckReader

/-- Whatever clear items the broker sends, and however the stream is cut into fragments, the
publisher reads exactly these items. -/
theorem ack_stream_decodes (items : List AckItem) (ds : List Delivery) (t : AckReader)
    (hclear : ∀ i ∈ items, i.Clear parses) (hbytes : ds.flatMap Delivery.payload = items.flatMap AckItem.encode)
    (hrun : Runs.Along (fun s d => some (AckReader.deliver parses s d)) AckReader.Prompt {} ds t) :
    t.items = items ∧ t.closed = false := by
  apply AckReader.Reading.items_eq
  apply AckReader.Reading.run hclear hrun
  rw [hbytes, append_nil]
  exact AckReader.Reading.between (nil_append items).symm rfl

end

def clearItems : List AckItem := [.count 7, .control [0x28, 1], .count 300]

def oddFragments : List Delivery :=
  [.bytes [7, 0, 0], .silence, .bytes [0, 0, 0, 0, 0, 0x46, 0x53, 0x45], .bytes [0x53, 2, 0, 0, 0, 0x28],
    .bytes [1, 44], .bytes [1, 0, 0, 0, 0, 0, 0]]

theorem ack_stream_decodes_oddFragments :
    ∃ t, Runs.Along (fun s d => some (AckReader.deliver (fun _ => true) s d)) AckReader.Prompt {}
      oddFragments t ∧ t.items = clearItems ∧ t.closed = false := by
  have hrun := Runs.exists_along_of_exec (f := fun _ => ()) (a := ())
    (show (Runs.exec (fun s d => some (AckReader.deliver (fun _ => true) s d)) AckReader.Prompt {}
      oddFragments).map _ = some () by decide +kernel)
  cases hrun with
  | intro t ht =>
    exact ⟨t, ht.1, ack_stream_decodes clearItems oddFragments t (by decide +kernel) (by decide +kernel) ht.1⟩

/-- The count `0x53455346` is read as the header of an empty control frame, and the connection is
given up with the next count unread. -/
theorem ack_stream_misread :
    ∃ (items : List AckItem) (ds : List Delivery), (∀ i ∈ items, i.Sendable) ∧
      ds.flatMap Delivery.payload = items.flatMap AckItem.encode ∧
      (ds.foldl (AckReader.deliver fun _ => true) {}).items ≠ items :=
  ⟨[.count 0x53455346, .count 0x53455347],
    [.bytes [0x46, 0x53, 0x45, 0x53, 0, 0, 0, 0], .bytes [0x47, 0x53, 0x45, 0x53, 0, 0, 0, 0]],
    by decide +kernel, by decide +kernel, by decide +kernel⟩

end Embarcadero
