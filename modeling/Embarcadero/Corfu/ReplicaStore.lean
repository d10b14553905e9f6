import Embarcadero.Corfu.Sidecar
import Embarcadero.Lib.Assoc

namespace Embarcadero.Corfu

open Function (update update_of_ne update_self)
open List
open Journal (image whole Torn fill fill_append fill_cons fill_of_mem)

abbrev SlotRecord := CorfuSlotKey × Entry

abbrev Slots := CorfuSlotKey → Option Entry

def Entry.content (e : Entry) : Option SlotContent :=
  match e.state with
  | .unwritten => none
  | .value => some (.value e.value)
  | .junk => some .junk

def replayLoop (fileSize : Nat) : Nat → List UInt8 → Slots → Nat → Except String (Slots × Nat)
  | 0, _, slots, off => .ok (slots, off)
  | fuel + 1, bytes, slots, off =>
    match getRecord fileSize bytes with
    | .error e => .error e
    | .ok none => .ok (slots, off)
    | .ok (some (r, rest)) =>
      if (slots r.1).isSome then .error "duplicate Corfu sidecar slot"
      else replayLoop fileSize fuel rest (update slots r.1 (some r.2)) (off + (bytes.length - rest.length))

def replay (bytes : List UInt8) : Except String (Slots × Nat) :=
  replayLoop bytes.length bytes.length bytes (fun _ => none) 0

structure CorfuWriteRequest where
  slot : CorfuSlotKey
  value : CorfuValueId
  dataOffset : UInt64
  payload : Bool
  size : UInt64
  deriving DecidableEq

inductive Verdict
  | decided (status : CorfuWriteStatus)
  | fresh
  | duplicate
  deriving DecidableEq

def Verdict.status (committed : Bool) : Verdict → CorfuWriteStatus
  | .decided status => status
  | .fresh | .duplicate => if committed then .written else .ioError

def judge (slots : Slots) (pending : List SlotRecord) (w : CorfuWriteRequest) : Verdict × List SlotRecord :=
  if !w.payload || w.size != w.value.totalSize then (.decided .ioError, [])
  else
    match slots w.slot with
    | some e =>
      (.decided (if e.state = .value ∧ e.value = w.value then .alreadySame else .conflict), [])
    | none =>
      match pending.lookup w.slot with
      | some first => (if first.value = w.value then .duplicate else .decided .conflict, [])
      | none => (.fresh, [(w.slot, ⟨.value, w.value, w.dataOffset, w.size⟩)])

def classify (slots : Slots) : List SlotRecord → List CorfuWriteRequest → List Verdict × List SlotRecord
  | pending, [] => ([], pending)
  | pending, w :: ws =>
    let (v, added) := judge slots pending w
    let (vs, all) := classify slots (pending ++ added) ws
    (v :: vs, all)

def junkEntry : Entry := ⟨.junk, ⟨0, 0, 0, 0, 0⟩, 0, 0⟩

inductive StoreCall
  | group (writes : List CorfuWriteRequest) (verdicts : List Verdict) (items : List SlotRecord)
  | junk (key : CorfuSlotKey)

def StoreCall.items : StoreCall → List SlotRecord
  | .group _ _ items => items
  | .junk key => [(key, junkEntry)]

inductive StoreStage
  | idle
  | appending (call : StoreCall) (start : Nat) (todo : List SlotRecord)
  | truncating (call : StoreCall) (start mark : Nat)
  | undoing (call : StoreCall) (start : Nat)
  | dead (message : String)

structure StoreReply where
  slot : CorfuSlotKey
  content : SlotContent
  status : CorfuWriteStatus
  entry : Option Entry

structure ReplicaStore where
  bytes : List UInt8 := []
  synced : Nat := 0
  slots : Slots := fun _ => none
  stage : StoreStage := .idle
  replies : List StoreReply := []

namespace ReplicaStore

def answers (slots : Slots) (committed : Bool) : StoreCall → List StoreReply
  | .group writes verdicts _ =>
    (writes.zip verdicts).map fun p => ⟨p.1.slot, .value p.1.value, p.2.status committed, slots p.1.slot⟩
  | .junk key => [⟨key, .junk, if committed then .written else .ioError, slots key⟩]

def giveUp (s : ReplicaStore) (call : StoreCall) : ReplicaStore :=
  { s with stage := .idle, replies := s.replies ++ answers s.slots false call }

def commit (s : ReplicaStore) (call : StoreCall) : ReplicaStore :=
  { s with
    slots := fill Prod.fst Prod.snd s.slots call.items
    stage := .idle
    replies := s.replies ++ answers (fill Prod.fst Prod.snd s.slots call.items) true call }

def truncate (s : ReplicaStore) (mark : Nat) (ok : Bool) : ReplicaStore :=
  { s with bytes := s.bytes.take mark, synced := if ok then mark else min s.synced mark }

def appendFailed (s : ReplicaStore) (call : StoreCall) (start : Nat) : ReplicaStore :=
  match call with
  | .group .. => { s with stage := .undoing call start }
  | .junk _ => s.giveUp call

inductive Event
  /-- `dataDone`: the payloads are in the data file and synced, and the end of the sidecar is found. -/
  | writeGroup (writes : List CorfuWriteRequest) (dataDone : Bool)
  | writeJunkOnce (key : CorfuSlotKey)
  /-- `AppendRecord` finds the end of the file, or not, and so many bytes of the record get into the file. -/
  | append (written : Option Nat)
  | sync (ok : Bool)
  | truncate (ok : Bool)
  /-- All but `kept` unsynced bytes are lost and the store is opened again.  `settled`: the bytes that are left are on
  the medium, so that a later crash leaves them too. -/
  | crash (kept : Nat) (settled : Bool)

def Event.settled : Event → Bool
  | .crash _ settled => settled
  | _ => true

def step (s : ReplicaStore) : Event → Option ReplicaStore
  | .writeGroup writes dataDone =>
    match s.stage with
    | .idle =>
      let (verdicts, items) := classify s.slots [] writes
      if items = [] ∨ !dataDone then some (s.giveUp (.group writes verdicts items))
      else some { s with stage := .appending (.group writes verdicts items) s.bytes.length items }
    | _ => none
  | .writeJunkOnce key =>
    match s.stage with
    | .idle =>
      match s.slots key with
      | some e => some { s with replies := s.replies ++
          [⟨key, .junk, if e.state = .junk then .alreadyJunk else .conflict, some e⟩] }
      | none => some { s with stage := .appending (.junk key) s.bytes.length [(key, junkEntry)] }
    | _ => none
  | .append written =>
    match s.stage with
    | .appending call start (r :: todo) =>
      if kMaxTopic < r.1.topic.length then some (s.appendFailed call start)
      else
        match written with
        | none => some (s.appendFailed call start)
        | some n =>
          if n < (putRecord r).length then
            some { s with bytes := s.bytes ++ (putRecord r).take n, stage := .truncating call start s.bytes.length }
          else some { s with bytes := s.bytes ++ putRecord r, stage := .appending call start todo }
    | _ => none
  | .sync ok =>
    match s.stage with
    | .appending call start [] =>
      if ok then some { s.commit call with synced := s.bytes.length }
      else
        match call with
        | .group .. => some { s with stage := .undoing call start }
        | .junk _ => some { s with stage := .truncating call start start }
    | _ => none
  | .truncate ok =>
    match s.stage with
    | .truncating call start mark => some ((s.truncate mark ok).appendFailed call start)
    | .undoing call start => some ((s.truncate start ok).giveUp call)
    | _ => none
  | .crash kept settled =>
    match replay (s.bytes.take (s.synced + kept)) with
    | .error message => some { s with stage := .dead message }
    | .ok (slots, off) => some { s with
        bytes := (s.bytes.take (s.synced + kept)).take off
        synced := if settled then off else min s.synced off
        slots := slots
        stage := .idle }

def RecordIn (bytes : List UInt8) (r : SlotRecord) : Prop :=
  ∃ rs, (∀ r' ∈ rs ++ [r], Recordable r') ∧ image putRecord (rs ++ [r]) <+: bytes

def Acknowledged (status : CorfuWriteStatus) : Prop :=
  status = .written ∨ status = .alreadySame ∨ status = .alreadyJunk

structure CrashSafe (s : ReplicaStore) : Prop where
  alive : ∀ message, s.stage ≠ .dead message
  replays : ∀ kept, ∃ slots off, replay (s.bytes.take (s.synced + kept)) = .ok (slots, off) ∧
    (∀ r, slots r.1 = some r.2 ↔ RecordIn (s.bytes.take (s.synced + kept)) r) ∧
    ∃ rs, (s.bytes.take (s.synced + kept)).take off = image putRecord rs ∧ ∀ r ∈ rs, Recordable r
  agrees : ∀ r ∈ s.replies, Acknowledged r.status → ∃ e, r.entry = some e ∧ e.content = some r.content
  kept : ∀ r ∈ s.replies, r.status = .written → s.slots r.slot = r.entry

end ReplicaStore

theorem filled_iff {rs : List SlotRecord} {k : CorfuSlotKey} {e : Entry} (hn : (rs.map (·.1)).Nodup) :
    fill Prod.fst Prod.snd (fun _ => none) rs k = some e ↔ (k, e) ∈ rs := by
  rw [Journal.fill_eq_some_iff hn]
  constructor
  · rintro ⟨_, hmem, rfl, rfl⟩
    exact hmem
  · exact fun hmem => ⟨_, hmem, rfl, rfl⟩

theorem replayLoop_image {fileSize fuel off : Nat} {rs : List SlotRecord} {torn : List UInt8} {slots : Slots}
    (hrs : ∀ r ∈ rs, Recordable r) (htorn : Torn putRecord Recordable torn) (hn : (rs.map (·.1)).Nodup)
    (hnew : ∀ r ∈ rs, slots r.1 = none) (hfuel : (image putRecord rs ++ torn).length ≤ fuel)
    (hsize : (image putRecord rs ++ torn).length ≤ fileSize) :
    replayLoop fileSize fuel (image putRecord rs ++ torn) slots off =
      .ok (fill Prod.fst Prod.snd slots rs, off + (image putRecord rs).length) := by
  induction rs generalizing fuel slots off with
  | nil =>
    cases fuel with
    | zero => rfl
    | succ fuel =>
      rw [Journal.image_nil, nil_append, replayLoop, getRecord_torn htorn]
      rfl
  | cons r rs ih =>
    rw [map_cons, nodup_cons] at hn
    rw [Journal.image_cons, append_assoc] at hfuel hsize ⊢
    have hlen := length_putRecord r
    rw [length_append] at hfuel
    cases fuel with
    | zero => omega
    | succ fuel =>
      rw [replayLoop, getRecord_putRecord (hrs r mem_cons_self) _ hsize]
      dsimp only
      rw [hnew r mem_cons_self, Option.isSome_none, if_neg Bool.false_ne_true, fill_cons]
      rw [length_append] at hsize
      rw [ih (fun r' hr' => hrs r' (mem_cons_of_mem _ hr')) hn.2 ?_ (by omega) (by omega)]
      · rw [length_append, Nat.add_sub_cancel, length_append, Nat.add_assoc]
      · intro r' hr'
        refine (update_of_ne ?_ _ _).trans (hnew r' (mem_cons_of_mem _ hr'))
        rintro heq
        exact hn.1 (heq ▸ mem_map_of_mem hr')

theorem replay_image {rs : List SlotRecord} {torn : List UInt8} (hrs : ∀ r ∈ rs, Recordable r)
    (htorn : Torn putRecord Recordable torn) (hn : (rs.map (·.1)).Nodup) :
    replay (image putRecord rs ++ torn) =
      .ok (fill Prod.fst Prod.snd (fun _ => none) rs, (image putRecord rs).length) := by
  rw [replay, replayLoop_image hrs htorn hn (fun _ _ => rfl) (Nat.le_refl _) (Nat.le_refl _), Nat.zero_add]

namespace ReplicaStore

structure Files (s : ReplicaStore) (old new : List SlotRecord) (torn : List UInt8) (k : Nat) : Prop where
  bytes : s.bytes = image putRecord (old ++ new) ++ torn
  recordable : ∀ r ∈ old ++ new, Recordable r
  torn : Torn putRecord Recordable torn
  slots : s.slots = fill Prod.fst Prod.snd (fun _ => none) old
  synced : s.synced = (image putRecord ((old ++ new).take k)).length
  bound : k ≤ (old ++ new).length

structure Kept (replies : List StoreReply) (old : List SlotRecord) (k : Nat) (all : Bool) : Prop where
  agrees : ∀ r ∈ replies, Acknowledged r.status → ∃ e, r.entry = some e ∧ e.content = some r.content
  written : ∀ r ∈ replies, r.status = .written → ∃ e, r.entry = some e ∧ (r.slot, e) ∈ old.take k
  found : all → ∀ r ∈ replies, Acknowledged r.status → ∃ e, r.entry = some e ∧ (r.slot, e) ∈ old
  reach : all → old.length ≤ k

def VerdictOk (slots : Slots) (items : List SlotRecord) (w : CorfuWriteRequest) : Verdict → Prop
  | .decided status => ¬ Acknowledged status ∨ status = .alreadySame ∧
      ∃ e, slots w.slot = some e ∧ e.content = some (.value w.value)
  | .fresh | .duplicate => ∃ e, (w.slot, e) ∈ items ∧ e.content = some (.value w.value)

structure CallOk (slots : Slots) (call : StoreCall) : Prop where
  verdicts : ∀ writes verdicts items, call = .group writes verdicts items →
    ∀ p ∈ writes.zip verdicts, VerdictOk slots items p.1 p.2
  state : ∀ r ∈ call.items, r.2.state ≠ .unwritten

def StageOk (slots : Slots) (old new : List SlotRecord) (torn : List UInt8) : StoreStage → Prop
  | .idle => new = [] ∧ torn = []
  | .appending call start todo => torn = [] ∧ call.items = new ++ todo ∧ start = (image putRecord old).length ∧
      CallOk slots call ∧ ((old ++ call.items).map (·.1)).Nodup
  | .truncating call start mark => start = (image putRecord old).length ∧ CallOk slots call ∧
      ∃ m, mark = (image putRecord (old ++ new.take m)).length ∧ (∀ key, call = .junk key → m = 0)
  | .undoing call start => torn = [] ∧ start = (image putRecord old).length ∧ CallOk slots call
  | .dead _ => False

def Ok (all : Bool) (s : ReplicaStore) : Prop :=
  ∃ old new torn k, s.Files old new torn k ∧ ((old ++ new).map (·.1)).Nodup ∧ StageOk s.slots old new torn s.stage ∧
    Kept s.replies old k all

variable {s : ReplicaStore} {old new : List SlotRecord} {torn : List UInt8} {k : Nat} {all : Bool}

theorem Files.truncate (h : s.Files old new torn k) (m : Nat) {mark : Nat}
    (hmark : mark = (image putRecord (old ++ new.take m)).length) (ok : Bool) :
    ∃ k', (s.truncate mark ok).Files old (new.take m) [] k' ∧ min k old.length ≤ k' := by
  have hsplit : old ++ new = (old ++ new.take m) ++ new.drop m := by
    rw [append_assoc, take_append_drop]
  have hbytes : s.bytes.take mark = image putRecord (old ++ new.take m) ++ [] := by
    rw [h.bytes, hsplit, Journal.image_append, append_assoc, hmark, take_left, append_nil]
  have hrec : ∀ r ∈ old ++ new.take m, Recordable r := fun r hr =>
    h.recordable r (hsplit ▸ mem_append_left _ hr)
  cases ok with
  | true =>
    refine ⟨(old ++ new.take m).length, ⟨hbytes, hrec, .inl rfl, h.slots, ?_, Nat.le_refl _⟩, ?_⟩
    · rw [take_of_length_le (Nat.le_refl _)]
      exact hmark
    · rw [length_append]
      omega
  | false =>
    have htake : (old ++ new).take (old ++ new.take m).length = old ++ new.take m := by
      rw [hsplit, take_left]
    have hshort : (old ++ new).take (min k (old ++ new.take m).length) =
        (old ++ new.take m).take (min k (old ++ new.take m).length) := by
      rw [hsplit, take_append_of_le_length (Nat.min_le_right _ _)]
    refine ⟨min k (old ++ new.take m).length, ⟨hbytes, hrec, .inl rfl, h.slots, ?_, Nat.min_le_right _ _⟩, ?_⟩
    · calc
        min s.synced mark = min (image putRecord ((old ++ new).take k)).length
            (image putRecord ((old ++ new).take (old ++ new.take m).length)).length := by
          rw [h.synced, htake, hmark]
        _ = (image putRecord ((old ++ new).take (min k (old ++ new.take m).length))).length :=
          Journal.min_length_image_take _ _
        _ = (image putRecord ((old ++ new.take m).take (min k (old ++ new.take m).length))).length := by
          rw [hshort]
    · rw [length_append]
      omega

theorem Files.append (h : s.Files old new [] k) {r : SlotRecord} (hr : Recordable r) (stage : StoreStage) :
    Files { s with bytes := s.bytes ++ putRecord r, stage } old (new ++ [r]) [] k where
  bytes := by
    simp only [h.bytes, ← append_assoc, Journal.image_append, Journal.image_cons, Journal.image_nil, append_nil]
  recordable r' hr' := by
    rw [← append_assoc] at hr'
    cases mem_append.mp hr' with
    | inl hold => exact h.recordable r' hold
    | inr hnew => exact mem_singleton.mp hnew ▸ hr
  torn := .inl rfl
  slots := h.slots
  synced := by
    rw [← append_assoc, take_append_of_le_length h.bound]
    exact h.synced
  bound := by
    rw [← append_assoc, length_append]
    exact Nat.le_add_right_of_le h.bound

theorem Files.tear (h : s.Files old new [] k) {r : SlotRecord} (hr : Recordable r) {n : Nat}
    (hn : n < (putRecord r).length) (stage : StoreStage) :
    Files { s with bytes := s.bytes ++ (putRecord r).take n, stage } old new ((putRecord r).take n) k :=
  { h with
    bytes := by
      dsimp only
      rw [h.bytes, append_nil]
    torn := Journal.torn_take hr hn }

theorem Files.withStage (h : s.Files old new torn k) (stage : StoreStage) (replies : List StoreReply) :
    Files { s with stage, replies } old new torn k := { h with }

theorem Files.commit (h : s.Files old new [] k) (replies : List StoreReply) :
    Files { s with
      slots := fill Prod.fst Prod.snd s.slots new
      synced := s.bytes.length
      stage := .idle
      replies := replies } (old ++ new) [] []
      (old ++ new).length where
  bytes := by
    rw [append_nil, append_nil]
    exact h.bytes.trans (append_nil _)
  recordable := by
    rw [append_nil]
    exact h.recordable
  torn := .inl rfl
  slots := by
    rw [fill_append, ← h.slots]
  synced := by
    dsimp only
    rw [append_nil, take_of_length_le (Nat.le_refl _), h.bytes, append_nil]
  bound := by
    rw [append_nil]

theorem Files.replay (h : s.Files old new torn k) (hn : ((old ++ new).map (·.1)).Nodup) (kept : Nat) :
    ∃ w, k ≤ w ∧ Corfu.replay (s.bytes.take (s.synced + kept)) =
        .ok (fill Prod.fst Prod.snd (fun _ => none) ((old ++ new).take w),
          (image putRecord ((old ++ new).take w)).length) ∧
      ∃ torn', s.bytes.take (s.synced + kept) = image putRecord ((old ++ new).take w) ++ torn' ∧
        Torn putRecord Recordable torn' := by
  obtain ⟨torn', heq, htorn'⟩ := Journal.take_image h.recordable h.torn (s.synced + kept)
  refine ⟨whole putRecord (old ++ new) (s.synced + kept), ?_, ?_, torn', ?_, htorn'⟩
  · exact Journal.le_whole h.bound (by rw [h.synced]; exact Nat.le_add_right _ _)
  · rw [h.bytes, heq, replay_image _ htorn']
    · rw [map_take]
      exact hn.sublist (take_sublist _ _)
    · exact fun r hr => h.recordable r (mem_of_mem_take hr)
  · rw [h.bytes, heq]

variable {committed ok : Bool} {kept : Nat} {s' : ReplicaStore} {call : StoreCall}

theorem Files.recordIn_iff (h : s.Files old new torn k) {w : Nat} {torn' : List UInt8}
    (heq : s.bytes.take (s.synced + kept) = image putRecord ((old ++ new).take w) ++ torn')
    (htorn' : Torn putRecord Recordable torn') (r : SlotRecord) :
    RecordIn (s.bytes.take (s.synced + kept)) r ↔ r ∈ (old ++ new).take w := by
  have hrec : ∀ r ∈ (old ++ new).take w, Recordable r := fun r hr => h.recordable r (mem_of_mem_take hr)
  rw [heq]
  refine ⟨fun ⟨rs, hrs, hpre⟩ => ?_, fun hmem => ?_⟩
  · have hpre := framed_putRecord.prefix_of_image hrs hrec htorn' hpre
    exact hpre.subset (mem_append_right _ mem_cons_self)
  · obtain ⟨pre, post, hsplit⟩ := append_of_mem hmem
    have hsplit : (old ++ new).take w = (pre ++ [r]) ++ post := by rw [hsplit, append_assoc]; rfl
    refine ⟨pre, fun r' hr' => hrec r' (hsplit ▸ mem_append_left _ hr'), image putRecord post ++ torn', ?_⟩
    rw [hsplit, ← append_assoc, ← Journal.image_append]

theorem Kept.mono {replies : List StoreReply} {k' : Nat} (h : Kept replies old k all) (hk : min k old.length ≤ k') :
    Kept replies old k' all where
  agrees := h.agrees
  written r hr hstatus := by
    obtain ⟨e, he, hmem⟩ := h.written r hr hstatus
    refine ⟨e, he, ?_⟩
    rw [take_eq_take_min] at hmem
    exact take_subset_take_left _ hk hmem
  found := h.found
  reach hall := by
    have := h.reach hall
    omega

structure Collected (slots : Slots) (pending : List SlotRecord) : Prop where
  keys : (pending.map (·.1)).Nodup
  free : ∀ r ∈ pending, slots r.1 = none
  state : ∀ r ∈ pending, r.2.state = .value

variable {slots : Slots} {pending items : List SlotRecord} {w : CorfuWriteRequest}

theorem Entry.content_value {e : Entry} (h : e.state = .value) : e.content = some (.value e.value) := by
  rw [Entry.content, h]

theorem Collected.nil (slots : Slots) : Collected slots [] :=
  ⟨nodup_nil, nofun, nofun⟩

theorem Collected.judge (h : Collected slots pending) (w : CorfuWriteRequest) (items : List SlotRecord) :
    Collected slots (pending ++ (judge slots pending w).2) ∧
      ((∀ r ∈ pending ++ (judge slots pending w).2, r ∈ items) →
        VerdictOk slots items w (judge slots pending w).1) := by
  have hkeep : Collected slots (pending ++ []) := by rwa [append_nil]
  rw [Corfu.judge]
  split
  · exact ⟨hkeep, fun _ => .inl (by rintro (h | h | h) <;> cases h)⟩
  · split
    next e hslot =>
      refine ⟨hkeep, fun _ => ?_⟩
      split
      next hsame => exact .inr ⟨rfl, e, hslot, by rw [Entry.content_value hsame.1, hsame.2]⟩
      · exact .inl (by rintro (h | h | h) <;> cases h)
    next hslot =>
      split
      next first hfirst =>
        refine ⟨hkeep, fun hitems => ?_⟩
        have hmem := Assoc.mem_of_lookup hfirst
        dsimp only
        split
        next hsame =>
          refine ⟨first, hitems _ (mem_append_left _ hmem), ?_⟩
          rw [Entry.content_value (h.state _ hmem), hsame]
        · exact .inl (by rintro (h | h | h) <;> cases h)
      next hnone =>
        refine ⟨⟨?_, fun r hr => ?_, fun r hr => ?_⟩, fun hitems => ?_⟩
        · rw [map_append, map_singleton, nodup_append]
          refine ⟨h.keys, nodup_singleton _, fun a ha b hb heq => ?_⟩
          have hslot : a = w.slot := heq.trans (mem_singleton.mp hb)
          exact Assoc.not_mem_of_lookup hnone (hslot ▸ ha)
        · cases mem_append.mp hr with
          | inl hold => exact h.free r hold
          | inr hnew => exact mem_singleton.mp hnew ▸ hslot
        · cases mem_append.mp hr with
          | inl hold => exact h.state r hold
          | inr hnew => exact mem_singleton.mp hnew ▸ rfl
        · exact ⟨_, hitems _ (mem_append_right _ mem_cons_self), rfl⟩

theorem Collected.classify (h : Collected slots pending) (writes : List CorfuWriteRequest) :
    (∀ r ∈ pending, r ∈ (classify slots pending writes).2) ∧ Collected slots (classify slots pending writes).2 ∧
      ∀ p ∈ writes.zip (classify slots pending writes).1,
        VerdictOk slots (classify slots pending writes).2 p.1 p.2 := by
  induction writes generalizing pending with
  | nil => exact ⟨fun _ hr => hr, h, nofun⟩
  | cons w ws ih =>
    obtain ⟨hsub, hcollected, hrest⟩ := ih (h.judge w []).1
    refine ⟨fun r hr => hsub r (mem_append_left _ hr), hcollected, fun p hp => ?_⟩
    cases mem_cons.mp hp with
    | inl heq =>
      rw [heq]
      exact (h.judge w _).2 hsub
    | inr hmem => exact hrest p hmem

theorem not_acknowledged_ioError : ¬ Acknowledged .ioError := by
  rintro (h | h | h) <;> cases h

theorem answers_ok {recs : List SlotRecord} (hn : (recs.map (·.1)).Nodup) (hcall : CallOk slots call)
    (hold : ∀ key e, slots key = some e → (key, e) ∈ recs) (hitems : committed → ∀ r ∈ call.items, r ∈ recs) :
    ∀ r ∈ answers (fill Prod.fst Prod.snd (fun _ => none) recs) committed call, Acknowledged r.status →
      ∃ e, r.entry = some e ∧ e.content = some r.content ∧ (r.slot, e) ∈ recs := by
  intro r hr hack
  cases call with
  | group writes verdicts items =>
    obtain ⟨p, hp, rfl⟩ := mem_map.mp hr
    have hverdict := hcall.verdicts _ _ _ rfl p hp
    suffices h : ∃ e, (p.1.slot, e) ∈ recs ∧ e.content = some (.value p.1.value) by
      obtain ⟨e, hmem, hcontent⟩ := h
      exact ⟨e, fill_of_mem hn hmem, hcontent, hmem⟩
    dsimp only at hack
    cases hv : p.2 with
    | decided status =>
      rw [hv] at hverdict hack
      obtain hnot | ⟨-, e, hslot, hcontent⟩ := hverdict
      · exact absurd hack hnot
      · exact ⟨e, hold _ _ hslot, hcontent⟩
    | fresh | duplicate =>
      rw [hv] at hverdict hack
      cases committed with
      | false => exact absurd hack not_acknowledged_ioError
      | true =>
        obtain ⟨e, hmem, hcontent⟩ := hverdict
        exact ⟨e, hitems rfl _ hmem, hcontent⟩
  | junk key =>
    cases mem_singleton.mp hr
    cases committed with
    | false => exact absurd hack not_acknowledged_ioError
    | true =>
      have hmem := hitems rfl _ mem_cons_self
      exact ⟨_, fill_of_mem hn hmem, rfl, hmem⟩

theorem answers_written (hcall : CallOk slots call) {slots' : Slots} {r : StoreReply}
    (hr : r ∈ answers slots' committed call) (hwritten : r.status = .written) : committed = true := by
  cases committed with
  | true => rfl
  | false =>
    cases call with
    | group writes verdicts items =>
      obtain ⟨p, hp, rfl⟩ := mem_map.mp hr
      have hverdict := hcall.verdicts _ _ _ rfl p hp
      dsimp only at hwritten
      cases hv : p.2 with
      | decided status =>
        rw [hv] at hverdict hwritten
        cases (hwritten : status = .written)
        obtain hnot | ⟨h, -⟩ := hverdict
        · exact absurd (.inl rfl) hnot
        · cases h
      | fresh | duplicate =>
        rw [hv] at hwritten
        cases hwritten
    | junk key =>
      cases mem_singleton.mp hr
      cases hwritten

theorem Kept.extend {replies added : List StoreReply} {recs : List SlotRecord} {k' : Nat} (h : Kept replies old k all)
    (hold : old.take k ⊆ recs.take k') (hall : all → old ⊆ recs ∧ recs.length ≤ k')
    (hadded : ∀ r ∈ added, Acknowledged r.status →
      ∃ e, r.entry = some e ∧ e.content = some r.content ∧ (r.slot, e) ∈ recs)
    (hwritten : ∀ r ∈ added, r.status = .written → recs.length ≤ k') : Kept (replies ++ added) recs k' all where
  agrees r hr hack := by
    cases mem_append.mp hr with
    | inl hr => exact h.agrees r hr hack
    | inr hr =>
      obtain ⟨e, he, hcontent, -⟩ := hadded r hr hack
      exact ⟨e, he, hcontent⟩
  written r hr hstatus := by
    cases mem_append.mp hr with
    | inl hr =>
      obtain ⟨e, he, hmem⟩ := h.written r hr hstatus
      exact ⟨e, he, hold hmem⟩
    | inr hr =>
      obtain ⟨e, he, -, hmem⟩ := hadded r hr (.inl hstatus)
      rw [take_of_length_le (hwritten r hr hstatus)]
      exact ⟨e, he, hmem⟩
  found ha r hr hack := by
    cases mem_append.mp hr with
    | inl hr =>
      obtain ⟨e, he, hmem⟩ := h.found ha r hr hack
      exact ⟨e, he, (hall ha).1 hmem⟩
    | inr hr =>
      obtain ⟨e, he, -, hmem⟩ := hadded r hr hack
      exact ⟨e, he, hmem⟩
  reach ha := (hall ha).2

theorem Ok.idle (h : s.Files old [] [] k) (hn : (old.map (·.1)).Nodup) (hstage : s.stage = .idle)
    (hkept : Kept s.replies old k all) : s.Ok all := by
  refine ⟨old, [], [], k, h, ?_, ?_, hkept⟩
  · rwa [append_nil]
  · rw [hstage]
    exact ⟨rfl, rfl⟩

theorem Ok.giveUp (h : s.Files old [] [] k) (hn : (old.map (·.1)).Nodup) (hcall : CallOk s.slots call)
    (hkept : Kept s.replies old k all) : (s.giveUp call).Ok all := by
  refine Ok.idle (h.withStage _ _) hn rfl ?_
  refine hkept.extend (fun _ hr => hr) (fun ha => ⟨fun _ hr => hr, hkept.reach ha⟩) ?_ ?_
  · rw [h.slots]
    exact answers_ok hn hcall (fun key e hslot => (filled_iff hn).mp (h.slots ▸ hslot)) nofun
  · intro r hr hwritten
    cases answers_written hcall hr hwritten

theorem Ok.appendFailed {start : Nat} (h : s.Files old new [] k) (hn : ((old ++ new).map (·.1)).Nodup)
    (hcall : CallOk s.slots call) (hstart : start = (image putRecord old).length)
    (hjunk : ∀ key, call = .junk key → new = []) (hkept : Kept s.replies old k all) :
    (s.appendFailed call start).Ok all := by
  cases call with
  | group writes verdicts items => exact ⟨old, new, [], k, h.withStage _ _, hn, ⟨rfl, hstart, hcall⟩, hkept⟩
  | junk key =>
    cases hjunk key rfl
    rw [append_nil] at hn
    exact Ok.giveUp h hn hcall hkept

theorem Ok.of_idle (h : s.Ok all) (hstage : s.stage = .idle) :
    ∃ old k, s.Files old [] [] k ∧ (old.map (·.1)).Nodup ∧ Kept s.replies old k all := by
  obtain ⟨old, new, torn, k, hfiles, hn, hstageOk, hkept⟩ := h
  rw [hstage] at hstageOk
  obtain ⟨rfl, rfl⟩ := hstageOk
  rw [append_nil] at hn
  exact ⟨old, k, hfiles, hn, hkept⟩

theorem Ok.begin (call : StoreCall) (h : s.Files old [] [] k) (hn : (old.map (·.1)).Nodup)
    (hkept : Kept s.replies old k all) (hcall : CallOk s.slots call) (hkeys : (call.items.map (·.1)).Nodup)
    (hfree : ∀ r ∈ call.items, s.slots r.1 = none) :
    Ok all { s with stage := .appending call s.bytes.length call.items } := by
  have hnodup : ((old ++ call.items).map (·.1)).Nodup := by
    rw [map_append, nodup_append]
    refine ⟨hn, hkeys, fun a ha b hb heq => ?_⟩
    obtain ⟨r, hr, rfl⟩ := mem_map.mp ha
    obtain ⟨r', hr', rfl⟩ := mem_map.mp hb
    have hnone := hfree r' hr'
    rw [← heq, h.slots, fill_of_mem hn hr] at hnone
    cases hnone
  refine ⟨old, [], [], k, h.withStage _ _, by rwa [append_nil], ⟨rfl, rfl, ?_, hcall, hnodup⟩, hkept⟩
  rw [h.bytes, append_nil, append_nil]

theorem Ok.writeGroup (h : s.Ok all) (hstage : s.stage = .idle) (writes : List CorfuWriteRequest) {dataDone : Bool}
    (hstep : s.step (.writeGroup writes dataDone) = some s') : s'.Ok all := by
  obtain ⟨old, k, hfiles, hn, hkept⟩ := h.of_idle hstage
  obtain ⟨-, hcollected, hverdicts⟩ :=
    (Collected.nil s.slots).classify writes
  have hcall : CallOk s.slots (.group writes (classify s.slots [] writes).1 (classify s.slots [] writes).2) := by
    refine ⟨fun writes' verdicts items heq => ?_, fun r hr hunwritten => ?_⟩
    · cases heq
      exact hverdicts
    · cases (hcollected.state r hr).symm.trans hunwritten
  rw [step, hstage] at hstep
  dsimp only at hstep
  split at hstep
  · cases hstep
    exact Ok.giveUp hfiles hn hcall hkept
  · cases hstep
    exact Ok.begin _ hfiles hn hkept hcall hcollected.keys hcollected.free

theorem Ok.writeJunkOnce (h : s.Ok all) (hstage : s.stage = .idle) (key : CorfuSlotKey)
    (hstep : s.step (.writeJunkOnce key) = some s') : s'.Ok all := by
  obtain ⟨old, k, hfiles, hn, hkept⟩ := h.of_idle hstage
  rw [step, hstage] at hstep
  dsimp only at hstep
  split at hstep
  next e hslot =>
    cases hstep
    refine Ok.idle (hfiles.withStage _ _) hn rfl ?_
    refine hkept.extend (fun _ hr => hr) (fun ha => ⟨fun _ hr => hr, hkept.reach ha⟩) (fun r hr hack => ?_) ?_
    · cases mem_singleton.mp hr
      refine ⟨e, rfl, ?_, (filled_iff hn).mp (hfiles.slots ▸ hslot)⟩
      dsimp only at hack
      split at hack
      next hjunk => rw [Entry.content, hjunk]
      · exact absurd hack (by rintro (h | h | h) <;> cases h)
    · intro r hr hwritten
      cases mem_singleton.mp hr
      dsimp only at hwritten
      split at hwritten <;> cases hwritten
  next hslot =>
    cases hstep
    refine Ok.begin (.junk key) hfiles hn hkept ⟨nofun, ?_⟩ (nodup_singleton _) ?_
    · intro r hr hunwritten
      cases mem_singleton.mp hr
      cases hunwritten
    · intro r hr
      cases mem_singleton.mp hr
      exact hslot

theorem Ok.append (h : s.Ok all) {start : Nat} {r : SlotRecord} {todo : List SlotRecord}
    (hstage : s.stage = .appending call start (r :: todo)) {written : Option Nat}
    (hstep : s.step (.append written) = some s') : s'.Ok all := by
  obtain ⟨old, new, torn, k, hfiles, hn, hstageOk, hkept⟩ := h
  rw [hstage] at hstageOk
  obtain ⟨rfl, hitems, hstart, hcall, hnodup⟩ := hstageOk
  have hjunk : ∀ key, call = .junk key → new = [] := by
    rintro key rfl
    have hlen := congrArg List.length hitems
    rw [length_append] at hlen
    simp only [StoreCall.items, length_cons, length_nil] at hlen
    exact length_eq_zero_iff.mp (by omega)
  have hfailed := Ok.appendFailed hfiles hn hcall hstart hjunk hkept
  rw [step, hstage] at hstep
  dsimp only at hstep
  split at hstep
  · cases hstep
    exact hfailed
  next htopic =>
    have hrmem : r ∈ call.items := hitems ▸ mem_append_right _ mem_cons_self
    have hr : Recordable r := ⟨Nat.le_of_not_lt htopic, hcall.state r hrmem⟩
    split at hstep
    · cases hstep
      exact hfailed
    · split at hstep
      next n hshort =>
        cases hstep
        refine ⟨old, new, _, k, hfiles.tear hr hshort _, hn, ⟨hstart, hcall, new.length, ?_, fun key heq => ?_⟩, hkept⟩
        · rw [take_of_length_le (Nat.le_refl _), hfiles.bytes, append_nil]
        · rw [hjunk key heq]
          rfl
      · cases hstep
        have hitems' : call.items = (new ++ [r]) ++ todo := by rw [hitems, append_assoc]; rfl
        refine ⟨old, new ++ [r], [], k, hfiles.append hr _, ?_, ⟨rfl, hitems', hstart, hcall, hnodup⟩, hkept⟩
        rw [hitems', ← append_assoc, map_append] at hnodup
        exact (nodup_append.mp hnodup).1

theorem Ok.sync (h : s.Ok all) {start : Nat} (hstage : s.stage = .appending call start [])
    (hstep : s.step (.sync ok) = some s') : s'.Ok all := by
  obtain ⟨old, new, torn, k, hfiles, hn, hstageOk, hkept⟩ := h
  rw [hstage] at hstageOk
  obtain ⟨rfl, hitems, hstart, hcall, hnodup⟩ := hstageOk
  rw [append_nil] at hitems
  rw [step, hstage] at hstep
  dsimp only at hstep
  cases ok with
  | true =>
    cases hstep
    have hslots : fill Prod.fst Prod.snd s.slots call.items = fill Prod.fst Prod.snd (fun _ => none) (old ++ new) := by
      rw [hitems, fill_append, hfiles.slots]
    have hcommit := hfiles.commit (s.replies ++ answers (fill Prod.fst Prod.snd s.slots call.items) true call)
    rw [← hitems] at hcommit hn
    refine Ok.idle hcommit hn rfl ?_
    refine hkept.extend ?_ (fun _ => ⟨subset_append_left _ _, Nat.le_refl _⟩) ?_ fun _ _ _ => Nat.le_refl _
    · rw [take_of_length_le (Nat.le_refl _)]
      exact fun r hr => mem_append_left _ (mem_of_mem_take hr)
    · rw [hslots, ← hitems]
      refine answers_ok hn hcall (fun key e hslot => ?_) fun _ r hr => mem_append_right _ hr
      rw [map_append, nodup_append] at hn
      exact mem_append_left _ ((filled_iff hn.1).mp (hfiles.slots ▸ hslot))
  | false =>
    cases call with
    | group writes verdicts items =>
      cases hstep
      exact ⟨old, new, [], k, hfiles.withStage _ _, hn, ⟨rfl, hstart, hcall⟩, hkept⟩
    | junk key =>
      cases hstep
      refine ⟨old, new, [], k, hfiles.withStage _ _, hn, ⟨hstart, hcall, 0, ?_, fun _ _ => rfl⟩, hkept⟩
      rw [take_zero, append_nil]
      exact hstart

theorem Ok.truncated (h : s.Ok all) (hstep : s.step (.truncate ok) = some s') : s'.Ok all := by
  obtain ⟨old, new, torn, k, hfiles, hn, hstageOk, hkept⟩ := h
  have hsub : ∀ m, ((old ++ new.take m).map (·.1)).Nodup := fun m =>
    hn.sublist (((List.Sublist.refl old).append (take_sublist m new)).map _)
  rw [step] at hstep
  split at hstep
  next call start mark hstage =>
    cases hstep
    rw [hstage] at hstageOk
    obtain ⟨hstart, hcall, m, hmark, hjunk⟩ := hstageOk
    obtain ⟨k', hfiles', hk'⟩ := hfiles.truncate m hmark ok
    refine Ok.appendFailed hfiles' (hsub m) hcall hstart (fun key heq => ?_) (hkept.mono hk')
    rw [hjunk key heq, take_zero]
  next call start hstage =>
    cases hstep
    rw [hstage] at hstageOk
    obtain ⟨rfl, hstart, hcall⟩ := hstageOk
    have hmark : start = (image putRecord (old ++ new.take 0)).length := by
      rw [take_zero, append_nil]
      exact hstart
    obtain ⟨k', hfiles', hk'⟩ := hfiles.truncate 0 hmark ok
    have hold := hsub 0
    rw [take_zero, append_nil] at hold
    exact Ok.giveUp hfiles' hold hcall (hkept.mono hk')
  · cases hstep

theorem Ok.crash (h : s.Ok all) {settled : Bool} (hsettled : all → settled)
    (hstep : s.step (.crash kept settled) = some s') : s'.Ok all := by
  obtain ⟨old, new, torn, k, hfiles, hn, -, hkept⟩ := h
  obtain ⟨w, hw, hreplay, torn', hleft, -⟩ := hfiles.replay hn kept
  rw [step, hreplay] at hstep
  cases hstep
  have hn' : (((old ++ new).take w).map (·.1)).Nodup := by
    rw [map_take]
    exact hn.sublist (take_sublist _ _)
  have hbytes : (s.bytes.take (s.synced + kept)).take (image putRecord ((old ++ new).take w)).length =
      image putRecord ((old ++ new).take w ++ []) ++ [] := by
    rw [hleft, take_left, append_nil, append_nil]
  have hrec : ∀ r ∈ (old ++ new).take w ++ [], Recordable r := by
    rw [append_nil]
    exact fun r hr => hfiles.recordable r (mem_of_mem_take hr)
  have hsub : old.take k ⊆ (old ++ new).take k := by
    rw [take_append]
    exact subset_append_left _ _
  have hall : all → old ⊆ (old ++ new).take w := by
    intro ha r hr
    have hreach := Nat.le_trans (hkept.reach ha) hw
    rw [take_append, take_of_length_le hreach]
    exact mem_append_left _ hr
  cases settled with
  | true =>
    refine Ok.idle (k := ((old ++ new).take w).length) ⟨hbytes, hrec, .inl rfl, rfl, ?_, ?_⟩ hn' rfl ?_
    · rw [append_nil, take_of_length_le (Nat.le_refl _)]
      rfl
    · rw [append_nil]
    · rw [← append_nil s.replies]
      refine hkept.extend ?_ (fun ha => ⟨hall ha, Nat.le_refl _⟩) (fun _ hr => absurd hr not_mem_nil)
        fun _ hr => absurd hr not_mem_nil
      rw [take_of_length_le (Nat.le_refl _)]
      exact fun r hr => take_subset_take_left _ hw (hsub hr)
  | false =>
    have htake : ((old ++ new).take w).take k = (old ++ new).take k := by
      rw [take_take, Nat.min_eq_left hw]
    refine Ok.idle (k := k) ⟨hbytes, hrec, .inl rfl, rfl, ?_, ?_⟩ hn' rfl ?_
    · rw [append_nil, htake, ← hfiles.synced]
      refine Nat.min_eq_left ?_
      rw [hfiles.synced]
      exact Journal.length_image_take_le hw
    · rw [append_nil, length_take]
      exact Nat.le_min.mpr ⟨hw, hfiles.bound⟩
    · rw [← append_nil s.replies]
      refine hkept.extend ?_ (fun ha => absurd (hsettled ha) Bool.false_ne_true)
        (fun _ hr => absurd hr not_mem_nil) fun _ hr => absurd hr not_mem_nil
      rw [htake]
      exact hsub

theorem Ok.step (h : s.Ok all) {e : Event} (hsettled : all → e.settled) (hstep : s.step e = some s') : s'.Ok all := by
  cases hstage : s.stage with
  | idle =>
    cases e with
    | writeGroup writes dataDone => exact h.writeGroup hstage writes hstep
    | writeJunkOnce key => exact h.writeJunkOnce hstage key hstep
    | truncate ok => exact h.truncated hstep
    | crash kept settled => exact h.crash hsettled hstep
    | append | sync =>
      rw [ReplicaStore.step, hstage] at hstep
      cases hstep
  | appending call start todo =>
    cases e with
    | append written =>
      cases todo with
      | nil =>
        rw [ReplicaStore.step, hstage] at hstep
        cases hstep
      | cons r todo => exact h.append hstage hstep
    | sync ok =>
      cases todo with
      | nil => exact h.sync hstage hstep
      | cons r todo =>
        rw [ReplicaStore.step, hstage] at hstep
        cases hstep
    | truncate ok => exact h.truncated hstep
    | crash kept settled => exact h.crash hsettled hstep
    | writeGroup | writeJunkOnce =>
      rw [ReplicaStore.step, hstage] at hstep
      cases hstep
  | truncating | undoing | dead =>
    cases e with
    | truncate ok => exact h.truncated hstep
    | crash kept settled => exact h.crash hsettled hstep
    | writeGroup | writeJunkOnce | append | sync =>
      rw [ReplicaStore.step, hstage] at hstep
      cases hstep

theorem Ok.start (all : Bool) : Ok all {} := by
  have hnone : ∀ {α : Type} {P : α → Prop}, ∀ a ∈ ([] : List α), P a := fun a ha => absurd ha not_mem_nil
  have hfiles : Files {} [] [] [] 0 := ⟨rfl, hnone, .inl rfl, rfl, rfl, Nat.le_refl 0⟩
  exact Ok.idle hfiles nodup_nil rfl ⟨hnone, hnone, fun _ => hnone, fun _ => Nat.le_refl 0⟩

theorem Ok.crashSafe (h : s.Ok all) : s.CrashSafe := by
  obtain ⟨old, new, torn, k, hfiles, hn, hstageOk, hkept⟩ := h
  have hold : (old.map (·.1)).Nodup := by
    rw [map_append] at hn
    exact (nodup_append.mp hn).1
  refine ⟨fun message hdead => ?_, fun kept => ?_, hkept.agrees, fun r hr hwritten => ?_⟩
  · rw [hdead] at hstageOk
    exact hstageOk
  · obtain ⟨w, hw, hreplay, torn', hleft, htorn'⟩ := hfiles.replay hn kept
    have hn' : (((old ++ new).take w).map (·.1)).Nodup := by
      rw [map_take]
      exact hn.sublist (take_sublist _ _)
    refine ⟨_, _, hreplay, fun r => ?_, (old ++ new).take w, ?_, ?_⟩
    · rw [hfiles.recordIn_iff hleft htorn']
      exact filled_iff hn'
    · rw [hleft, take_left]
    · exact fun r hr => hfiles.recordable r (mem_of_mem_take hr)
  · obtain ⟨e, he, hmem⟩ := hkept.written r hr hwritten
    rw [he, hfiles.slots]
    exact fill_of_mem hold (mem_of_mem_take hmem)

/-- In every run, with failures and crashes, the store is crash-safe.  If no crash loses what an earlier one has left in
the file (`settled`: the bytes a restart reads back are on the medium, not only in a cache of the device), the slots
that a later call found written are kept, too. -/
theorem replica_store_crashSafe {es : List Event} {s : ReplicaStore}
    (hrun : Runs.Along step (fun _ _ => True) {} es s) :
    s.CrashSafe ∧ ((∀ e ∈ es, e.settled) → ∀ r ∈ s.replies, Acknowledged r.status → s.slots r.slot = r.entry) := by
  refine ⟨(hrun.invariant (I := Ok false) (fun _ _ _ _ hstep h => h.step nofun hstep) (.start _)).crashSafe, ?_⟩
  intro hsettled r hr hack
  have hok : s.Ok true := (hrun.with_events hsettled).invariant
    (fun _ _ _ hK hstep h => h.step (fun _ => hK.2) hstep) (.start _)
  obtain ⟨old, new, torn, k, hfiles, hn, -, hkept⟩ := hok
  obtain ⟨e, he, hmem⟩ := hkept.found rfl r hr hack
  rw [map_append] at hn
  rw [he, hfiles.slots]
  exact fill_of_mem (nodup_append.mp hn).1 hmem

def sampleSlot (seq : UInt64) : CorfuSlotKey := ⟨[116], 1, seq⟩

def sampleWrite (seq client : UInt64) : CorfuWriteRequest := ⟨sampleSlot seq, ⟨client, 3, 9, 1, 64⟩, 4096, true, 64⟩

theorem replica_store_crashSafe_tornRun :
    ∃ s, Runs.Along step (fun _ _ => True) {}
        [.writeGroup [sampleWrite 1 7, sampleWrite 1 7, sampleWrite 1 8, sampleWrite 2 7] true, .append (some 100),
          .append (some 100), .sync true, .writeJunkOnce (sampleSlot 3), .append (some 40), .crash 30 true,
          .writeGroup [sampleWrite 3 7, sampleWrite 2 7] false] s ∧
      s.replies.map (·.status) = [.written, .written, .conflict, .written, .ioError, .alreadySame] ∧
      s.slots (sampleSlot 2) = some ⟨.value, ⟨7, 3, 9, 1, 64⟩, 4096, 64⟩ ∧ s.CrashSafe := by
  refine Runs.exists_of_exec (fun s : ReplicaStore => (s.replies.map (·.status), s.slots (sampleSlot 2)))
    (([.written, .written, .conflict, .written, .ioError, .alreadySame] : List CorfuWriteStatus),
      some (⟨.value, ⟨7, 3, 9, 1, 64⟩, 4096, 64⟩ : Entry)) (by decide +kernel) fun s hrun hs => ?_
  obtain ⟨hreplies, hslot⟩ := Prod.mk.inj hs
  exact ⟨hreplies, hslot, (replica_store_crashSafe hrun).1⟩

end ReplicaStore

end Embarcadero.Corfu
