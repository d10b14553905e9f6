import Embarcadero.Lib.Runs

namespace Embarcadero.MessageExport

structure MessageHeader where
  paddedSize : Nat
  nextMsgDiff : Nat
  logicalOffset : Nat

/-- The messages of a broker, one behind the other; `base` is `first_message_addr_`. -/
structure MessageLog where
  base : Nat
  size : Nat → Nat
  base_pos : 0 < base
  size_pos : ∀ j, 0 < size j

def MessageLog.addr (L : MessageLog) (j : Nat) : Int := L.base + ((List.range j).map L.size).sum

/-- What tells how far the replicas are: the completion vector with the ring that it points into, whose slots hold
`start_logical_offset` and `num_msg`, or the `replication_done` of each replica. -/
inductive Replicas
  | completionVector (completedPbrHead : Option Nat) (ringSize : Nat) (ring : Nat → Nat × Nat)
  | replicationDone (r : List (Option Nat))

structure View (L : MessageLog) where
  header : Int → MessageHeader
  ordered : Nat
  orderedAddr : Int
  replicas : Replicas
  last : 0 < ordered → orderedAddr = L.addr (ordered - 1)
  headers : ∀ j < ordered, (header (L.addr j)).paddedSize = L.size j ∧ (header (L.addr j)).logicalOffset = j ∧
    ((header (L.addr j)).nextMsgDiff = 0 ∨ (header (L.addr j)).nextMsgDiff = L.size j)

def getReplicatedLastOffsetFromCV (completedPbrHead : Option Nat) (ringSize : Nat) (ring : Nat → Nat × Nat) :
    Option Nat :=
  match completedPbrHead with
  | none => none
  | some head =>
    let (startOffset, numMsg) := ring (head % ringSize)
    if numMsg = 0 then none else some (startOffset + numMsg - 1)

def Replicas.lastOffset : Replicas → Option Nat
  | .completionVector completedPbrHead ringSize ring => getReplicatedLastOffsetFromCV completedPbrHead ringSize ring
  | .replicationDone r =>
    let min := r.reduceOption.foldl min (2 ^ 64 - 1)
    if r.reduceOption.length < r.length ∨ min = 2 ^ 64 - 1 then none else some min

def Replicas.adjusts (ordered r : Nat) : Replicas → Prop
  | .completionVector .. => r < ordered
  | .replicationDone _ => ordered ≠ r

instance (ordered r : Nat) : (x : Replicas) → Decidable (x.adjusts ordered r)
  | .completionVector .. => inferInstanceAs (Decidable (_ < _))
  | .replicationDone _ => inferInstanceAs (Decidable (_ ≠ _))

variable {L : MessageLog}

def View.combined (v : View L) : Option (Nat × Int) :=
  match v.replicas.lastOffset with
  | none => none
  | some r =>
    if v.replicas.adjusts v.ordered r then
      some (r, v.orderedAddr - (v.header v.orderedAddr).paddedSize * ((v.ordered : Int) - r))
    else some (v.ordered, v.orderedAddr)

structure Exported where
  messages : Int
  messagesSize : Int
  lastOffset : Nat
  lastAddr : Int
  deriving DecidableEq

def View.exportFrom (v : View L) (combinedAddr start : Int) : Option Exported :=
  if (v.header start).paddedSize = 0 then none
  else some
    { messages := start
      messagesSize := combinedAddr - start + (v.header combinedAddr).paddedSize
      lastOffset := (v.header combinedAddr).logicalOffset
      lastAddr := combinedAddr }

/-- `none` where the call returns false, or still waits for `next_msg_diff`.  The cursor is `last_offset` with
`last_addr`, or `none` before the first call. -/
def View.getMessageAddr (v : View L) (cursor : Option (Nat × Int)) : Option Exported :=
  match v.combined, cursor with
  | none, _ => none
  | some (combinedOffset, combinedAddr), none =>
    if combinedOffset = 2 ^ 64 - 1 ∨ combinedAddr ≤ 0 then none else v.exportFrom combinedAddr L.base
  | some (combinedOffset, combinedAddr), some (lastOffset, lastAddr) =>
    if combinedOffset = 2 ^ 64 - 1 ∨ combinedOffset ≤ lastOffset then none
    else if (v.header lastAddr).nextMsgDiff = 0 then none
    else v.exportFrom combinedAddr (lastAddr + (v.header lastAddr).nextMsgDiff)

structure Connection (L : MessageLog) where
  cursor : Option (Nat × Int) := none
  exported : List (View L × Exported) := []

def Connection.step (s : Connection L) (v : View L) : Option (Connection L) :=
  match v.getMessageAddr s.cursor with
  | none => some s
  | some x => some { cursor := some (x.lastOffset, x.lastAddr), exported := s.exported ++ [(v, x)] }

def Exact (v : View L) (first : Nat) (x : Exported) : Prop :=
  ∃ r, v.replicas.lastOffset = some r ∧ x.messages = L.addr first ∧
    x.messages + x.messagesSize = L.addr (min (v.ordered - 1) r + 1) ∧
    x.lastOffset = min (v.ordered - 1) r ∧ x.lastAddr = L.addr (min (v.ordered - 1) r)

inductive Consecutive : List (View L × Exported) → Nat → Prop
  | nil : Consecutive [] 0
  | concat {l : List (View L × Exported)} {first : Nat} {v : View L} {x : Exported} :
      Consecutive l first → Exact v first x → Consecutive (l ++ [(v, x)]) (x.lastOffset + 1)

def Steady (_ : Connection L) (v : View L) : Prop :=
  0 < v.ordered ∧ ∀ r ∈ v.replicas.lastOffset, ¬v.replicas.adjusts v.ordered r

instance (s : Connection L) (v : View L) : Decidable (Steady s v) :=
  inferInstanceAs (Decidable (_ ∧ ∀ r ∈ v.replicas.lastOffset, _))

theorem MessageLog.addr_succ (L : MessageLog) (j : Nat) : L.addr (j + 1) = L.addr j + L.size j := by
  simp [addr, List.range_succ, Int.add_assoc]

variable {s : Connection L} {x : Exported} {n r : Nat} {v : View L}

theorem Replicas.le_of_not_adjusts {x : Replicas} {ordered : Nat} (h : ¬x.adjusts ordered r) : ordered ≤ r := by
  cases x with
  | completionVector => exact Nat.le_of_not_lt h
  | replicationDone => exact (Decidable.not_not.mp h).le

def At (L : MessageLog) : Nat → Option (Nat × Int)
  | 0 => none
  | n + 1 => some (n, L.addr n)

theorem View.combined_of_steady (hs : Steady s v) :
    v.combined = none ∨ v.combined = some (v.ordered, L.addr (v.ordered - 1)) ∧
      ∃ r, v.replicas.lastOffset = some r ∧ min (v.ordered - 1) r = v.ordered - 1 := by
  rw [View.combined, ← v.last hs.1]
  cases hr : v.replicas.lastOffset with
  | none => exact .inl rfl
  | some r =>
    have hno := hs.2 r hr
    have hle := Replicas.le_of_not_adjusts hno
    exact .inr ⟨if_neg hno, r, rfl, Nat.min_eq_left ((Nat.sub_le _ _).trans hle)⟩

theorem View.exact_exportFrom (hpos : 0 < v.ordered) (hr : v.replicas.lastOffset = some r)
    (hmin : min (v.ordered - 1) r = v.ordered - 1) (hx : v.exportFrom (L.addr (v.ordered - 1)) (L.addr n) = some x) :
    Exact v n x := by
  obtain ⟨hsize, hoffset, -⟩ := v.headers (v.ordered - 1) (Nat.sub_lt hpos Nat.one_pos)
  have hend := L.addr_succ (v.ordered - 1)
  rw [View.exportFrom] at hx
  split at hx
  · cases hx
  cases hx
  refine ⟨r, hr, rfl, ?_, hoffset.trans hmin.symm, by rw [hmin]⟩
  dsimp only
  rw [hmin, hend, hsize]
  omega

theorem View.exact (hs : Steady s v) (hx : v.getMessageAddr (At L n) = some x) : Exact v n x := by
  rw [View.getMessageAddr.eq_def] at hx
  rcases View.combined_of_steady hs with hnone | ⟨hsome, r, hr, hmin⟩
  · rw [hnone] at hx
    cases hx
  rw [hsome] at hx
  cases n with
  | zero =>
    dsimp only [At] at hx
    split at hx
    · cases hx
    · exact View.exact_exportFrom hs.1 hr hmin (by simpa [MessageLog.addr] using hx)
  | succ k =>
    dsimp only [At] at hx
    split at hx
    · cases hx
    rename_i hk
    split at hx
    · cases hx
    rename_i hdiff
    rw [(v.headers k (Nat.lt_of_not_le (not_or.mp hk).2)).2.2.resolve_left hdiff, ← L.addr_succ] at hx
    exact View.exact_exportFrom hs.1 hr hmin hx

theorem Exact.at (h : Exact v n x) : some (x.lastOffset, x.lastAddr) = At L (x.lastOffset + 1) := by
  obtain ⟨r, -, -, -, hoffset, haddr⟩ := h
  rw [At, haddr, hoffset]

/-- Calls that need not step back return consecutive ranges of messages that are ordered and durable, each up to the
last such message. -/
theorem exports_durable_messages {vs : List (View L)} {s : Connection L}
    (hrun : Runs.Along Connection.step Steady {} vs s) : ∃ n, Consecutive s.exported n ∧ s.cursor = At L n := by
  refine hrun.invariant (I := fun s => ∃ n, Consecutive s.exported n ∧ s.cursor = At L n) ?_ ⟨0, .nil, rfl⟩
  intro s v s' hs hstep h
  obtain ⟨n, hexported, hcursor⟩ := h
  rw [Connection.step, hcursor] at hstep
  cases hx : v.getMessageAddr (At L n) with
  | none =>
    rw [hx] at hstep
    cases hstep
    exact ⟨n, hexported, hcursor⟩
  | some x =>
    rw [hx] at hstep
    cases hstep
    have hexact := View.exact hs hx
    exact ⟨x.lastOffset + 1, hexported.concat hexact, hexact.at⟩

def uniformLog : MessageLog where
  base := 64
  size _ := 64
  base_pos := by decide
  size_pos _ := by decide

def uniformView (n r : Nat) : View uniformLog where
  header a := ⟨64, 64, (a / 64).toNat - 1⟩
  ordered := n
  orderedAddr := uniformLog.addr (n - 1)
  replicas := .completionVector (some 0) 4 fun _ => (0, r + 1)
  last _ := rfl
  headers j _ := by
    have haddr : uniformLog.addr j = 64 + 64 * j := by
      simp [MessageLog.addr, uniformLog, Int.mul_comm]
    refine ⟨rfl, ?_, .inr rfl⟩
    rw [haddr]
    dsimp only
    omega

theorem exports_durable_messages_uniform :
    ∃ s, Runs.Along Connection.step Steady {} [uniformView 2 2, uniformView 3 5] s ∧
      s.exported.map (·.2) = [⟨64, 128, 1, 128⟩, ⟨192, 64, 2, 192⟩] ∧
      ∃ n, Consecutive s.exported n ∧ s.cursor = At uniformLog n :=
  Runs.exists_of_exec (·.exported.map (·.2)) _ (by decide +kernel) fun _ hrun hs => ⟨hs, exports_durable_messages hrun⟩

/-- All three messages are ordered and durable, but the call goes back by one of them: the count `3` is compared
with the offset `2`. -/
theorem export_stops_short : (uniformView 3 2).getMessageAddr none = some ⟨64, 128, 1, 128⟩ ∧
    ¬Exact (uniformView 3 2) 0 ⟨64, 128, 1, 128⟩ := by
  refine ⟨by decide, ?_⟩
  rintro ⟨r, hr, -, -, hoffset, -⟩
  cases hr
  exact absurd hoffset (by decide)

end Embarcadero.MessageExport
