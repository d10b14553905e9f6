import Embarcadero.Lib.Contiguous
import Embarcadero.Lib.Runs

namespace Embarcadero

open List

structure KafkaBatch where
  numMsg : Nat
  lastAddr : Nat
  nonempty : 0 < numMsg := by decide
  deriving DecidableEq

structure KafkaCallback extends KafkaBatch where
  startLogicalOffset : Nat
  deriving DecidableEq

def KafkaCallback.last (c : KafkaCallback) : Nat := c.startLogicalOffset + c.numMsg - 1

structure KafkaTopic where
  logicalOffset : Nat := 0
  kafkaLogicalOffset : Nat := 0
  writtenMessagesRange : List (Nat × Nat) := []
  writtenLogicalOffset : Option Nat := none
  writtenPhysicalAddr : Option Nat := none
  callbacks : List KafkaCallback := []
  completed : List Nat := []
  deriving DecidableEq

inductive KafkaEvent
  | get (batch : KafkaBatch)
  | complete (i : Nat)

namespace KafkaTopic

def kafkaGetCXLBuffer (s : KafkaTopic) (batch : KafkaBatch) : KafkaTopic :=
  { s with
    logicalOffset := s.logicalOffset + batch.numMsg
    callbacks := s.callbacks ++ [{ batch with startLogicalOffset := s.logicalOffset }] }

def publish (logPtr : Nat) : Nat → KafkaTopic → Nat → KafkaTopic
  | 0, s, _ => s
  | fuel + 1, s, logicalOffset =>
    let s := { s with
      writtenLogicalOffset := some logicalOffset
      writtenPhysicalAddr := some logPtr
      kafkaLogicalOffset := logicalOffset + 1 }
    match s.writtenMessagesRange.lookup (logicalOffset + 1) with
    | none => s
    | some next =>
      publish logPtr fuel { s with
        writtenMessagesRange := Contiguous.erase (logicalOffset + 1) s.writtenMessagesRange } next

def callback (s : KafkaTopic) (startLogicalOffset logPtr logicalOffset : Nat) : KafkaTopic :=
  if s.kafkaLogicalOffset ≠ startLogicalOffset then
    { s with
      writtenMessagesRange := (startLogicalOffset, logicalOffset) ::
        Contiguous.erase startLogicalOffset s.writtenMessagesRange }
  else publish logPtr (s.writtenMessagesRange.length + 1) s logicalOffset

def step (s : KafkaTopic) : KafkaEvent → Option KafkaTopic
  | .get batch => some (s.kafkaGetCXLBuffer batch)
  | .complete i =>
    match s.callbacks[i]? with
    | none => none
    | some c =>
      if i ∉ s.completed then
        some ({ s with completed := i :: s.completed }.callback c.startLogicalOffset c.lastAddr c.last)
      else none

def startAt (s : KafkaTopic) (i : Nat) : Nat := ((s.callbacks.map (·.numMsg)).take i).sum

structure Laid (s : KafkaTopic) : Prop where
  starts : ∀ i c, s.callbacks[i]? = some c → c.startLogicalOffset = s.startAt i
  total : s.logicalOffset = s.startAt s.callbacks.length
  within : ∀ i ∈ s.completed, i < s.callbacks.length

structure Buffered (s : KafkaTopic) (m : Nat) : Prop where
  found : ∀ i c, m ≤ i → s.callbacks[i]? = some c → i ∈ s.completed →
    s.writtenMessagesRange.lookup c.startLogicalOffset = some c.last
  only : ∀ e ∈ s.writtenMessagesRange, ∃ i c, m ≤ i ∧ s.callbacks[i]? = some c ∧ i ∈ s.completed ∧
    e = (c.startLogicalOffset, c.last)

structure Frontier (s : KafkaTopic) (m : Nat) : Prop where
  done : ∀ i < m, i ∈ s.completed
  stop : m ∉ s.completed
  offset : s.kafkaLogicalOffset = s.startAt m
  written : s.writtenLogicalOffset = (s.callbacks.take m).getLast?.map (·.last)
  buffered : s.Buffered m

variable {s s' : KafkaTopic} {c : KafkaCallback} {i j m : Nat}

theorem startAt_mono (s : KafkaTopic) (h : i ≤ j) : s.startAt i ≤ s.startAt j :=
  monotone_sum_take _ h

theorem startAt_succ (h : s.callbacks[i]? = some c) : s.startAt (i + 1) = s.startAt i + c.numMsg := by
  rw [startAt, take_add_one, sum_append, List.getElem?_map, h]
  simp [startAt]

theorem startAt_lt (h : s.callbacks[i]? = some c) (hij : i < j) : s.startAt i < s.startAt j := by
  have hsucc := startAt_succ h
  have hmono : s.startAt (i + 1) ≤ _ := s.startAt_mono hij
  have hpos := c.nonempty
  omega

theorem startAt_injective {d : KafkaCallback} (hi : s.callbacks[i]? = some c) (hj : s.callbacks[j]? = some d)
    (h : s.startAt i = s.startAt j) : i = j := by
  rcases Nat.lt_trichotomy i j with hlt | heq | hlt
  · exact absurd h (Nat.ne_of_lt (startAt_lt hi hlt))
  · exact heq
  · exact absurd h.symm (Nat.ne_of_lt (startAt_lt hj hlt))

theorem Laid.last (h : s.Laid) (hc : s.callbacks[i]? = some c) : c.last + 1 = s.startAt (i + 1) := by
  have hstart := h.starts i c hc
  have hpos := c.nonempty
  rw [startAt_succ hc, KafkaCallback.last]
  omega

theorem getLast?_take (h : s.callbacks[i]? = some c) : (s.callbacks.take (i + 1)).getLast? = some c := by
  rw [take_add_one, h, Option.toList_some, List.getLast?_concat]

theorem Frontier.le (h : s.Frontier m) (hl : s.Laid) : m ≤ s.callbacks.length := by
  cases m with
  | zero => exact Nat.zero_le _
  | succ m => exact hl.within m (h.done m (Nat.lt_succ_self m))

theorem Buffered.erase {d : KafkaCallback} (h : s.Buffered m) (hl : s.Laid) (hd : s.callbacks[m]? = some d) :
    { s with writtenMessagesRange :=
        Contiguous.erase d.startLogicalOffset s.writtenMessagesRange }.Buffered (m + 1) where
  found i c hi hc hdone := by
    have hne : c.startLogicalOffset ≠ d.startLogicalOffset := by
      rw [hl.starts i c hc, hl.starts m d hd]
      exact Nat.ne_of_gt (startAt_lt hd hi)
    exact (Contiguous.lookup_erase hne _).trans (h.found i c (Nat.le_of_succ_le hi) hc hdone)
  only e he := by
    obtain ⟨hmem, hne⟩ := mem_filter.mp he
    obtain ⟨i, c, hi, hc, hdone, rfl⟩ := h.only e hmem
    refine ⟨i, c, Nat.lt_of_le_of_ne hi ?_, hc, hdone, rfl⟩
    rintro rfl
    cases hd.symm.trans hc
    simp at hne

structure Published (s s' : KafkaTopic) (logPtr m m' : Nat) : Prop where
  callbacks : s'.callbacks = s.callbacks
  completed : s'.completed = s.completed
  logicalOffset : s'.logicalOffset = s.logicalOffset
  lt : m < m'
  frontier : s'.Frontier m'
  addr : s'.writtenPhysicalAddr = some logPtr

theorem Laid.of_eq (h : s.Laid) (hc : s'.callbacks = s.callbacks) (hd : ∀ i ∈ s'.completed, i < s.callbacks.length)
    (ho : s'.logicalOffset = s.logicalOffset) : s'.Laid where
  starts i c hi := by
    rw [startAt, hc]
    exact h.starts i c (hc ▸ hi)
  total := by
    rw [startAt, hc, ho]
    exact h.total
  within := hc ▸ hd

theorem publish_spec (logPtr : Nat) : ∀ (fuel : Nat) (s : KafkaTopic) (m : Nat) (c : KafkaCallback), s.Laid →
    s.callbacks[m]? = some c → (∀ i ≤ m, i ∈ s.completed) → s.Buffered (m + 1) →
      s.writtenMessagesRange.length < fuel → ∃ m', Published s (publish logPtr fuel s c.last) logPtr m m' ∧
          (s.writtenMessagesRange.lookup (c.last + 1) = none → m' = m + 1) := by
  intro fuel
  induction fuel with
  | zero => exact fun _ _ _ _ _ _ _ hfuel => absurd hfuel (Nat.not_lt_zero _)
  | succ fuel ih =>
    intro s m c hl hc hdone hb hfuel
    have hlast := hl.last hc
    rw [publish]
    dsimp only
    split
    next hnone =>
      refine ⟨m + 1, ⟨rfl, rfl, rfl, Nat.lt_succ_self m, ⟨fun i hi => hdone i (Nat.le_of_lt_succ hi), fun hm => ?_,
        hlast, ?_, ⟨hb.found, hb.only⟩⟩, rfl⟩, fun _ => rfl⟩
      · -- had the next batch been written, its entry would be in the map
        have hd := List.getElem?_eq_getElem (hl.within _ hm)
        have hfound := hb.found (m + 1) _ (Nat.le_refl _) hd hm
        rw [hl.starts _ _ hd, ← hlast, hnone] at hfound
        cases hfound
      · exact (congrArg (Option.map _) (getLast?_take hc)).symm
    next next hnext =>
      obtain ⟨j, d, hj, hd, hjdone, he⟩ := hb.only _ (Assoc.mem_of_lookup hnext)
      obtain ⟨hstart, rfl⟩ := Prod.mk.inj he
      have hjm : m + 1 = j := by
        rcases Nat.lt_or_eq_of_le hj with hlt | heq
        · have hlen : m + 1 < s.callbacks.length := hlt.trans (List.getElem?_eq_some_iff.mp hd).1
          have hm := List.getElem?_eq_getElem hlen
          have hlt := startAt_lt hm hlt
          rw [← hl.starts j d hd, ← hstart, hlast] at hlt
          exact absurd hlt (Nat.lt_irrefl _)
        · exact heq
      subst hjm
      obtain ⟨m', hp, -⟩ := ih { s with
          writtenLogicalOffset := some c.last
          writtenPhysicalAddr := some logPtr
          kafkaLogicalOffset := c.last + 1
          writtenMessagesRange := Contiguous.erase (c.last + 1) s.writtenMessagesRange }
        (m + 1) d (hl.of_eq rfl hl.within rfl) hd
        (fun i hi => (Nat.lt_or_eq_of_le hi).elim (fun h => hdone i (Nat.le_of_lt_succ h)) fun h => h ▸ hjdone)
        (by rw [hstart]; exact ⟨(hb.erase hl hd).found, (hb.erase hl hd).only⟩)
        (Nat.lt_of_lt_of_le (Contiguous.length_erase_lt hnext) (Nat.le_of_lt_succ hfuel))
      refine ⟨m', ⟨hp.callbacks, hp.completed, hp.logicalOffset, (Nat.lt_succ_self m).trans hp.lt, hp.frontier,
        hp.addr⟩,
        fun hnone => ?_⟩
      cases hnext.symm.trans hnone

theorem Frontier.get (h : s.Frontier m) (hl : s.Laid) (batch : KafkaBatch) :
    (s.kafkaGetCXLBuffer batch).Frontier m ∧ (s.kafkaGetCXLBuffer batch).Laid := by
  have hle := h.le hl
  have hold : ∀ i ≤ s.callbacks.length, (s.kafkaGetCXLBuffer batch).startAt i = s.startAt i := by
    intro i hi
    rw [startAt, kafkaGetCXLBuffer, map_append, take_append_of_le_length (by simpa using hi)]
    rfl
  have hget : ∀ i < s.callbacks.length, (s.kafkaGetCXLBuffer batch).callbacks[i]? = s.callbacks[i]? :=
    fun i hi => List.getElem?_append_left hi
  refine ⟨⟨h.done, h.stop, h.offset.trans (hold m hle).symm, ?_, ⟨fun i c hi hc hdone => ?_, fun e he => ?_⟩⟩,
    fun i c hc => ?_, ?_, fun i hi => ?_⟩
  · rw [kafkaGetCXLBuffer, take_append_of_le_length hle]
    exact h.written
  · rw [hget i (hl.within i hdone)] at hc
    exact h.buffered.found i c hi hc hdone
  · obtain ⟨i, c, hi, hc, hdone, heq⟩ := h.buffered.only e he
    exact ⟨i, c, hi, (hget i (hl.within i hdone)).trans hc, hdone, heq⟩
  · have hlen := (List.getElem?_eq_some_iff.mp hc).1
    rw [kafkaGetCXLBuffer, length_append, length_singleton] at hlen
    rw [hold i (Nat.le_of_lt_succ hlen)]
    rcases Nat.lt_or_eq_of_le (Nat.le_of_lt_succ hlen) with hlt | rfl
    · exact hl.starts i c ((hget i hlt).symm.trans hc)
    · rw [kafkaGetCXLBuffer, List.getElem?_concat_length] at hc
      cases hc
      exact hl.total
  · have hnew : (s.kafkaGetCXLBuffer batch).callbacks[s.callbacks.length]? =
        some { batch with startLogicalOffset := s.logicalOffset } := List.getElem?_concat_length
    have hlen : (s.kafkaGetCXLBuffer batch).callbacks.length = s.callbacks.length + 1 := length_append
    rw [hlen, startAt_succ hnew, hold _ (Nat.le_refl _), ← hl.total]
    rfl
  · exact (hl.within i hi).trans_le (by simp [kafkaGetCXLBuffer])

theorem Frontier.buffer (h : s.Frontier m) (hl : s.Laid) (hc : s.callbacks[i]? = some c) (hi : i ∉ s.completed)
    (hne : s.kafkaLogicalOffset ≠ c.startLogicalOffset) :
    { s with
      completed := i :: s.completed
      writtenMessagesRange := (c.startLogicalOffset, c.last) ::
        Contiguous.erase c.startLogicalOffset s.writtenMessagesRange }.Frontier m := by
  have him : m < i := by
    rcases Nat.lt_trichotomy m i with hlt | rfl | hlt
    · exact hlt
    · exact absurd (h.offset.trans (hl.starts m c hc).symm) hne
    · exact absurd (h.done i hlt) hi
  refine ⟨fun j hj => mem_cons_of_mem _ (h.done j hj), fun hm => ?_, h.offset, h.written,
    ⟨fun j d hj hd hdone => ?_, fun e he => ?_⟩⟩
  · cases mem_cons.mp hm with
    | inl heq => exact absurd heq (Nat.ne_of_lt him)
    | inr hmem => exact h.stop hmem
  · rw [lookup_cons]
    by_cases heq : j = i
    · rw [heq] at hd
      cases hc.symm.trans hd
      rw [beq_self_eq_true]
    · have hstart : d.startLogicalOffset ≠ c.startLogicalOffset := by
        rw [hl.starts j d hd, hl.starts i c hc]
        exact fun hs => heq (startAt_injective hd hc hs)
      rw [beq_eq_false_iff_ne.mpr hstart]
      exact (Contiguous.lookup_erase hstart _).trans
        (h.buffered.found j d hj hd ((mem_cons.mp hdone).resolve_left heq))
  · cases mem_cons.mp he with
    | inl heq => exact ⟨i, c, Nat.le_of_lt him, hc, mem_cons_self, heq⟩
    | inr hmem =>
      obtain ⟨j, d, hj, hd, hdone, heq⟩ := h.buffered.only e (mem_filter.mp hmem).1
      exact ⟨j, d, hj, hd, mem_cons_of_mem _ hdone, heq⟩

theorem Frontier.advance (h : s.Frontier m) (hl : s.Laid) (hc : s.callbacks[i]? = some c) (hi : i ∉ s.completed)
    (heq : s.kafkaLogicalOffset = c.startLogicalOffset) :
    ∃ m', Published { s with completed := i :: s.completed }
        (publish c.lastAddr (s.writtenMessagesRange.length + 1) { s with completed := i :: s.completed } c.last)
        c.lastAddr i m' ∧
      (s.writtenMessagesRange.lookup (c.last + 1) = none → m' = i + 1) := by
  have hlen := (List.getElem?_eq_some_iff.mp hc).1
  have him : m = i := by
    have hstart := (h.offset.symm.trans heq).trans (hl.starts i c hc)
    rcases Nat.lt_trichotomy m i with hlt | rfl | hlt
    · exact absurd hstart (Nat.ne_of_lt (startAt_lt (List.getElem?_eq_getElem (hlt.trans hlen)) hlt))
    · rfl
    · exact absurd (h.done i hlt) hi
  subst him
  have hbehind : ∀ j, m < j → j ∈ m :: s.completed → j ∈ s.completed :=
    fun j hj hmem => (mem_cons.mp hmem).resolve_left (Nat.ne_of_gt hj)
  refine publish_spec c.lastAddr _ { s with completed := m :: s.completed } m c
    (hl.of_eq rfl (forall_mem_cons.mpr ⟨hlen, hl.within⟩) rfl) hc (fun j hj => ?_)
    ⟨fun j d hj hd hdone => h.buffered.found j d (Nat.le_of_succ_le hj) hd (hbehind j hj hdone), fun e he => ?_⟩
    (Nat.lt_succ_self _)
  · rcases Nat.lt_or_eq_of_le hj with hlt | rfl
    · exact mem_cons_of_mem _ (h.done j hlt)
    · exact mem_cons_self
  · obtain ⟨j, d, hj, hd, hdone, heq⟩ := h.buffered.only e he
    refine ⟨j, d, Nat.lt_of_le_of_ne hj ?_, hd, mem_cons_of_mem _ hdone, heq⟩
    rintro rfl
    exact hi hdone

def DrainsNothing (s : KafkaTopic) : KafkaEvent → Prop
  | .get _ => True
  | .complete i => ∀ c ∈ s.callbacks[i]?, s.kafkaLogicalOffset = c.startLogicalOffset →
      s.writtenMessagesRange.lookup (c.last + 1) = none

instance (s : KafkaTopic) : (e : KafkaEvent) → Decidable (s.DrainsNothing e)
  | .get _ => isTrue trivial
  | .complete i => inferInstanceAs (Decidable (∀ c ∈ s.callbacks[i]?, _ → _))

def Addressed (s : KafkaTopic) (m : Nat) : Prop :=
  s.writtenPhysicalAddr = (s.callbacks.take m).getLast?.map (·.lastAddr)

theorem Frontier.step {e : KafkaEvent} (h : s.Frontier m) (hl : s.Laid) (hstep : s.step e = some s') :
    s'.Laid ∧ ∃ m', s'.Frontier m' ∧ (s.DrainsNothing e → s.Addressed m → s'.Addressed m') := by
  cases e with
  | get batch =>
    cases hstep
    obtain ⟨hfrontier, hlaid⟩ := h.get hl batch
    refine ⟨hlaid, m, hfrontier, fun _ haddr => haddr.trans ?_⟩
    rw [kafkaGetCXLBuffer, take_append_of_le_length (h.le hl)]
  | complete i =>
    rw [KafkaTopic.step] at hstep
    split at hstep
    · cases hstep
    rename_i c hc
    obtain ⟨hi, rfl⟩ := Runs.of_guard hstep
    have hmore : ∀ j ∈ i :: s.completed, j < s.callbacks.length :=
      forall_mem_cons.mpr ⟨(List.getElem?_eq_some_iff.mp hc).1, hl.within⟩
    rw [callback]
    split
    next hne => exact ⟨hl.of_eq rfl hmore rfl, m, h.buffer hl hc hi hne, fun _ haddr => haddr⟩
    next heq =>
      have heq := Decidable.not_not.mp heq
      obtain ⟨m', hp, hnext⟩ := h.advance hl hc hi heq
      refine ⟨hl.of_eq hp.callbacks (hp.completed ▸ hmore) hp.logicalOffset, m', hp.frontier, fun hd _ => ?_⟩
      rw [Addressed, hp.addr, hp.callbacks, hnext (hd c hc heq), getLast?_take hc]
      rfl

def Exact (s : KafkaTopic) : Prop :=
  ∃ m ≤ s.callbacks.length, (∀ i < m, i ∈ s.completed) ∧ m ∉ s.completed ∧
    s.writtenLogicalOffset = (s.callbacks.take m).getLast?.map (·.last) ∧ s.Addressed m ∧
    s.kafkaLogicalOffset = s.startAt m ∧ ∀ e ∈ s.writtenMessagesRange, s.kafkaLogicalOffset < e.1

instance (s : KafkaTopic) : Decidable s.Exact :=
  haveI : DecidablePred s.Addressed := fun _ => inferInstanceAs (Decidable (_ = _))
  inferInstanceAs (Decidable (∃ m ≤ s.callbacks.length, _))

theorem kafka_written_frontier {es : List KafkaEvent} (hrun : Runs.Along KafkaTopic.step DrainsNothing {} es s) :
    s.Exact := by
  have hinv : s.Laid ∧ ∃ m, s.Frontier m ∧ s.Addressed m := by
    refine hrun.invariant (I := fun s => s.Laid ∧ ∃ m, s.Frontier m ∧ s.Addressed m) ?_ ?_
    · intro s e s' hd hstep h
      obtain ⟨hl, m, hfrontier, haddr⟩ := h
      obtain ⟨hl', m', hfrontier', hnamed⟩ := hfrontier.step hl hstep
      exact ⟨hl', m', hfrontier', hnamed hd haddr⟩
    · exact ⟨⟨nofun, rfl, nofun⟩, 0, ⟨nofun, nofun, rfl, rfl, ⟨nofun, nofun⟩⟩, rfl⟩
  obtain ⟨hl, m, h, haddr⟩ := hinv
  refine ⟨m, h.le hl, h.done, h.stop, h.written, haddr, h.offset, fun e he => ?_⟩
  obtain ⟨i, c, hi, hc, hdone, rfl⟩ := h.buffered.only e he
  have him : m < i := Nat.lt_of_le_of_ne hi fun heq => h.stop (heq ▸ hdone)
  rw [h.offset, hl.starts i c hc]
  exact startAt_lt (List.getElem?_eq_getElem (him.trans (hl.within i hdone))) him

def threeBatches : List KafkaEvent :=
  [.get ⟨2, 100, Nat.two_pos⟩, .get ⟨1, 200, Nat.one_pos⟩, .get ⟨3, 300, Nat.succ_pos 2⟩]

theorem kafka_written_frontier_threeBatches :
    ∃ s, Runs.Along KafkaTopic.step DrainsNothing {} (threeBatches ++ [.complete 2, .complete 0]) s ∧
      s.writtenLogicalOffset = some 1 ∧ s.Exact :=
  Runs.exists_of_exec (·.writtenLogicalOffset) (some 1) (by decide +kernel) fun _ hrun hw =>
    ⟨hw, kafka_written_frontier hrun⟩

/-- The second batch is written before the first: the callback of the first publishes the last offset
of the second under the address of its own last message. -/
theorem kafka_written_addr_of_other :
    ∃ s, Runs.Along KafkaTopic.step (fun _ _ => True) {} (threeBatches ++ [.complete 1, .complete 0]) s ∧
      (s.writtenLogicalOffset, s.writtenPhysicalAddr) = (some 2, some 100) ∧ ¬s.Exact :=
  Runs.exists_of_exec (fun s => ((s.writtenLogicalOffset, s.writtenPhysicalAddr), decide s.Exact))
    ((some 2, some 100), false) (by decide +kernel) fun s _ h =>
      ⟨congrArg Prod.fst h, of_decide_eq_false (congrArg Prod.snd h)⟩

end KafkaTopic

end Embarcadero
