import Embarcadero.CommittedPrefix
import Embarcadero.SessionSafety

namespace Embarcadero

open Function (update update_apply update_of_ne update_self)
open List
open Cursor (Decision)

def durableDecision (durableLogical owner : Nat) (goi : Nat → GOIEntry) (cursor : Nat) : Decision :=
  let entry := goi cursor
  if entry.globalSeq ≠ cursor then .stop
  else if entry.brokerId ≠ owner then .skip
  else if entry.messageCount = 0 then .skip
  else if durableLogical < entry.cumulativeMessageCount then .stop
  else .take

structure DurableState where
  nextGoi : Nat → Nat := fun _ => 0
  perClientDurable : Nat → Nat := fun _ => 0
  credited : List Nat := []

namespace DurableState

def credit (goi : Nat → GOIEntry) (s : DurableState) (j : Nat) : DurableState :=
  let client := (goi j).clientId % 2 ^ 32
  { s with
    perClientDurable := update s.perClientDurable client (s.perClientDurable client + (goi j).messageCount)
    credited := s.credited ++ [j] }

def advanceOwner (goi : Nat → GOIEntry) (limit : Nat) (durableLogical : Nat → Nat) (s : DurableState)
    (owner : Nat) : DurableState :=
  let cursor := s.nextGoi owner
  let r := Cursor.scan (durableDecision (durableLogical owner) owner goi) limit (limit - cursor)
    (limit - cursor + 1) cursor
  r.2.foldl (credit goi) { s with nextGoi := update s.nextGoi owner r.1 }

def advance (goi : Nat → GOIEntry) (limit : Nat) (durableLogical : Nat → Nat) (s : DurableState) :
    DurableState :=
  (List.range numMaxBrokers).foldl (advanceOwner goi limit durableLogical) s

end DurableState

structure DurableCall where
  limit : Option Nat := none
  durableLogical : Nat → Nat := fun _ => 0
  read : Nat := 0

def DurableCall.readCompletion (completed : Nat → Nat) (c : DurableCall) : DurableCall :=
  { c with
    durableLogical := update c.durableLogical c.read (completed c.read)
    read := c.read + 1 }

structure DurableWorld where
  topic : Topic
  completedLogicalOffset : Nat → Nat := fun _ => 0
  state : DurableState := {}
  call : Nat → DurableCall := fun _ => {}

inductive DurableEvent
  | topic (e : Event)
  | complete (b n : Nat)
  | readCommitted (a : Nat)
  | readCompletion (a : Nat)
  | advance (a : Nat)

namespace DurableWorld

def fresh (P : Platform) : DurableWorld := { topic := .fresh P }

def setCall (w : DurableWorld) (a : Nat) (c : DurableCall) : DurableWorld :=
  { w with call := update w.call a c }

def complete (w : DurableWorld) (b n : Nat) : DurableWorld :=
  { w with
    completedLogicalOffset := update w.completedLogicalOffset b (max (w.completedLogicalOffset b) n) }

def step (P : Platform) (w : DurableWorld) : DurableEvent → Option DurableWorld
  | .topic e => (Embarcadero.step P w.topic e).map fun t => { w with topic := t }
  | .complete b n => some (w.complete b n)
  | .readCommitted a =>
    if (w.call a).limit.isNone then
      some (w.setCall a { limit := w.topic.cxl.committedSeq.map (· + 1) })
    else none
  | .readCompletion a =>
    if (w.call a).limit.isSome ∧ (w.call a).read < numMaxBrokers then
      some (w.setCall a ((w.call a).readCompletion w.completedLogicalOffset))
    else none
  | .advance a =>
    match (w.call a).limit with
    | some limit =>
      if (w.call a).read = numMaxBrokers then
        some { w.setCall a {} with
          state := w.state.advance w.topic.cxl.goi limit (w.call a).durableLogical }
      else none
    | none => none

end DurableWorld

def creditable (goi : Nat → GOIEntry) (owner j : Nat) : Bool :=
  (goi j).brokerId = owner && 0 < (goi j).messageCount

structure DurableState.Truthful (goi : Nat → GOIEntry) (committed : Nat) (completed : Nat → Nat)
    (s : DurableState) : Prop where
  /-- Of each owner, all creditable entries up to its cursor have been credited, in order. -/
  exact : ∀ owner, s.credited.filter (fun j => (goi j).brokerId = owner) =
    (List.range (s.nextGoi owner)).filter (creditable goi owner)
  bounded : ∀ owner, s.nextGoi owner ≤ committed
  covered : ∀ j ∈ s.credited, (goi j).cumulativeMessageCount ≤ completed (goi j).brokerId
  attributed : ∀ client, s.perClientDurable client =
    ((s.credited.filter fun j => (goi j).clientId % 2 ^ 32 = client).map
      fun j => (goi j).messageCount).sum

def Pinned (goi : Nat → GOIEntry) (limit durable owner cursor : Nat) : Prop :=
  limit ≤ cursor ∨ creditable goi owner cursor = true ∧ durable < (goi cursor).cumulativeMessageCount

variable {P : Platform} {t t' : Topic} {goi goi' : Nat → GOIEntry} {limit committed owner : Nat}
  {completed durableLogical : Nat → Nat} {s : DurableState} {w w' : DurableWorld}

namespace DurableState

theorem foldl_credit (goi : Nat → GOIEntry) (l : List Nat) : ∀ s : DurableState,
    (l.foldl (credit goi) s).nextGoi = s.nextGoi ∧
      (l.foldl (credit goi) s).credited = s.credited ++ l ∧
      ∀ client, (l.foldl (credit goi) s).perClientDurable client = s.perClientDurable client +
        ((l.filter fun j => (goi j).clientId % 2 ^ 32 = client).map fun j => (goi j).messageCount).sum := by
  induction l with
  | nil => exact fun s => ⟨rfl, (append_nil _).symm, fun _ => rfl⟩
  | cons j l ih =>
    intro s
    obtain ⟨hnext, hcredited, hclient⟩ := ih (s.credit goi j)
    refine ⟨hnext, hcredited.trans (append_assoc ..), fun client => ?_⟩
    rw [foldl_cons, hclient, filter_cons]
    dsimp only [credit]
    by_cases hc : (goi j).clientId % 2 ^ 32 = client
    · subst hc
      rw [update_self, if_pos (decide_eq_true rfl), map_cons, sum_cons, Nat.add_assoc]
    · rw [update_of_ne (Ne.symm hc), if_neg (by simpa using hc)]

theorem durableDecision_spec {durable j : Nat} {d : Decision} (h : durableDecision durable owner goi j = d) :
    match d with
    | .skip => creditable goi owner j = false
    | .take => creditable goi owner j = true ∧ (goi j).cumulativeMessageCount ≤ durable
    | .stop => (goi j).globalSeq = j →
        creditable goi owner j = true ∧ durable < (goi j).cumulativeMessageCount := by
  rw [durableDecision] at h
  rw [creditable]
  split at h
  · subst h
    exact fun heq => absurd heq ‹_›
  · split at h
    · subst h
      rw [decide_eq_false ‹_›, Bool.false_and]
    · rw [decide_eq_true (not_not.mp ‹¬(goi j).brokerId ≠ owner›), Bool.true_and]
      split at h
      · subst h
        exact decide_eq_false (by omega)
      · have hcount : 0 < (goi j).messageCount := Nat.pos_of_ne_zero ‹_›
        split at h
        · subst h
          exact fun _ => ⟨decide_eq_true hcount, ‹_›⟩
        · subst h
          exact ⟨decide_eq_true hcount, Nat.not_lt.mp ‹_›⟩

theorem walked (goi : Nat → GOIEntry) (s : DurableState) (limit owner durable : Nat) :
    Cursor.Walked (durableDecision durable owner goi) (creditable goi owner) limit
      (limit - s.nextGoi owner + 1) (s.nextGoi owner)
      (Cursor.scan (durableDecision durable owner goi) limit (limit - s.nextGoi owner)
        (limit - s.nextGoi owner + 1) (s.nextGoi owner)) := by
  apply Cursor.walked_scan
  · exact fun j _ hskip => durableDecision_spec hskip
  · exact fun j _ htake => (durableDecision_spec htake).1
  · omega

theorem Truthful.advanceOwner (h : s.Truthful goi committed completed) (hlimit : limit ≤ committed)
    (hdurable : durableLogical owner ≤ completed owner) :
    (s.advanceOwner goi limit durableLogical owner).Truthful goi committed completed := by
  have hwalk := walked goi s limit owner (durableLogical owner)
  rw [DurableState.advanceOwner]
  generalize Cursor.scan _ _ _ _ _ = r at hwalk
  obtain ⟨hnext, hcredited, hclient⟩ :=
    foldl_credit goi r.2 { s with nextGoi := update s.nextGoi owner r.1 }
  have hnew : ∀ j ∈ r.2, creditable goi owner j = true ∧ (goi j).cumulativeMessageCount ≤ durableLogical owner :=
    fun j hj => durableDecision_spec (hwalk.decided j hj).2.2
  have howner : ∀ j ∈ r.2, (goi j).brokerId = owner := by
    intro j hj
    have hc := (hnew j hj).1
    rw [creditable, Bool.and_eq_true] at hc
    exact of_decide_eq_true hc.1
  refine ⟨fun owner' => ?_, fun owner' => ?_, fun j hj => ?_, fun client => ?_⟩
  · rw [hcredited, hnext]
    dsimp only
    rw [filter_append, h.exact owner', update_apply]
    split
    next heq =>
      subst heq
      rw [hwalk.taken, filter_eq_self.mpr fun j hj => decide_eq_true (howner j hj)]
    next hne =>
      refine append_right_eq_self.mpr (filter_eq_nil_iff.mpr fun j hj heq => ?_)
      exact hne ((of_decide_eq_true heq).symm.trans (howner j hj))
  · rw [hnext]
    dsimp only
    rw [update_apply]
    split
    · exact hwalk.bounded.trans (max_le hlimit (h.bounded owner))
    · exact h.bounded owner'
  · rw [hcredited] at hj
    cases mem_append.mp hj with
    | inl hold => exact h.covered j hold
    | inr hj =>
      rw [howner j hj]
      exact (hnew j hj).2.trans hdurable
  · rw [hclient, hcredited, h.attributed client, filter_append, map_append, sum_append]

theorem pinned_advanceOwner (hindex : ∀ j < limit, (goi j).globalSeq = j) (s : DurableState) (owner : Nat) :
    Pinned goi limit (durableLogical owner) owner ((s.advanceOwner goi limit durableLogical owner).nextGoi owner) := by
  have hwalk := walked goi s limit owner (durableLogical owner)
  rw [DurableState.advanceOwner, (foldl_credit goi _ _).1]
  generalize Cursor.scan _ _ _ _ _ = r at hwalk
  dsimp only
  rw [update_self]
  cases Nat.lt_or_ge r.1 limit with
  | inr hdone => exact .inl hdone
  | inl hless =>
    have hstop := (hwalk.ends_of_spare (Nat.lt_succ_self _)).resolve_left (Nat.not_le.mpr hless)
    exact .inr (durableDecision_spec hstop (hindex r.1 hless))

theorem nextGoi_advanceOwner_of_ne {owner' : Nat} (hne : owner' ≠ owner) (s : DurableState) :
    (s.advanceOwner goi limit durableLogical owner).nextGoi owner' = s.nextGoi owner' := by
  rw [DurableState.advanceOwner, (foldl_credit goi _ _).1]
  exact update_of_ne hne _ _

theorem Truthful.foldl (hlimit : limit ≤ committed) (hdurable : ∀ b, durableLogical b ≤ completed b)
    (owners : List Nat) : ∀ {s : DurableState}, s.Truthful goi committed completed →
      (owners.foldl (DurableState.advanceOwner goi limit durableLogical) s).Truthful goi committed
        completed := by
  induction owners with
  | nil => exact id
  | cons owner owners ih => exact fun h => ih (h.advanceOwner hlimit (hdurable owner))

theorem nextGoi_foldl_of_not_mem {owners : List Nat} (hnot : owner ∉ owners) : ∀ s : DurableState,
    (owners.foldl (advanceOwner goi limit durableLogical) s).nextGoi owner = s.nextGoi owner := by
  induction owners with
  | nil => exact fun _ => rfl
  | cons o owners ih =>
    intro s
    rw [mem_cons, not_or] at hnot
    exact (ih hnot.2 _).trans (nextGoi_advanceOwner_of_ne hnot.1 s)

theorem pinned_foldl (hindex : ∀ j < limit, (goi j).globalSeq = j) {owners : List Nat}
    (hnodup : owners.Nodup) : ∀ s : DurableState, ∀ owner ∈ owners,
      Pinned goi limit (durableLogical owner) owner
        ((owners.foldl (advanceOwner goi limit durableLogical) s).nextGoi owner) := by
  induction owners with
  | nil => exact fun _ _ => nofun
  | cons o owners ih =>
    intro s owner howner
    rw [nodup_cons] at hnodup
    cases howner with
    | head =>
      rw [foldl_cons, nextGoi_foldl_of_not_mem hnodup.1]
      exact pinned_advanceOwner hindex s _
    | tail _ hmem => exact ih hnodup.2 _ owner hmem

theorem Truthful.advance (h : s.Truthful goi committed completed) (hlimit : limit ≤ committed)
    (hdurable : ∀ b, durableLogical b ≤ completed b) :
    (s.advance goi limit durableLogical).Truthful goi committed completed := by
  rw [DurableState.advance]
  exact Truthful.foldl hlimit hdurable _ h

theorem pinned_advance (hindex : ∀ j < limit, (goi j).globalSeq = j) (s : DurableState)
    (howner : owner < numMaxBrokers) :
    Pinned goi limit (durableLogical owner) owner
      ((s.advance goi limit durableLogical).nextGoi owner) := by
  rw [DurableState.advance]
  exact pinned_foldl hindex nodup_range s owner (mem_range.mpr howner)

-- unfolded, it is a term with a copy of the scan for every broker
attribute [irreducible] advance

theorem Truthful.mem_credited (h : s.Truthful goi committed completed) {j : Nat}
    (hj : j ∈ s.credited) : j < committed := by
  have hmem : j ∈ s.credited.filter fun i => (goi i).brokerId = (goi j).brokerId :=
    mem_filter.mpr ⟨hj, decide_eq_true rfl⟩
  rw [h.exact] at hmem
  exact Nat.lt_of_lt_of_le (mem_range.mp (mem_of_mem_filter hmem)) (h.bounded _)

theorem Truthful.nodup (h : s.Truthful goi committed completed) : s.credited.Nodup := by
  refine nodup_iff_count_le_one.mpr fun j => ?_
  have hcount : s.credited.count j = (s.credited.filter fun i => (goi i).brokerId = (goi j).brokerId).count j :=
    (count_filter (p := fun i => decide ((goi i).brokerId = (goi j).brokerId)) (decide_eq_true rfl)).symm
  rw [hcount, h.exact]
  exact nodup_iff_count_le_one.mp (nodup_range.filter _) j

theorem Truthful.extended {committed' : Nat} {completed' : Nat → Nat} (h : s.Truthful goi committed completed)
    (hle : committed ≤ committed') (hgoi : ∀ j < committed, goi' j = goi j)
    (hcompleted : ∀ b, completed b ≤ completed' b) : s.Truthful goi' committed' completed' := by
  have hsame : ∀ j ∈ s.credited, goi' j = goi j := fun j hj => hgoi j (h.mem_credited hj)
  refine ⟨fun owner => ?_, fun owner => (h.bounded owner).trans hle, fun j hj => ?_, fun client => ?_⟩
  · have hl : s.credited.filter (fun j => (goi' j).brokerId = owner) =
        s.credited.filter fun j => (goi j).brokerId = owner :=
      filter_congr fun j hj => by rw [hsame j hj]
    rw [hl, h.exact owner]
    refine filter_congr fun j hj => ?_
    rw [creditable, creditable, hgoi j (Nat.lt_of_lt_of_le (mem_range.mp hj) (h.bounded owner))]
  · rw [hsame j hj]
    exact (h.covered j hj).trans (hcompleted _)
  · have hl : s.credited.filter (fun j => (goi' j).clientId % 2 ^ 32 = client) =
        s.credited.filter fun j => (goi j).clientId % 2 ^ 32 = client :=
      filter_congr fun j hj => by rw [hsame j hj]
    rw [hl, h.attributed client]
    refine congrArg List.sum (map_congr_left fun j hj => ?_)
    rw [hsame j (mem_of_mem_filter hj)]

end DurableState

structure DurableCall.Behind (committed : Nat) (completed : Nat → Nat) (c : DurableCall) : Prop where
  limit : ∀ l ∈ c.limit, l ≤ committed
  durable : ∀ b, c.durableLogical b ≤ completed b

theorem DurableCall.Behind.mono {c : DurableCall} {committed' : Nat} {completed' : Nat → Nat}
    (h : c.Behind committed completed) (hle : committed ≤ committed')
    (hcompleted : ∀ b, completed b ≤ completed' b) : c.Behind committed' completed' where
  limit l hl := (h.limit l hl).trans hle
  durable b := (h.durable b).trans (hcompleted b)

theorem DurableCall.Behind.readCompletion {c : DurableCall} (h : c.Behind committed completed) :
    (c.readCompletion completed).Behind committed completed := by
  refine ⟨h.limit, fun b => ?_⟩
  rw [DurableCall.readCompletion]
  dsimp only
  rw [update_apply]
  split
  next heq => rw [heq]
  · exact h.durable b

namespace DurableWorld

structure Ok (w : DurableWorld) : Prop where
  topic : w.topic.Indexed
  state : w.state.Truthful w.topic.cxl.goi w.topic.cxl.committedLimit w.completedLogicalOffset
  call : ∀ a, (w.call a).Behind w.topic.cxl.committedLimit w.completedLogicalOffset

theorem Ok.setCall (h : w.Ok) {c : DurableCall} (hc : c.Behind w.topic.cxl.committedLimit w.completedLogicalOffset)
    (a : Nat) : (w.setCall a c).Ok := by
  refine ⟨h.topic, h.state, fun a' => ?_⟩
  dsimp only [DurableWorld.setCall]
  rw [update_apply]
  split
  · exact hc
  · exact h.call a'

theorem Ok.complete (h : w.Ok) (b n : Nat) : (w.complete b n).Ok := by
  have hle : ∀ b', w.completedLogicalOffset b' ≤ (w.complete b n).completedLogicalOffset b' := by
    intro b'
    dsimp only [DurableWorld.complete]
    rw [update_apply]
    split
    next heq => exact heq ▸ Nat.le_max_left _ _
    · exact Nat.le_refl _
  exact ⟨h.topic, h.state.extended (Nat.le_refl _) (fun _ _ => rfl) hle, fun a => (h.call a).mono (Nat.le_refl _) hle⟩

theorem Ok.step {e : DurableEvent} (h : w.Ok) (hstep : w.step P e = some w') : w'.Ok := by
  cases e with
  | topic e =>
    obtain ⟨t, ht, rfl⟩ := Option.map_eq_some_iff.mp hstep
    obtain ⟨htopic, hext⟩ := h.topic.step ht
    exact ⟨htopic, h.state.extended hext.limit hext.goi fun _ => Nat.le_refl _,
      fun a => (h.call a).mono hext.limit fun _ => Nat.le_refl _⟩
  | complete b n =>
    cases hstep
    exact h.complete b n
  | readCommitted a =>
    obtain ⟨-, rfl⟩ := Runs.of_guard hstep
    refine h.setCall ⟨fun l hl => ?_, fun _ => Nat.zero_le _⟩ a
    obtain ⟨s, hs, rfl⟩ := Option.map_eq_some_iff.mp hl
    rw [CxlMemory.committedLimit, hs]
    exact Nat.le_refl _
  | readCompletion a =>
    obtain ⟨-, rfl⟩ := Runs.of_guard hstep
    exact h.setCall (h.call a).readCompletion a
  | advance a =>
    rw [DurableWorld.step] at hstep
    split at hstep
    next limit hlimit =>
      obtain ⟨-, rfl⟩ := Runs.of_guard hstep
      have hclear := h.setCall (c := {}) ⟨by rintro _ ⟨⟩, fun _ => Nat.zero_le _⟩ a
      exact ⟨h.topic, h.state.advance ((h.call a).limit limit hlimit) (h.call a).durable, hclear.call⟩
    · cases hstep

theorem ok_fresh (P : Platform) : (fresh P).Ok where
  topic := (Topic.filled_fresh P).indexed
  state := ⟨fun _ => rfl, fun _ => Nat.zero_le _, nofun, fun _ => rfl⟩
  call _ := ⟨nofun, fun _ => Nat.zero_le _⟩

structure Truthful (P : Platform) (w : DurableWorld) : Prop where
  credit : w.state.Truthful w.topic.cxl.goi w.topic.cxl.committedLimit w.completedLogicalOffset
  committed : ∀ j ∈ w.state.credited, j < w.topic.cxl.committedLimit
  once : w.state.credited.Nodup
  /-- A call leaves every owner's cursor at the end of the prefix it has read, or at an entry that the
  completion vector it has read does not cover. -/
  thorough : ∀ a w', w.step P (.advance a) = some w' → ∀ limit ∈ (w.call a).limit, ∀ owner < numMaxBrokers,
      Pinned w.topic.cxl.goi limit ((w.call a).durableLogical owner) owner (w'.state.nextGoi owner)

theorem Ok.truthful (h : w.Ok) : w.Truthful P where
  credit := h.state
  committed _ := h.state.mem_credited
  once := h.state.nodup
  thorough a w' hstep limit hlimit owner howner := by
    rw [DurableWorld.step, hlimit] at hstep
    dsimp only at hstep
    obtain ⟨-, rfl⟩ := Runs.of_guard hstep
    have hindex : ∀ j < limit, (w.topic.cxl.goi j).globalSeq = j := fun j hj =>
      h.topic.globalSeq_eq (Nat.lt_of_lt_of_le hj (((h.call a).limit limit hlimit).trans h.topic.limit_le))
    exact DurableState.pinned_advance hindex w.state howner

end DurableWorld

/-- ACK2 credits an entry once, when it is committed and durable, and leaves none out. -/
theorem durable_credit_truthful {es : List DurableEvent}
    (hrun : Runs.Along (DurableWorld.step P) (fun _ _ => True) (.fresh P) es w) : w.Truthful P :=
  (hrun.invariant (I := DurableWorld.Ok) (fun _ _ _ _ hs h => h.step hs) (DurableWorld.ok_fresh P)).truthful

def durableRun : List DurableEvent :=
  [publishSlot 0 0 0, publishSlot 1 0 1, publishSlot 0 1 2,
    .epoch [scanSlot 0 0 0, scanSlot 1 0 1, scanSlot 0 1 2] (scenarioClock 1), .commit, .tail,
    .updateCommittedSeq 1].map .topic ++
  [.complete 0 1, .complete 1 1, .readCommitted 0] ++
  List.replicate numMaxBrokers (.readCompletion 0) ++
  [.complete 0 2, .advance 0]

theorem durable_credit_truthful_durableRun :
    ∃ w, Runs.Along (DurableWorld.step .small) (fun _ _ => True) (.fresh .small) durableRun w ∧
      (w.state.credited, w.state.perClientDurable 7) = ([0, 1], 2) ∧ w.Truthful .small := by
  refine Runs.exists_of_exec (fun w : DurableWorld => (w.state.credited, w.state.perClientDurable 7))
    ([0, 1], 2) (by decide +kernel) fun w hrun hcredit => ?_
  exact ⟨hcredit, durable_credit_truthful hrun⟩

end Embarcadero
