import Embarcadero.Lib.Runs
import Embarcadero.Lib.WriteOnce

namespace Embarcadero.Corfu

open Function (update)
open WriteOnce (FilledTo Agrees)

structure CorfuValueId where
  clientId : UInt64
  originalClientBatchSeq : UInt64
  totalOrder : UInt64
  numMsg : UInt32
  totalSize : UInt64
  deriving DecidableEq

inductive SlotContent
  | value (value : CorfuValueId)
  | junk
  deriving DecidableEq

inductive CorfuWriteStatus
  | written
  | alreadySame
  | alreadyJunk
  | conflict
  | ioError
  deriving DecidableEq

structure CorfuAppendDescriptor where
  value : CorfuValueId
  payload : Bool
  size : UInt64
  deriving DecidableEq

def writeOnce (slot : Option SlotContent) (d : CorfuAppendDescriptor) : Option SlotContent × CorfuWriteStatus :=
  if !d.payload || d.size != d.value.totalSize then (slot, .ioError)
  else
    match slot with
    | none => (some (.value d.value), .written)
    | some content => (slot, if content = .value d.value then .alreadySame else .conflict)

def writeJunkOnce (slot : Option SlotContent) : Option SlotContent × CorfuWriteStatus :=
  match slot with
  | none => (some .junk, .written)
  | some content => (slot, if content = .junk then .alreadyJunk else .conflict)

inductive Operation
  | append (d : CorfuAppendDescriptor)
  | completeHole (d : CorfuAppendDescriptor)
  | completeJunkHole
  deriving DecidableEq

namespace Operation

def content : Operation → SlotContent
  | .append d | .completeHole d => .value d.value
  | .completeJunkHole => .junk

def write : Operation → Option SlotContent → Option SlotContent × CorfuWriteStatus
  | .append d, slot | .completeHole d, slot => writeOnce slot d
  | .completeJunkHole, slot => writeJunkOnce slot

def complete : Operation → CorfuWriteStatus → Bool
  | .append _, s | .completeHole _, s => s == .written || s == .alreadySame
  | .completeJunkHole, s => s == .written || s == .alreadyJunk

end Operation

inductive ChainStage
  | probing (i : Nat) (sawUnwritten : Bool)
  | writing (i : Nat) (sawUnwritten : Bool)
  | returned (result : Bool)
  deriving DecidableEq

def Operation.enter (op : Operation) (i : Nat) (sawUnwritten : Bool) : ChainStage :=
  match op with
  | .append _ => .writing i sawUnwritten
  | .completeHole _ | .completeJunkHole => .probing i sawUnwritten

def Operation.afterProbe (op : Operation) (i : Nat) (sawUnwritten : Bool) (p : Option SlotContent) : ChainStage :=
  if !sawUnwritten && p == some op.content then .probing (i + 1) sawUnwritten
  else if !sawUnwritten && p == none then .writing i true
  else if !sawUnwritten then .returned false
  else if p != none then .returned false
  else .writing i sawUnwritten

def Operation.afterWrite (op : Operation) (i : Nat) (sawUnwritten : Bool) (s : CorfuWriteStatus) : ChainStage :=
  if op.complete s then op.enter (i + 1) sawUnwritten else .returned false

inductive Outcome
  | answered
  | failed
  | lost
  deriving DecidableEq

structure OrderedChain where
  chain : List Bool
  slots : Nat → Option SlotContent := fun _ => none
  operations : Nat → Option (Operation × ChainStage) := fun _ => none
  lost : List (Nat × Operation) := []

namespace OrderedChain

inductive Event
  | start (t : Nat) (op : Operation)
  | call (t : Nat) (outcome : Outcome)
  | land (n : Nat)

def setStage (s : OrderedChain) (t : Nat) (op : Operation) (stage : ChainStage) : OrderedChain :=
  { s with operations := update s.operations t (some (op, stage)) }

def probe (s : OrderedChain) (i : Nat) : Outcome → Option SlotContent
  | .answered => s.slots i
  | .failed | .lost => none

def write (s : OrderedChain) (i : Nat) (op : Operation) : Outcome → OrderedChain × CorfuWriteStatus
  | .answered => ({ s with slots := update s.slots i (op.write (s.slots i)).1 }, (op.write (s.slots i)).2)
  | .failed => (s, .ioError)
  | .lost => ({ s with lost := s.lost ++ [(i, op)] }, .ioError)

def callAt (s : OrderedChain) (t : Nat) (op : Operation) (i : Nat) (body : OrderedChain) : OrderedChain :=
  match s.chain[i]? with
  | none => s.setStage t op (.returned true)
  | some false => s.setStage t op (.returned false)
  | some true => body

def step (s : OrderedChain) : Event → Option OrderedChain
  | .start t op =>
    match s.operations t with
    | none => some (s.setStage t op (op.enter 0 false))
    | some _ => none
  | .call t outcome =>
    match s.operations t with
    | some (op, .probing i saw) =>
      some (s.callAt t op i (s.setStage t op (op.afterProbe i saw (s.probe i outcome))))
    | some (op, .writing i saw) =>
      some (s.callAt t op i ((s.write i op outcome).1.setStage t op (op.afterWrite i saw (s.write i op outcome).2)))
    | _ => none
  | .land n =>
    match s.lost[n]? with
    | some (i, op) => some { s with
        slots := update s.slots i (op.write (s.slots i)).1
        lost := s.lost.eraseIdx n }
    | none => none

structure OneValue (s : OrderedChain) : Prop where
  prefixAgreement : ∀ i c, s.slots i = some c → ∀ j < i, s.slots j = some c
  unique : ∀ i j c c', s.slots i = some c → s.slots j = some c' → c = c'

def Ready (s : OrderedChain) (op : Operation) : ChainStage → Prop
  | .probing i _ | .writing i _ => FilledTo s.slots i op.content
  | .returned true => FilledTo s.slots s.chain.length op.content
  | .returned false => True

structure Ok (s : OrderedChain) : Prop where
  agrees : Agrees s.slots
  ready : ∀ t op stage, s.operations t = some (op, stage) → s.Ready op stage
  lost : ∀ e ∈ s.lost, FilledTo s.slots e.1 e.2.content

variable {s s' : OrderedChain} {op : Operation} {i t : Nat}

theorem Operation.write_fst (op : Operation) (slot : Option SlotContent) :
    (op.write slot).1 = slot ∨ (op.write slot).1 = slot.or (some op.content) := by
  cases op with
  | append d | completeHole d =>
    rw [Operation.write, writeOnce.eq_def]
    split
    · exact .inl rfl
    · cases slot with
      | none => exact .inr rfl
      | some content => exact .inl rfl
  | completeJunkHole =>
    cases slot with
    | none => exact .inr rfl
    | some content => exact .inl rfl

theorem Operation.write_complete {slot : Option SlotContent} (h : op.complete (op.write slot).2) :
    (op.write slot).1 = some op.content := by
  cases op with
  | append d | completeHole d =>
    rw [Operation.write, writeOnce.eq_def] at h ⊢
    split at h
    · cases h
    next hvalid =>
      rw [if_neg hvalid]
      cases slot with
      | none => rfl
      | some content =>
        dsimp only at h
        split at h
        next heq =>
          rw [heq]
          rfl
        · cases h
  | completeJunkHole =>
    rw [Operation.write, writeJunkOnce.eq_def] at h ⊢
    cases slot with
    | none => rfl
    | some content =>
      dsimp only at h
      split at h
      next heq =>
        rw [heq]
        rfl
      · cases h

theorem update_write (s : OrderedChain) (i : Nat) (op : Operation) :
    update s.slots i (op.write (s.slots i)).1 = s.slots ∨
      update s.slots i (op.write (s.slots i)).1 = WriteOnce.write s.slots i op.content := by
  cases Operation.write_fst op (s.slots i) with
  | inl h => exact .inl (by rw [h, Function.update_eq_self])
  | inr h => exact .inr (by rw [h, WriteOnce.write])

theorem Ready.mono {stage : ChainStage} (h : s.Ready op stage) (hchain : s'.chain = s.chain)
    (hslots : ∀ i c, FilledTo s.slots i c → FilledTo s'.slots i c) : s'.Ready op stage := by
  cases stage with
  | probing | writing => exact hslots _ _ h
  | returned result =>
    cases result with
    | false => trivial
    | true =>
      rw [Ready, hchain]
      exact hslots _ _ h

theorem filledTo_update_write {c : SlotContent} (hfilled : FilledTo s.slots i c) (k : Nat) (op : Operation) :
    FilledTo (update s.slots k (op.write (s.slots k)).1) i c := by
  cases update_write s k op with
  | inl h =>
    rw [h]
    exact hfilled
  | inr h =>
    rw [h]
    exact hfilled.write

theorem Ok.write (h : s.Ok) (hfilled : FilledTo s.slots i op.content) :
    Ok { s with slots := update s.slots i (op.write (s.slots i)).1 } where
  agrees := by
    dsimp only
    cases update_write s i op with
    | inl heq =>
      rw [heq]
      exact h.agrees
    | inr heq =>
      rw [heq]
      exact h.agrees.write hfilled
  ready t op' stage ht := (h.ready t op' stage ht).mono rfl fun _ _ hc => filledTo_update_write hc i op
  lost e he := filledTo_update_write (h.lost e he) i op

theorem Ok.setStage (h : s.Ok) {stage : ChainStage} (hready : s.Ready op stage) : (s.setStage t op stage).Ok := by
  refine { h with ready := fun t' op' stage' ht' => ?_ }
  rw [OrderedChain.setStage] at ht'
  dsimp only at ht'
  rw [Function.update_apply] at ht'
  split at ht'
  · cases ht'
    exact hready.mono rfl fun _ _ hc => hc
  · exact (h.ready t' op' stage' ht').mono rfl fun _ _ hc => hc

theorem ready_enter (hfilled : FilledTo s.slots i op.content) (saw : Bool) : s.Ready op (op.enter i saw) := by
  cases op <;> exact hfilled

theorem Ok.callAt (h : s.Ok) {body : OrderedChain} (hfilled : FilledTo s.slots i op.content) (hbody : body.Ok) :
    (s.callAt t op i body).Ok := by
  rw [OrderedChain.callAt]
  split
  next hend =>
    refine h.setStage fun j hj => hfilled j ?_
    exact Nat.lt_of_lt_of_le hj (List.getElem?_eq_none_iff.mp hend)
  · exact h.setStage trivial
  · exact hbody

theorem ready_afterProbe (hfilled : FilledTo s.slots i op.content) (saw : Bool) (outcome : Outcome) :
    s.Ready op (op.afterProbe i saw (s.probe i outcome)) := by
  rw [Operation.afterProbe]
  split
  next hsame =>
    -- only a probe that was answered reads a content
    have hslot : s.slots i = some op.content := by
      have hprobe := eq_of_beq (Bool.and_eq_true_iff.mp hsame).2
      cases outcome with
      | answered => exact hprobe
      | failed | lost => cases hprobe
    exact hfilled.succ hslot
  · split
    · exact hfilled
    · split
      · trivial
      · split
        · trivial
        · exact hfilled

theorem Ok.callWrite (h : s.Ok) (hfilled : FilledTo s.slots i op.content) (saw : Bool) (outcome : Outcome) :
    ((s.write i op outcome).1.setStage t op (op.afterWrite i saw (s.write i op outcome).2)).Ok := by
  have hstop : ∀ s' : OrderedChain, s'.Ready op (op.afterWrite i saw .ioError) := by
    intro s'
    cases op <;> exact trivial
  cases outcome with
  | answered =>
    refine (h.write hfilled).setStage ?_
    rw [Operation.afterWrite]
    split
    next hcomplete =>
      refine ready_enter (FilledTo.succ (filledTo_update_write hfilled i op) ?_) saw
      exact (Function.update_self ..).trans (Operation.write_complete hcomplete)
    · trivial
  | failed => exact h.setStage (hstop _)
  | lost =>
    have hlost : Ok { s with lost := s.lost ++ [(i, op)] } := by
      refine { h with ready := fun t' op' stage ht => ?_, lost := fun e he => ?_ }
      · exact (h.ready t' op' stage ht).mono rfl fun _ _ hc => hc
      · cases List.mem_append.mp he with
        | inl hold => exact h.lost e hold
        | inr hnew =>
          rw [List.mem_singleton.mp hnew]
          exact hfilled
    exact hlost.setStage (hstop _)

theorem Ok.step (h : s.Ok) {e : Event} (hstep : s.step e = some s') : s'.Ok := by
  cases e with
  | start t op =>
    rw [OrderedChain.step] at hstep
    split at hstep
    · cases hstep
      exact h.setStage (ready_enter (fun _ hj => absurd hj (Nat.not_lt_zero _)) false)
    · cases hstep
  | call t outcome =>
    rw [OrderedChain.step] at hstep
    split at hstep
    · cases hstep
      have hfilled := h.ready t _ _ ‹_›
      exact h.callAt hfilled (h.setStage (ready_afterProbe hfilled _ outcome))
    · cases hstep
      have hfilled := h.ready t _ _ ‹_›
      exact h.callAt hfilled (h.callWrite hfilled _ outcome)
    · cases hstep
  | land n =>
    rw [OrderedChain.step] at hstep
    split at hstep
    next i op hlost =>
      cases hstep
      have hfilled := h.lost (i, op) (List.mem_of_getElem? hlost)
      exact { h.write hfilled with lost := fun e he => (h.write hfilled).lost e (List.mem_of_mem_eraseIdx he) }
    · cases hstep

theorem Ok.start (chain : List Bool) : Ok { chain } where
  agrees := nofun
  ready := nofun
  lost := nofun

theorem Ok.oneValue (h : s.Ok) : s.OneValue where
  prefixAgreement := h.agrees
  unique _ _ _ _ hi hj := h.agrees.unique hi hj

theorem step_returned {e : Event} (hstep : s.step e = some s') :
    s'.chain = s.chain ∧ ∀ t op result, s.operations t = some (op, .returned result) →
      s'.operations t = some (op, .returned result) := by
  have hother : ∀ (v : OrderedChain) (t : Nat) (op : Operation) (stage : ChainStage), v.chain = s.chain →
      v.operations = s.operations → (∀ op' result, s.operations t ≠ some (op', .returned result)) →
      (v.setStage t op stage).chain = s.chain ∧
        ∀ t' op' result, s.operations t' = some (op', .returned result) →
          (v.setStage t op stage).operations t' = some (op', .returned result) := by
    intro v t op stage hchain hops hrunning
    refine ⟨hchain, fun t' op' result ht' => ?_⟩
    refine (Function.update_of_ne ?_ _ _).trans (hops ▸ ht')
    rintro rfl
    exact hrunning op' result ht'
  cases e with
  | start t op =>
    rw [OrderedChain.step] at hstep
    split at hstep
    next hnone =>
      cases hstep
      exact hother s t _ _ rfl rfl fun op' result h => nomatch hnone.symm.trans h
    · cases hstep
  | call t outcome =>
    rw [OrderedChain.step] at hstep
    split at hstep
    next hstage =>
      cases hstep
      have hrunning : ∀ op' result, s.operations t ≠ some (op', .returned result) :=
        fun op' result h => nomatch hstage.symm.trans h
      rw [OrderedChain.callAt]
      split <;> exact hother _ t _ _ rfl rfl hrunning
    next hstage =>
      cases hstep
      have hrunning : ∀ op' result, s.operations t ≠ some (op', .returned result) :=
        fun op' result h => nomatch hstage.symm.trans h
      rw [OrderedChain.callAt]
      split
      · exact hother _ t _ _ rfl rfl hrunning
      · exact hother _ t _ _ rfl rfl hrunning
      · cases outcome <;> exact hother _ t _ _ rfl rfl hrunning
    · cases hstep
  | land n =>
    rw [OrderedChain.step] at hstep
    split at hstep
    · cases hstep
      exact ⟨rfl, fun _ _ _ ht => ht⟩
    · cases hstep

/-- In every run the replicas agree, and once an operation has returned true all of them hold its content for good. -/
theorem ordered_chain_one_value {chain : List Bool} {es es' : List Event} {s s' : OrderedChain}
    (hrun : Runs.Along step (fun _ _ => True) { chain } es s) (hlater : Runs.Along step (fun _ _ => True) s es' s') :
    s.OneValue ∧ ∀ t op, s.operations t = some (op, .returned true) →
      ∀ i < chain.length, s'.slots i = some op.content := by
  have hok : s.Ok ∧ s.chain = chain := by
    refine hrun.invariant (I := fun s => s.Ok ∧ s.chain = chain) ?_ ⟨.start chain, rfl⟩
    intro s e s' _ hstep h
    exact ⟨h.1.step hstep, (step_returned hstep).1.trans h.2⟩
  refine ⟨hok.1.oneValue, fun t op ht => ?_⟩
  have hok' : s'.Ok ∧ s'.chain = chain ∧ s'.operations t = some (op, .returned true) := by
    refine hlater.invariant (I := fun s => s.Ok ∧ s.chain = chain ∧ s.operations t = some (op, .returned true)) ?_
      ⟨hok.1, hok.2, ht⟩
    intro s e s' _ hstep h
    obtain ⟨hchain, hkeep⟩ := step_returned hstep
    exact ⟨h.1.step hstep, hchain.trans h.2.1, hkeep t op true h.2.2⟩
  have hfilled := hok'.1.ready t op _ hok'.2.2
  rw [Ready, hok'.2.1] at hfilled
  exact hfilled

def sampleAppend (client : UInt64) : CorfuAppendDescriptor := ⟨⟨client, 4, 30, 2, 128⟩, true, 128⟩

theorem ordered_chain_one_value_repairRun :
    ∃ s s', Runs.Along step (fun _ _ => True) { chain := [true, true] }
        [.start 1 (.append (sampleAppend 7)), .call 1 .answered, .call 1 .lost, .start 2 .completeJunkHole,
          .call 2 .answered, .start 3 (.completeHole (sampleAppend 7)), .call 3 .answered, .call 3 .answered, .land 0,
          .call 3 .answered, .call 3 .answered] s ∧
      Runs.Along step (fun _ _ => True) s [.start 4 (.append (sampleAppend 8)), .call 4 .answered] s' ∧
      s.operations 2 = some (.completeJunkHole, .returned false) ∧
      s'.operations 4 = some (.append (sampleAppend 8), .returned false) ∧
      s'.slots 1 = some (.value (sampleAppend 7).value) := by
  have hexec : ((Runs.exec step (fun _ _ => True) { chain := [true, true] }
      [.start 1 (.append (sampleAppend 7)), .call 1 .answered, .call 1 .lost, .start 2 .completeJunkHole,
        .call 2 .answered, .start 3 (.completeHole (sampleAppend 7)), .call 3 .answered, .call 3 .answered, .land 0,
        .call 3 .answered, .call 3 .answered]).bind fun s =>
      (Runs.exec step (fun _ _ => True) s [.start 4 (.append (sampleAppend 8)), .call 4 .answered]).map fun s' =>
        [s.operations 2, s'.operations 4, s.operations 3]) =
      some ([some (.completeJunkHole, .returned false), some (.append (sampleAppend 8), .returned false),
        some (.completeHole (sampleAppend 7), .returned true)] : List (Option (Operation × ChainStage))) := by
    decide +kernel
  obtain ⟨s, hs, hexec⟩ := Option.bind_eq_some_iff.mp hexec
  obtain ⟨s', hs', hstages⟩ := Option.map_eq_some_iff.mp hexec
  simp only [List.cons.injEq] at hstages
  obtain ⟨hjunk, happend, hhole, -⟩ := hstages
  have hrun := Runs.along_of_exec hs
  have hlater := Runs.along_of_exec hs'
  exact ⟨s, s', hrun, hlater, hjunk, happend, (ordered_chain_one_value hrun hlater).2 3 _ hhole 1 (by decide)⟩

end OrderedChain

end Embarcadero.Corfu
