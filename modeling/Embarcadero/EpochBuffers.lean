import Embarcadero.Data
import Embarcadero.Lib.Runs

namespace Embarcadero

open Function (update)

inductive BufferState
  | idle
  | resetting
  | collecting
  | sealing
  | sealed
  deriving DecidableEq

structure EpochBuffer5 (β : Type*) where
  state : BufferState := .idle
  brokerActive : Nat → Bool := fun _ => false
  perBroker : Nat → List β := fun _ => []

inductive CollectorCall (β : Type*)
  | outside
  | admitted (i : Fin 3) (batch : β)
  | pushed (i : Fin 3)
  deriving DecidableEq

/-- A thread inside `seal` or `reset_and_start`, with the number of brokers its loop has passed. -/
inductive BufferCall
  | idle
  | sealing (i : Fin 3) (checked : Nat)
  | clearing (i : Fin 3) (cleared : Nat)
  | deactivating (i : Fin 3) (cleared : Nat)
  deriving DecidableEq

inductive ExtractCall
  | idle
  | checking (i : Fin 3) (checked : Nat)
  | moving (i : Fin 3) (moved : Nat)
  deriving DecidableEq

structure EpochBuffers (β : Type*) where
  buffers : Fin 3 → EpochBuffer5 (Nat × β) := fun _ => {}
  collectors : Nat → CollectorCall β := fun _ => .outside
  calls : Nat → BufferCall := fun _ => .idle
  sequencer : ExtractCall := .idle
  pushed : List (Nat × β) := []
  extracted : List (Nat × β) := []

inductive BufferEvent (β : Type*)
  | enterCollection (broker : Nat) (i : Fin 3) (batch : β)
  | push (broker : Nat)
  | exitCollection (broker : Nat)
  | sealBegin (thread : Nat) (i : Fin 3)
  | sealCheck (thread : Nat) (expired : Bool)
  | resetBegin (thread : Nat) (i : Fin 3)
  | resetNext (thread : Nat)
  | extractBegin (i : Fin 3)
  | extractNext
  deriving DecidableEq

namespace EpochBuffer5

variable {β : Type*}

def setActive (B : EpochBuffer5 β) (b : Nat) (active : Bool) : EpochBuffer5 β :=
  { B with brokerActive := update B.brokerActive b active }

def setQueue (B : EpochBuffer5 β) (b : Nat) (q : List β) : EpochBuffer5 β :=
  { B with perBroker := update B.perBroker b q }

def setState (B : EpochBuffer5 β) (state : BufferState) : EpochBuffer5 β :=
  { B with state := state }

end EpochBuffer5

namespace EpochBuffers

variable {β : Type*}

def setBuffer (s : EpochBuffers β) (i : Fin 3) (B : EpochBuffer5 (Nat × β)) : EpochBuffers β :=
  { s with buffers := update s.buffers i B }

def setState (s : EpochBuffers β) (i : Fin 3) (state : BufferState) : EpochBuffers β :=
  s.setBuffer i ((s.buffers i).setState state)

def setCollector (s : EpochBuffers β) (b : Nat) (c : CollectorCall β) : EpochBuffers β :=
  { s with collectors := update s.collectors b c }

def setCall (s : EpochBuffers β) (thread : Nat) (c : BufferCall) : EpochBuffers β :=
  { s with calls := update s.calls thread c }

def enqueue (s : EpochBuffers β) (b : Nat) (i : Fin 3) (batch : β) : EpochBuffers β :=
  { s.setBuffer i ((s.buffers i).setQueue b ((s.buffers i).perBroker b ++ [(s.pushed.length, batch)])) with
    pushed := s.pushed ++ [(s.pushed.length, batch)] }

def dequeue (s : EpochBuffers β) (i : Fin 3) (b : Nat) : EpochBuffers β :=
  { s.setBuffer i ((s.buffers i).setQueue b []) with
    extracted := s.extracted ++ (s.buffers i).perBroker b }

def sealCheck (s : EpochBuffers β) (thread : Nat) (expired : Bool) (i : Fin 3) (checked : Nat) :
    EpochBuffers β :=
  if numMaxBrokers ≤ checked then (s.setState i .sealed).setCall thread .idle
  else if (s.buffers i).brokerActive checked then
    if expired then (s.setState i .collecting).setCall thread .idle
    else s.setCall thread (.sealing i 0)
  else s.setCall thread (.sealing i (checked + 1))

def resetNext (s : EpochBuffers β) (thread : Nat) : BufferCall → Option (EpochBuffers β)
  | .clearing i cleared =>
    some (if numMaxBrokers ≤ cleared then s.setCall thread (.deactivating i 0)
      else (s.setBuffer i ((s.buffers i).setQueue cleared [])).setCall thread (.clearing i (cleared + 1)))
  | .deactivating i cleared =>
    some (if numMaxBrokers ≤ cleared then (s.setState i .collecting).setCall thread .idle
      else (s.setBuffer i ((s.buffers i).setActive cleared false)).setCall thread (.deactivating i (cleared + 1)))
  | _ => none

def extractNext (s : EpochBuffers β) : ExtractCall → Option (EpochBuffers β)
  | .idle => none
  | .checking i checked =>
    some { s with sequencer :=
      if numMaxBrokers ≤ checked then .moving i 0
      else if (s.buffers i).brokerActive checked then .idle
      else .checking i (checked + 1) }
  | .moving i moved =>
    some (if numMaxBrokers ≤ moved then { s.setState i .idle with sequencer := .idle }
      else { s.dequeue i moved with sequencer := .moving i (moved + 1) })

def step (s : EpochBuffers β) : BufferEvent β → Option (EpochBuffers β)
  | .enterCollection b i batch =>
    match s.collectors b with
    | .outside =>
      some (if b < numMaxBrokers ∧ (s.buffers i).state = .collecting then
        (s.setBuffer i ((s.buffers i).setActive b true)).setCollector b (.admitted i batch) else s)
    | _ => none
  | .push b =>
    match s.collectors b with
    | .admitted i batch => some ((s.enqueue b i batch).setCollector b (.pushed i))
    | _ => none
  | .exitCollection b =>
    match s.collectors b with
    | .pushed i =>
      some ((s.setBuffer i ((s.buffers i).setActive b false)).setCollector b .outside)
    | _ => none
  | .sealBegin thread i =>
    match s.calls thread with
    | .idle =>
      some (if (s.buffers i).state = .collecting then
        (s.setState i .sealing).setCall thread (.sealing i 0) else s)
    | _ => none
  | .sealCheck thread expired =>
    match s.calls thread with
    | .sealing i checked => some (s.sealCheck thread expired i checked)
    | _ => none
  | .resetBegin thread i =>
    match s.calls thread with
    | .idle =>
      some (if (s.buffers i).state = .idle then
        (s.setState i .resetting).setCall thread (.clearing i 0) else s)
    | _ => none
  | .resetNext thread => s.resetNext thread (s.calls thread)
  | .extractBegin i =>
    match s.sequencer with
    | .idle =>
      some (if (s.buffers i).state = .sealed then { s with sequencer := .checking i 0 } else s)
    | _ => none
  | .extractNext => s.extractNext s.sequencer

end EpochBuffers

namespace EpochBuffer5

variable {β : Type*} {B : EpochBuffer5 β} {b : Nat} {q : List β} {active : Bool}

structure Ok (B : EpochBuffer5 β) : Prop where
  quiet : B.state = .sealed → ∀ b, B.brokerActive b = false
  empty : B.state = .idle ∨ B.state = .resetting → ∀ b, B.brokerActive b = false ∧ B.perBroker b = []
  range : ∀ b, numMaxBrokers ≤ b → B.brokerActive b = false ∧ B.perBroker b = []

theorem Ok.open_of_active (h : B.Ok) (hb : B.brokerActive b = true) :
    b < numMaxBrokers ∧ B.state ≠ .sealed ∧ B.state ≠ .idle ∧ B.state ≠ .resetting := by
  refine ⟨?_, ?_, ?_, ?_⟩
  · apply Nat.lt_of_not_le
    intro hle
    exact Bool.false_ne_true ((h.range b hle).1.symm.trans hb)
  · intro hs
    exact Bool.false_ne_true ((h.quiet hs b).symm.trans hb)
  · intro hs
    exact Bool.false_ne_true ((h.empty (.inl hs) b).1.symm.trans hb)
  · intro hs
    exact Bool.false_ne_true ((h.empty (.inr hs) b).1.symm.trans hb)

theorem Ok.setState {state : BufferState} (h : B.Ok) (hquiet : state = .sealed → ∀ b, B.brokerActive b = false)
    (hempty : state = .idle ∨ state = .resetting → ∀ b, B.brokerActive b = false ∧ B.perBroker b = []) :
    (B.setState state).Ok :=
  ⟨hquiet, hempty, h.range⟩

theorem Ok.activate (h : B.Ok) (hb : b < numMaxBrokers) (hs : B.state = .collecting) :
    (B.setActive b true).Ok where
  quiet := fun hs' => nomatch hs.symm.trans hs'
  empty := fun hs' => hs'.elim (fun hs' => nomatch hs.symm.trans hs') fun hs' => nomatch hs.symm.trans hs'
  range := fun c hc =>
    ⟨(Function.update_of_ne (Nat.ne_of_gt (Nat.lt_of_lt_of_le hb hc)) _ _).trans (h.range c hc).1, (h.range c hc).2⟩

theorem deactivate_le (B : EpochBuffer5 β) (b c : Nat) (h : B.brokerActive c = false) :
    (B.setActive b false).brokerActive c = false := by
  by_cases hc : c = b
  · rw [hc]
    exact Function.update_self _ _ _
  · exact (Function.update_of_ne hc _ _).trans h

theorem Ok.deactivate (h : B.Ok) (b : Nat) : (B.setActive b false).Ok where
  quiet := fun hs c => B.deactivate_le b c (h.quiet hs c)
  empty := fun hs c => ⟨B.deactivate_le b c (h.empty hs c).1, (h.empty hs c).2⟩
  range := fun c hc => ⟨B.deactivate_le b c (h.range c hc).1, (h.range c hc).2⟩

theorem Ok.enqueue (h : B.Ok) (hb : B.brokerActive b = true) (q : List β) : (B.setQueue b q).Ok where
  quiet := h.quiet
  empty := fun hs => (hs.elim (h.open_of_active hb).2.2.1 (h.open_of_active hb).2.2.2).elim
  range := fun c hc => ⟨(h.range c hc).1, by
    have hne : c ≠ b := Nat.ne_of_gt (Nat.lt_of_lt_of_le (h.open_of_active hb).1 hc)
    exact (Function.update_of_ne hne _ _).trans (h.range c hc).2⟩

theorem setQueue_nil_le (B : EpochBuffer5 β) (b c : Nat) (h : B.perBroker c = []) :
    (B.setQueue b []).perBroker c = [] := by
  by_cases hc : c = b
  · rw [hc]
    exact Function.update_self _ _ _
  · exact (Function.update_of_ne hc _ _).trans h

theorem Ok.dequeue (h : B.Ok) (b : Nat) : (B.setQueue b []).Ok where
  quiet := h.quiet
  empty := fun hs c => ⟨(h.empty hs c).1, B.setQueue_nil_le b c (h.empty hs c).2⟩
  range := fun c hc => ⟨(h.range c hc).1, B.setQueue_nil_le b c (h.range c hc).2⟩

def copies [BEq β] (B : EpochBuffer5 β) (x : β) : Nat :=
  ∑ b ∈ Finset.range numMaxBrokers, (B.perBroker b).count x

theorem copies_setQueue [BEq β] (B : EpochBuffer5 β) (hb : b < numMaxBrokers) (q : List β)
    (x : β) : (B.setQueue b q).copies x + (B.perBroker b).count x = B.copies x + q.count x := by
  have hmem : b ∈ Finset.range numMaxBrokers := Finset.mem_range.mpr hb
  have hcount : ∀ c, ((B.setQueue b q).perBroker c).count x =
      update (fun c => (B.perBroker c).count x) b (q.count x) c :=
    Function.apply_update (fun _ q => q.count x) B.perBroker b q
  rw [copies, copies, Finset.sum_congr rfl fun c _ => hcount c, Finset.sum_update_of_mem hmem,
    ← Finset.add_sum_erase _ _ hmem, Finset.sdiff_singleton_eq_erase]
  omega

end EpochBuffer5

def CollectorCall.buffer {β : Type*} : CollectorCall β → Option (Fin 3)
  | .outside => none
  | .admitted i _ => some i
  | .pushed i => some i

namespace BufferCall

def buffer : BufferCall → Option (Fin 3)
  | .idle => none
  | .sealing i _ => some i
  | .clearing i _ => some i
  | .deactivating i _ => some i

def OkAt {β : Type*} (B : EpochBuffer5 β) : BufferCall → Prop
  | .idle => True
  | .sealing _ checked => B.state = .sealing ∧ ∀ b < checked, B.brokerActive b = false
  | .clearing _ _ => B.state = .resetting
  | .deactivating _ _ => B.state = .resetting

theorem OkAt.state {β : Type*} {B : EpochBuffer5 β} {c : BufferCall} {i : Fin 3} (h : c.OkAt B)
    (hi : c.buffer = some i) : B.state = .sealing ∨ B.state = .resetting := by
  cases c with
  | idle => cases hi
  | sealing j checked => exact .inl h.1
  | clearing j cleared => exact .inr h
  | deactivating j cleared => exact .inr h

theorem OkAt.deactivate {β : Type*} {B : EpochBuffer5 β} {c : BufferCall} (h : c.OkAt B) (b : Nat) :
    c.OkAt (B.setActive b false) := by
  cases c with
  | idle => trivial
  | sealing j checked => exact ⟨h.1, fun c hc => B.deactivate_le b c (h.2 c hc)⟩
  | clearing j cleared => exact h
  | deactivating j cleared => exact h

theorem OkAt.setQueue {β : Type*} {B : EpochBuffer5 β} {c : BufferCall} (h : c.OkAt B) (b : Nat)
    (q : List β) : c.OkAt (B.setQueue b q) := by
  cases c with
  | idle => trivial
  | sealing j checked => exact h
  | clearing j cleared => exact h
  | deactivating j cleared => exact h

end BufferCall

namespace ExtractCall

def buffer : ExtractCall → Option (Fin 3)
  | .idle => none
  | .checking i _ => some i
  | .moving i _ => some i

def OkAt {β : Type*} (B : EpochBuffer5 β) : ExtractCall → Prop
  | .idle => True
  | .checking _ _ => B.state = .sealed
  | .moving _ moved => B.state = .sealed ∧ ∀ b < moved, B.perBroker b = []

theorem OkAt.state {β : Type*} {B : EpochBuffer5 β} {c : ExtractCall} {i : Fin 3} (h : c.OkAt B)
    (hi : c.buffer = some i) : B.state = .sealed := by
  cases c with
  | idle => cases hi
  | checking j checked => exact h
  | moving j moved => exact h.1

end ExtractCall

namespace EpochBuffers

variable {β : Type*} [DecidableEq β] {s t : EpochBuffers β} {i : Fin 3} {b thread : Nat}

def copies (s : EpochBuffers β) (x : Nat × β) : Nat :=
  s.extracted.count x + ∑ i, (s.buffers i).copies x

structure Ok (s : EpochBuffers β) : Prop where
  buffers : ∀ i, (s.buffers i).Ok
  collectors : ∀ b i, (s.collectors b).buffer = some i → (s.buffers i).brokerActive b = true
  calls : ∀ thread i, (s.calls thread).buffer = some i → (s.calls thread).OkAt (s.buffers i)
  alone : ∀ thread other i, (s.calls thread).buffer = some i → (s.calls other).buffer = some i → thread = other
  sequencer : ∀ i, s.sequencer.buffer = some i → s.sequencer.OkAt (s.buffers i)
  tickets : s.pushed.map Prod.fst = List.range s.pushed.length
  copies : ∀ x, s.copies x = s.pushed.count x

theorem ok_start : Ok ({} : EpochBuffers β) where
  buffers := fun _ => ⟨nofun, fun _ _ => ⟨rfl, rfl⟩, fun _ _ => ⟨rfl, rfl⟩⟩
  collectors := nofun
  calls := nofun
  alone := nofun
  sequencer := nofun
  tickets := rfl
  copies := fun _ => by simp [EpochBuffers.copies, EpochBuffer5.copies]

omit [DecidableEq β] in
@[simp]
theorem buffers_setBuffer_self (s : EpochBuffers β) (i : Fin 3) (B : EpochBuffer5 (Nat × β)) :
    (s.setBuffer i B).buffers i = B :=
  Function.update_self _ _ _

theorem copies_setBuffer (s : EpochBuffers β) (i : Fin 3) (B : EpochBuffer5 (Nat × β)) (x : Nat × β) :
    (s.setBuffer i B).copies x + (s.buffers i).copies x = s.copies x + B.copies x := by
  have hmem : i ∈ Finset.univ := Finset.mem_univ i
  have hcount : ∀ j, (update s.buffers i B j).copies x = update (fun j => (s.buffers j).copies x) i (B.copies x) j :=
    Function.apply_update (fun _ B => B.copies x) s.buffers i B
  rw [copies, copies, setBuffer, Finset.sum_congr rfl fun j _ => hcount j,
    Finset.sum_update_of_mem hmem, ← Finset.add_sum_erase _ _ hmem, Finset.sdiff_singleton_eq_erase]
  dsimp only
  omega

theorem Ok.no_call (h : s.Ok) (h₁ : (s.buffers i).state ≠ .sealing) (h₂ : (s.buffers i).state ≠ .resetting)
    (thread : Nat) : (s.calls thread).buffer ≠ some i :=
  fun hi => ((h.calls thread i hi).state hi).elim h₁ h₂

theorem Ok.no_extract (h : s.Ok) (hs : (s.buffers i).state ≠ .sealed) : s.sequencer.buffer ≠ some i :=
  fun hi => hs ((h.sequencer i hi).state hi)

theorem Ok.setBuffer {B : EpochBuffer5 (Nat × β)} (h : s.Ok) (hB : B.Ok)
    (hcollectors : ∀ b, (s.collectors b).buffer = some i → B.brokerActive b = true)
    (hcalls : ∀ thread, (s.calls thread).buffer = some i → (s.calls thread).OkAt B)
    (hsequencer : s.sequencer.buffer = some i → s.sequencer.OkAt B)
    (hcopies : ∀ x, B.copies x = (s.buffers i).copies x) : (s.setBuffer i B).Ok where
  buffers := (Function.forall_update_iff _ fun _ => EpochBuffer5.Ok).mpr ⟨hB, fun j _ => h.buffers j⟩
  collectors := fun b => (Function.forall_update_iff _ fun j (B : EpochBuffer5 (Nat × β)) =>
    (s.collectors b).buffer = some j → B.brokerActive b = true).mpr
    ⟨hcollectors b, fun j _ => h.collectors b j⟩
  calls := fun thread => (Function.forall_update_iff _ fun j (B : EpochBuffer5 (Nat × β)) =>
    (s.calls thread).buffer = some j → (s.calls thread).OkAt B).mpr
    ⟨hcalls thread, fun j _ => h.calls thread j⟩
  alone := h.alone
  sequencer := (Function.forall_update_iff _ fun j (B : EpochBuffer5 (Nat × β)) =>
    s.sequencer.buffer = some j → s.sequencer.OkAt B).mpr
    ⟨hsequencer, fun j _ => h.sequencer j⟩
  tickets := h.tickets
  copies := by
    intro x
    have hset := s.copies_setBuffer i B x
    rw [hcopies] at hset
    exact (Nat.add_right_cancel hset).trans (h.copies x)

theorem Ok.setCollector {c : CollectorCall β} (h : s.Ok)
    (hc : ∀ i, c.buffer = some i → (s.buffers i).brokerActive b = true) : (s.setCollector b c).Ok :=
  { h with
    collectors := (Function.forall_update_iff _ fun b c =>
      ∀ i, CollectorCall.buffer c = some i → (s.buffers i).brokerActive b = true).mpr
      ⟨hc, fun b _ => h.collectors b⟩ }

variable {c : BufferCall} {batch : β}

theorem Ok.setCall (h : s.Ok)
    (hc : ∀ i, c.buffer = some i → c.OkAt (s.buffers i) ∧ ∀ other, other ≠ thread → (s.calls other).buffer ≠ some i) :
    (s.setCall thread c).Ok :=
  { h with
    calls := (Function.forall_update_iff _ fun _ c =>
      ∀ i, BufferCall.buffer c = some i → c.OkAt (s.buffers i)).mpr
      ⟨fun i hi => (hc i hi).1, fun other _ => h.calls other⟩
    alone := by
      have hother : ∀ other, other ≠ thread → ∀ i, c.buffer = some i →
          (s.calls other).buffer ≠ some i := fun other hne i hi => (hc i hi).2 other hne
      intro a a' i ha ha'
      simp only [EpochBuffers.setCall, Function.update_apply] at ha ha'
      split at ha <;> split at ha'
      · exact ‹a = thread›.trans ‹a' = thread›.symm
      · exact (hother a' ‹_› i ha ha').elim
      · exact (hother a ‹_› i ha' ha).elim
      · exact h.alone a a' i ha ha' }

theorem Ok.continue {c' : BufferCall} (h : s.Ok) (hcall : s.calls thread = c) (hi : c.buffer = some i)
    (hi' : c'.buffer = some i) (hc : c'.OkAt (s.buffers i)) : (s.setCall thread c').Ok := by
  apply h.setCall
  intro j hj
  cases hi'.symm.trans hj
  exact ⟨hc, fun other hne ho => hne (h.alone other thread i ho (hcall ▸ hi))⟩

theorem Ok.finish {state : BufferState} (h : s.Ok) (hcall : s.calls thread = c) (hi : c.buffer = some i)
    (hB : ((s.buffers i).setState state).Ok) : ((s.setState i state).setCall thread .idle).Ok := by
  have hstate := (h.calls thread i (hcall ▸ hi)).state (hcall ▸ hi)
  have hidle : (s.setCall thread .idle).Ok := h.setCall nofun
  -- the stores commute, and the thread leaves first
  refine hidle.setBuffer (i := i) hB (h.collectors · i) ?_ ?_ fun _ => rfl
  · intro other ho
    simp only [EpochBuffers.setCall, Function.update_apply] at ho
    split at ho
    · cases ho
    · exact absurd (h.alone other thread i ho (hcall ▸ hi)) ‹_›
  · intro hs
    have hsealed := (h.sequencer i hs).state hs
    rw [hsealed] at hstate
    exact hstate.elim nofun nofun

theorem Ok.enterCollection (h : s.Ok) (hb : b < numMaxBrokers) (hs : (s.buffers i).state = .collecting) :
    ((s.setBuffer i ((s.buffers i).setActive b true)).setCollector b (.admitted i batch)).Ok := by
  refine Ok.setCollector (h.setBuffer ((h.buffers i).activate hb hs) ?_ ?_ ?_ fun _ => rfl) ?_
  · intro c hc
    by_cases hcb : c = b
    · rw [hcb]
      exact Function.update_self _ _ _
    · exact (Function.update_of_ne hcb _ _).trans (h.collectors c i hc)
  · intro thread hi
    exact (h.no_call (by rw [hs]; nofun) (by rw [hs]; nofun) thread hi).elim
  · intro hi
    exact (h.no_extract (by rw [hs]; nofun) hi).elim
  · intro j hj
    cases hj
    rw [buffers_setBuffer_self]
    exact Function.update_self _ _ _

theorem Ok.enqueue (h : s.Ok) (hb : s.collectors b = .admitted i batch) : (s.enqueue b i batch).Ok := by
  have hactive := h.collectors b i (hb ▸ rfl)
  have hopen := (h.buffers i).open_of_active hactive
  exact {
    buffers := (Function.forall_update_iff _ fun _ => EpochBuffer5.Ok).mpr
      ⟨(h.buffers i).enqueue hactive _, fun j _ => h.buffers j⟩
    collectors := fun c => (Function.forall_update_iff _ fun j (B : EpochBuffer5 (Nat × β)) =>
      (s.collectors c).buffer = some j → B.brokerActive c = true).mpr
      ⟨h.collectors c i, fun j _ => h.collectors c j⟩
    calls := fun thread => (Function.forall_update_iff _ fun j (B : EpochBuffer5 (Nat × β)) =>
      (s.calls thread).buffer = some j → (s.calls thread).OkAt B).mpr
      ⟨fun hi => (h.calls thread i hi).setQueue b _, fun j _ => h.calls thread j⟩
    alone := h.alone
    sequencer := (Function.forall_update_iff _ fun j (B : EpochBuffer5 (Nat × β)) =>
      s.sequencer.buffer = some j → s.sequencer.OkAt B).mpr
      ⟨fun hi => (h.no_extract hopen.2.1 hi).elim, fun j _ => h.sequencer j⟩
    tickets := by
      simp [EpochBuffers.enqueue, h.tickets, List.range_succ]
    copies := by
      intro x
      have hset := s.copies_setBuffer i ((s.buffers i).setQueue b
        ((s.buffers i).perBroker b ++ [(s.pushed.length, batch)])) x
      have hqueue := (s.buffers i).copies_setQueue hopen.1 ((s.buffers i).perBroker b ++ [(s.pushed.length, batch)]) x
      have hcopies := h.copies x
      rw [List.count_append] at hqueue
      rw [EpochBuffers.enqueue, List.count_append]
      change (s.setBuffer i _).copies x = _
      omega }

theorem Ok.exitCollection (h : s.Ok) (hb : s.collectors b = .pushed i) :
    ((s.setBuffer i ((s.buffers i).setActive b false)).setCollector b .outside).Ok := by
  have houtside : (s.setCollector b .outside).Ok := h.setCollector nofun
  refine houtside.setBuffer (i := i) ((h.buffers i).deactivate b) ?_ ?_ ?_ fun _ => rfl
  · intro c hc
    simp only [EpochBuffers.setCollector, Function.update_apply] at hc
    split at hc
    · cases hc
    · exact (Function.update_of_ne ‹_› _ _).trans (h.collectors c i hc)
  · intro thread hi
    exact (h.calls thread i hi).deactivate b
  · intro hi
    have hactive := h.collectors b i (hb ▸ rfl)
    exact (h.no_extract ((h.buffers i).open_of_active hactive).2.1 hi).elim

theorem Ok.begin {state : BufferState} (h : s.Ok)
    (hidle : (s.buffers i).state = .collecting ∨ (s.buffers i).state = .idle) (hi : c.buffer = some i)
    (hB : ((s.buffers i).setState state).Ok) (hc : c.OkAt ((s.buffers i).setState state)) :
    ((s.setState i state).setCall thread c).Ok := by
  have hnone : ∀ other, (s.calls other).buffer ≠ some i := by
    apply h.no_call
    · intro hs
      exact hidle.elim (fun h => nomatch hs.symm.trans h) fun h => nomatch hs.symm.trans h
    · intro hs
      exact hidle.elim (fun h => nomatch hs.symm.trans h) fun h => nomatch hs.symm.trans h
  have hset : (s.setState i state).Ok := by
    refine h.setBuffer hB (h.collectors · i) (fun other ho => (hnone other ho).elim) ?_ fun _ => rfl
    intro hs
    apply (h.no_extract _ hs).elim
    intro hs
    exact hidle.elim (fun h => nomatch hs.symm.trans h) fun h => nomatch hs.symm.trans h
  apply hset.setCall
  intro j hj
  cases hi.symm.trans hj
  refine ⟨?_, fun other _ => hnone other⟩
  rw [EpochBuffers.setState, buffers_setBuffer_self]
  exact hc

theorem Ok.sealCheck {checked : Nat} (h : s.Ok) (hcall : s.calls thread = .sealing i checked)
    (expired : Bool) : (s.sealCheck thread expired i checked).Ok := by
  have hok := h.calls thread i (hcall ▸ rfl)
  rw [hcall] at hok
  rw [EpochBuffers.sealCheck]
  split
  next hall =>
    apply h.finish hcall rfl
    refine (h.buffers i).setState (fun _ b => ?_) nofun
    cases Nat.lt_or_ge b numMaxBrokers with
    | inl hlt => exact hok.2 b (Nat.lt_of_lt_of_le hlt hall)
    | inr hge => exact ((h.buffers i).range b hge).1
  · split
    · cases expired with
      | true => exact h.finish hcall rfl ((h.buffers i).setState nofun nofun)
      | false => exact h.continue hcall rfl rfl ⟨hok.1, nofun⟩
    next hflag =>
      refine h.continue hcall rfl rfl ⟨hok.1, fun b hb => ?_⟩
      cases Nat.lt_succ_iff_lt_or_eq.mp hb with
      | inl hlt => exact hok.2 b hlt
      | inr heq =>
        rw [heq]
        exact Bool.eq_false_of_not_eq_true hflag

theorem Ok.resetNext (h : s.Ok) (hcall : s.calls thread = c) (hstep : s.resetNext thread c = some t) : t.Ok := by
  have hok : ∀ i, c.buffer = some i → c.OkAt (s.buffers i) := hcall ▸ h.calls thread
  cases c with
  | idle => cases hstep
  | sealing i checked => cases hstep
  | clearing i cleared =>
    have hs : (s.buffers i).state = .resetting := hok i rfl
    cases hstep
    split
    · exact h.continue hcall rfl rfl hs
    next hlt =>
      have hclear : (s.setBuffer i ((s.buffers i).setQueue cleared [])).Ok := by
        refine h.setBuffer ((h.buffers i).dequeue cleared) (h.collectors · i) ?_ ?_ ?_
        · exact fun other ho => (h.calls other i ho).setQueue cleared []
        · exact fun hi => (h.no_extract (by rw [hs]; nofun) hi).elim
        · intro x
          have hqueue := (s.buffers i).copies_setQueue (Nat.lt_of_not_le hlt) [] x
          rw [((h.buffers i).empty (.inr hs) cleared).2] at hqueue
          exact Nat.add_right_cancel hqueue
      apply hclear.continue (i := i) hcall rfl rfl
      rw [buffers_setBuffer_self]
      exact hs
  | deactivating i cleared =>
    have hs : (s.buffers i).state = .resetting := hok i rfl
    cases hstep
    split
    · exact h.finish hcall rfl ((h.buffers i).setState nofun nofun)
    · have hclear : (s.setBuffer i ((s.buffers i).setActive cleared false)).Ok := by
        refine h.setBuffer ((h.buffers i).deactivate cleared) ?_ ?_ ?_ fun _ => rfl
        · exact fun b hb => (((h.buffers i).open_of_active (h.collectors b i hb)).2.2.2 hs).elim
        · exact fun other ho => (h.calls other i ho).deactivate cleared
        · exact fun hi => (h.no_extract (by rw [hs]; nofun) hi).elim
      apply hclear.continue (i := i) hcall rfl rfl
      rw [buffers_setBuffer_self]
      exact hs

theorem Ok.setSequencer {c : ExtractCall} (h : s.Ok)
    (hc : ∀ i, c.buffer = some i → c.OkAt (s.buffers i)) : Ok { s with sequencer := c } :=
  { h with sequencer := hc }

theorem Ok.dequeue (h : s.Ok) (hs : (s.buffers i).state = .sealed) (hb : b < numMaxBrokers)
    (hq : ∀ c < b, (s.buffers i).perBroker c = []) :
    Ok { s.dequeue i b with sequencer := .moving i (b + 1) } where
  buffers := (Function.forall_update_iff _ fun _ => EpochBuffer5.Ok).mpr
    ⟨(h.buffers i).dequeue b, fun j _ => h.buffers j⟩
  collectors := fun c => (Function.forall_update_iff _ fun j (B : EpochBuffer5 (Nat × β)) =>
    (s.collectors c).buffer = some j → B.brokerActive c = true).mpr
    ⟨h.collectors c i, fun j _ => h.collectors c j⟩
  calls := fun thread => (Function.forall_update_iff _ fun j (B : EpochBuffer5 (Nat × β)) =>
    (s.calls thread).buffer = some j → (s.calls thread).OkAt B).mpr
    ⟨fun hi => (h.calls thread i hi).setQueue b _, fun j _ => h.calls thread j⟩
  alone := h.alone
  sequencer := by
    intro j hj
    cases hj
    change ExtractCall.OkAt ((s.setBuffer i _).buffers i) _
    rw [buffers_setBuffer_self]
    refine ⟨hs, fun c hc => ?_⟩
    cases Nat.lt_succ_iff_lt_or_eq.mp hc with
    | inl hlt => exact (s.buffers i).setQueue_nil_le b c (hq c hlt)
    | inr heq =>
      rw [heq]
      exact Function.update_self _ _ _
  tickets := h.tickets
  copies := by
    intro x
    have hset := s.copies_setBuffer i ((s.buffers i).setQueue b []) x
    have hqueue := (s.buffers i).copies_setQueue hb [] x
    have hcopies := h.copies x
    rw [List.count_nil] at hqueue
    simp only [EpochBuffers.copies, EpochBuffers.setBuffer] at hset hcopies
    simp only [EpochBuffers.copies, EpochBuffers.dequeue, EpochBuffers.setBuffer, List.count_append]
    omega

theorem Ok.extractNext {c : ExtractCall} (h : s.Ok) (hcall : s.sequencer = c)
    (hstep : s.extractNext c = some t) : t.Ok := by
  have hok : ∀ i, c.buffer = some i → c.OkAt (s.buffers i) := hcall ▸ h.sequencer
  cases c with
  | idle => cases hstep
  | checking i checked =>
    have hs : (s.buffers i).state = .sealed := hok i rfl
    cases hstep
    apply h.setSequencer
    intro j hj
    split at hj
    next hall =>
      cases hj
      rw [if_pos hall]
      exact ⟨hs, nofun⟩
    next hmore =>
      rw [if_neg hmore]
      split at hj
      · cases hj
      next hflag =>
        cases hj
        rw [if_neg hflag]
        exact hs
  | moving i moved =>
    have hs : (s.buffers i).state = .sealed := (hok i rfl).1
    have hq : ∀ b < moved, (s.buffers i).perBroker b = [] := (hok i rfl).2
    cases hstep
    split
    next hall =>
      have hempty : ∀ b, (s.buffers i).perBroker b = [] := by
        intro b
        cases Nat.lt_or_ge b numMaxBrokers with
        | inl hlt => exact hq b (Nat.lt_of_lt_of_le hlt hall)
        | inr hge => exact ((h.buffers i).range b hge).2
      have hidle : Ok { s with sequencer := .idle } := h.setSequencer nofun
      refine hidle.setBuffer (i := i) ?_ (h.collectors · i) ?_ nofun fun _ => rfl
      · exact (h.buffers i).setState nofun fun _ b => ⟨(h.buffers i).quiet hs b, hempty b⟩
      · exact fun thread hi =>
          (h.no_call (by rw [hs]; nofun) (by rw [hs]; nofun) thread hi).elim
    · exact h.dequeue hs (Nat.lt_of_not_le ‹_›) hq

theorem Ok.step {e : BufferEvent β} (h : s.Ok) (hstep : s.step e = some t) : t.Ok := by
  cases e with
  | enterCollection b i batch =>
    rw [EpochBuffers.step] at hstep
    split at hstep
    · cases hstep
      split
      next hguard => exact h.enterCollection hguard.1 hguard.2
      · exact h
    · cases hstep
  | push b =>
    rw [EpochBuffers.step] at hstep
    split at hstep
    next i batch hb =>
      cases hstep
      apply (h.enqueue hb).setCollector
      intro j hj
      cases hj
      change ((s.setBuffer i _).buffers i).brokerActive b = true
      rw [buffers_setBuffer_self]
      exact h.collectors b i (hb ▸ rfl)
    · cases hstep
  | exitCollection b =>
    rw [EpochBuffers.step] at hstep
    split at hstep
    next i hb =>
      cases hstep
      exact h.exitCollection hb
    · cases hstep
  | sealBegin thread i =>
    rw [EpochBuffers.step] at hstep
    split at hstep
    · cases hstep
      split
      next hs => exact h.begin (.inl hs) rfl ((h.buffers i).setState nofun nofun) ⟨rfl, nofun⟩
      · exact h
    · cases hstep
  | sealCheck thread expired =>
    rw [EpochBuffers.step] at hstep
    split at hstep
    next i checked hcall =>
      cases hstep
      exact h.sealCheck hcall expired
    · cases hstep
  | resetBegin thread i =>
    rw [EpochBuffers.step] at hstep
    split at hstep
    · cases hstep
      split
      next hs =>
        exact h.begin (.inr hs) rfl ((h.buffers i).setState nofun fun _ => (h.buffers i).empty (.inl hs)) rfl
      · exact h
    · cases hstep
  | resetNext thread => exact h.resetNext rfl hstep
  | extractBegin i =>
    rw [EpochBuffers.step] at hstep
    split at hstep
    · cases hstep
      split
      next hs =>
        apply h.setSequencer
        intro j hj
        cases hj
        exact hs
      · exact h
    · cases hstep
  | extractNext => exact h.extractNext rfl hstep

theorem Ok.pushed_nodup (h : s.Ok) : s.pushed.Nodup :=
  List.Nodup.of_map Prod.fst (h.tickets ▸ List.nodup_range)

theorem Ok.no_collector (h : s.Ok) (hs : (s.buffers i).state = .sealed) (b : Nat) : (s.collectors b).buffer ≠ some i :=
  fun hi => Bool.false_ne_true (((h.buffers i).quiet hs b).symm.trans (h.collectors b i hi))

theorem Ok.reset_keeps (h : s.Ok) (hstep : s.step (.resetNext thread) = some t) (i : Fin 3)
    (b : Nat) : (t.buffers i).perBroker b = (s.buffers i).perBroker b := by
  rw [EpochBuffers.step] at hstep
  cases hcall : s.calls thread with
  | idle => rw [hcall] at hstep; cases hstep
  | sealing j checked => rw [hcall] at hstep; cases hstep
  | clearing j cleared =>
    have hs : (s.buffers j).state = .resetting := by
      have hok := h.calls thread j (hcall ▸ rfl)
      rwa [hcall] at hok
    have hempty : (s.buffers j).setQueue cleared [] = s.buffers j := by
      rw [EpochBuffer5.setQueue, ← ((h.buffers j).empty (.inr hs) cleared).2, Function.update_eq_self]
    rw [hcall] at hstep
    cases hstep
    split
    · rfl
    · rw [hempty, EpochBuffers.setBuffer, Function.update_eq_self]
      rfl
  | deactivating j cleared =>
    rw [hcall] at hstep
    cases hstep
    have hqueues : ∀ B : EpochBuffer5 (Nat × β), B.perBroker = (s.buffers j).perBroker →
        ((s.setBuffer j B).buffers i).perBroker b = (s.buffers i).perBroker b := by
      intro B hB
      by_cases hij : i = j
      · rw [hij, buffers_setBuffer_self, hB]
      · rw [EpochBuffers.setBuffer]
        dsimp only
        rw [Function.update_of_ne hij]
    split
    · exact hqueues _ rfl
    · exact hqueues _ rfl

end EpochBuffers

/-- In every interleaving of scanners, sealing and resetting threads and the sequencer: a pushed batch
is in exactly one place, a queue or what has been extracted, nobody collects into a sealed buffer, and
a buffer that is idle or being reset has empty queues, so that the reset discards nothing. -/
theorem epoch_buffers_hand_off {β : Type*} [DecidableEq β] (events : List (BufferEvent β))
    (s : EpochBuffers β) (hrun : Runs.Along EpochBuffers.step (fun _ _ => True) {} events s) :
    s.pushed.Nodup ∧ (∀ x ∈ s.pushed, s.copies x = 1) ∧ (∀ x, x ∉ s.pushed → s.copies x = 0) ∧
    (∀ i, (s.buffers i).state = .sealed →
      ∀ b, (s.buffers i).brokerActive b = false ∧ (s.collectors b).buffer ≠ some i) ∧
    (∀ i, (s.buffers i).state = .idle ∨ (s.buffers i).state = .resetting → ∀ b, (s.buffers i).perBroker b = []) ∧
    ∀ thread t, s.step (.resetNext thread) = some t →
      ∀ i b, (t.buffers i).perBroker b = (s.buffers i).perBroker b := by
  have h : s.Ok := hrun.invariant (fun _ _ _ _ hstep h => h.step hstep) EpochBuffers.ok_start
  refine ⟨h.pushed_nodup, ?_, ?_, ?_, ?_, fun thread t hstep => h.reset_keeps hstep⟩
  · intro x hx
    rw [h.copies, List.count_eq_one_of_mem h.pushed_nodup hx]
  · intro x hx
    rw [h.copies, List.count_eq_zero_of_not_mem hx]
  · exact fun i hs b => ⟨(h.buffers i).quiet hs b, h.no_collector hs b⟩
  · exact fun i hs b => ((h.buffers i).empty hs b).2

def rolledBackSeal : List (BufferEvent Char) :=
  List.flatten [[.resetBegin 0 0], List.replicate 66 (.resetNext 0),
    [.enterCollection 1 0 'a', .enterCollection 2 0 'b', .push 1, .exitCollection 1,
      .sealBegin 0 0, .enterCollection 1 0 'c', .sealCheck 0 false, .sealCheck 0 false,
      .sealCheck 0 true, .push 2, .exitCollection 2, .sealBegin 3 0],
    List.replicate 33 (.sealCheck 3 false), [.extractBegin 0], List.replicate 66 .extractNext,
    [.resetBegin 3 0], List.replicate 66 (.resetNext 3), [.enterCollection 1 0 'c', .push 1]]

theorem epoch_buffers_hand_off_rolledBackSeal :
    ∃ s, Runs.Along EpochBuffers.step (fun _ _ => True) {} rolledBackSeal s ∧
      s.pushed = [(0, 'a'), (1, 'b'), (2, 'c')] ∧ s.extracted = [(0, 'a'), (1, 'b')] ∧
      s.copies (0, 'a') = 1 := by
  have hrun := Runs.exists_along_of_exec (f := fun s : EpochBuffers Char => (s.pushed, s.extracted))
    (show (Runs.exec EpochBuffers.step (fun _ _ => True) {} rolledBackSeal).map _ =
      some ([(0, 'a'), (1, 'b'), (2, 'c')], [(0, 'a'), (1, 'b')]) by decide +kernel)
  cases hrun with
  | intro s hs =>
    have hpushed : s.pushed = [(0, 'a'), (1, 'b'), (2, 'c')] := congrArg Prod.fst hs.2
    have hextracted : s.extracted = [(0, 'a'), (1, 'b')] := congrArg Prod.snd hs.2
    have h := epoch_buffers_hand_off rolledBackSeal s hs.1
    exact ⟨s, hs.1, hpushed, hextracted, h.2.1 _ (by rw [hpushed]; exact List.mem_cons_self)⟩

end Embarcadero
