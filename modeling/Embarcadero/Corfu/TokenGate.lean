import Embarcadero.Lib.Runs

namespace Embarcadero.Corfu

open Function (update)
open List

structure AcquireResult where
  acquired : Bool
  abortTransition : Bool
  nextTicket : Nat
  abortReason : String

structure TokenGate where
  nextTicket : Nat := 0
  turnHeld : Bool := false
  heldTicket : Nat := 0
  aborted : Bool := false
  abortTransitions : Nat := 0
  abortReason : String := ""

namespace TokenGate

def abortLocked (g : TokenGate) (reason : String) : Bool × TokenGate :=
  if g.aborted then (false, g)
  else (true, { g with aborted := true, abortReason := reason, abortTransitions := g.abortTransitions + 1 })

def refuse (g : TokenGate) (transition : Bool) : AcquireResult := ⟨false, transition, g.nextTicket, g.abortReason⟩

def acquireTurn (g : TokenGate) (shutdown : Bool) (ticket : Nat) (transition : Bool) :
    TokenGate × Bool × Option AcquireResult :=
  let a := if shutdown then g.abortLocked "publisher shutdown while waiting for Corfu token turn" else (false, g)
  let transition := transition || a.1
  let g := a.2
  if g.aborted then (g, transition, some (g.refuse transition))
  else if ticket < g.nextTicket then
    let a := g.abortLocked "Corfu seal ticket re-entered after completion"
    (a.2, transition || a.1, some (a.2.refuse (transition || a.1)))
  else if g.nextTicket = ticket then
    if g.turnHeld then
      let a := g.abortLocked "duplicate Corfu seal ticket entered while turn held"
      (a.2, transition || a.1, some (a.2.refuse (transition || a.1)))
    else ({ g with turnHeld := true, heldTicket := ticket }, transition, some ⟨true, transition, g.nextTicket, ""⟩)
  else (g, transition, none)

def complete (g : TokenGate) (shutdown : Bool) (ticket : Nat) : Bool × TokenGate :=
  if shutdown then (false, (g.abortLocked "publisher shutdown while completing Corfu token turn").2)
  else if g.aborted then (false, g)
  else if ¬g.turnHeld ∨ g.heldTicket ≠ ticket ∨ g.nextTicket ≠ ticket then
    (false, (g.abortLocked "Corfu token turn completion mismatch").2)
  else (true, { g with turnHeld := false, nextTicket := ticket + 1 })

def admitPayload (g : TokenGate) (shutdown : Bool) : Bool × TokenGate :=
  let g := if shutdown then (g.abortLocked "publisher shutdown before Corfu payload admission").2 else g
  (!g.aborted, g)

end TokenGate

inductive GateReturn
  | acquire (ticket : Nat) (result : AcquireResult)
  | complete (ticket : Nat) (completed : Bool)
  | admitPayload (admitted : Bool)
  | abort (transitioned : Bool)

structure GateRun where
  gate : TokenGate := {}
  shutdown : Bool := false
  /-- The ticket and the `abort_transition` of a thread that is in `Acquire`. -/
  acquiring : Nat → Option (Nat × Bool) := fun _ => none
  returns : List GateReturn := []

inductive GateEvent
  | enter (thread ticket : Nat)
  | turn (thread : Nat)
  | complete (ticket : Nat)
  | admitPayload
  | abort (reason : String)
  | shutdown

def GateRun.step (s : GateRun) : GateEvent → Option GateRun
  | .enter i ticket =>
    if (s.acquiring i).isNone then some { s with acquiring := update s.acquiring i (some (ticket, false)) } else none
  | .turn i => (s.acquiring i).map fun (ticket, transition) =>
    match s.gate.acquireTurn s.shutdown ticket transition with
    | (gate, transition, none) => { s with gate, acquiring := update s.acquiring i (some (ticket, transition)) }
    | (gate, _, some r) =>
      { s with gate, acquiring := update s.acquiring i none, returns := s.returns ++ [.acquire ticket r] }
  | .complete ticket =>
    let r := s.gate.complete s.shutdown ticket
    some { s with gate := r.2, returns := s.returns ++ [.complete ticket r.1] }
  | .admitPayload =>
    let r := s.gate.admitPayload s.shutdown
    some { s with gate := r.2, returns := s.returns ++ [.admitPayload r.1] }
  | .abort reason =>
    let r := s.gate.abortLocked reason
    some { s with gate := r.2, returns := s.returns ++ [.abort r.1] }
  | .shutdown => some { s with shutdown := true }

namespace GateReturn

def granted? : GateReturn → Option Nat
  | .acquire ticket r => if r.acquired then some ticket else none
  | _ => none

def completed? : GateReturn → Option Nat
  | .complete ticket true => some ticket
  | _ => none

def succeeds : GateReturn → Bool
  | .acquire _ r => r.acquired
  | .complete _ ok => ok
  | .admitPayload ok => ok
  | .abort _ => false

def transitions : GateReturn → Bool
  | .acquire _ r => r.abortTransition
  | .abort transitioned => transitioned
  | _ => false

end GateReturn

inductive TokenGate.Acts (g : TokenGate) : GateReturn → TokenGate → Prop
  | fails {r : GateReturn} : g.aborted = true → r.succeeds = false → r.transitions = false → Acts g r g
  | aborts {r : GateReturn} (reason : String) : g.aborted = false → r.succeeds = false →
      Acts g r { g with aborted := true, abortReason := reason, abortTransitions := g.abortTransitions + 1 }
  | grants (a : AcquireResult) : g.aborted = false → g.turnHeld = false → a.acquired = true →
      a.abortTransition = false →
        Acts g (.acquire g.nextTicket a) { g with turnHeld := true, heldTicket := g.nextTicket }
  | completes : g.aborted = false → g.turnHeld = true → Acts g (.complete g.nextTicket true)
      { g with turnHeld := false, nextTicket := g.nextTicket + 1 }
  | admits : g.aborted = false → Acts g (.admitPayload true) g

namespace TokenGate

variable {g : TokenGate} {r : GateReturn}

theorem aborted_abortLocked (reason : String) : (g.abortLocked reason).2.aborted = true := by
  rw [abortLocked]
  split
  · assumption
  · rfl

theorem acts_abortLocked (reason : String) (hr : r.succeeds = false)
    (ht : r.transitions = true → (g.abortLocked reason).1 = true) : g.Acts r (g.abortLocked reason).2 := by
  rw [abortLocked] at ht ⊢
  split
  next h =>
    rw [if_pos h] at ht
    exact .fails h hr (Bool.eq_false_iff.mpr fun h => absurd (ht h) nofun)
  next h => exact .aborts reason (Bool.eq_false_iff.mpr h) hr

theorem acts_complete (shutdown : Bool) (ticket : Nat) :
    g.Acts (.complete ticket (g.complete shutdown ticket).1) (g.complete shutdown ticket).2 := by
  unfold complete
  split
  · exact acts_abortLocked _ rfl nofun
  split
  next h => exact .fails h rfl rfl
  next h =>
    split
    · exact acts_abortLocked _ rfl nofun
    next hmatch =>
      obtain ⟨hheld, -, rfl⟩ : g.turnHeld = true ∧ g.heldTicket = ticket ∧ g.nextTicket = ticket := by
        simpa using hmatch
      exact .completes (Bool.eq_false_iff.mpr h) hheld

theorem acts_admitPayload (shutdown : Bool) :
    g.Acts (.admitPayload (g.admitPayload shutdown).1) (g.admitPayload shutdown).2 := by
  unfold admitPayload
  cases hs : shutdown with
  | true =>
    simp only [↓reduceIte, aborted_abortLocked]
    exact acts_abortLocked _ rfl nofun
  | false =>
    cases h : g.aborted with
    | true => simpa [h] using Acts.fails (r := .admitPayload false) h rfl rfl
    | false => simpa [h] using Acts.admits h

theorem acquireTurn_cases (shutdown : Bool) (ticket : Nat) :
    g.acquireTurn shutdown ticket false = (g, false, none) ∨
      ∃ g' x a, g.acquireTurn shutdown ticket false = (g', x, some a) ∧ g.Acts (.acquire ticket a) g' := by
  have hrefuse : ∀ reason, g.Acts (.acquire ticket ((g.abortLocked reason).2.refuse (g.abortLocked reason).1))
      (g.abortLocked reason).2 := fun _ => acts_abortLocked _ rfl id
  unfold acquireTurn
  cases shutdown with
  | true =>
    simp only [↓reduceIte, Bool.false_or, aborted_abortLocked]
    exact .inr ⟨_, _, _, rfl, hrefuse _⟩
  | false =>
    simp only [Bool.false_eq_true, ↓reduceIte, Bool.false_or]
    split
    next h => exact .inr ⟨_, _, _, rfl, .fails h rfl rfl⟩
    next h =>
      split
      · exact .inr ⟨_, _, _, rfl, hrefuse _⟩
      split
      next heq =>
        subst heq
        split
        · exact .inr ⟨_, _, _, rfl, hrefuse _⟩
        next hheld =>
          exact .inr ⟨_, _, _, rfl, .grants _ (Bool.eq_false_iff.mpr h) (Bool.eq_false_iff.mpr hheld) rfl rfl⟩
      · exact .inl rfl

end TokenGate

theorem GateReturn.of_fails {r : GateReturn} (h : r.succeeds = false) : r.granted? = none ∧ r.completed? = none := by
  cases r with
  | acquire ticket a => exact ⟨if_neg (Bool.eq_false_iff.mp h), rfl⟩
  | complete ticket ok =>
    cases h
    exact ⟨rfl, rfl⟩
  | admitPayload | abort => exact ⟨rfl, rfl⟩

namespace GateRun

variable {s s' : GateRun}

structure Ok (s : GateRun) : Prop where
  /-- The tickets completed so far, in order; of the granted ones at most the next is not completed yet. -/
  completed : s.returns.filterMap GateReturn.completed? = range s.gate.nextTicket
  granted : s.returns.filterMap GateReturn.granted? = range (s.gate.nextTicket + if s.gate.turnHeld then 1 else 0)
  held : s.gate.turnHeld = true → s.gate.heldTicket = s.gate.nextTicket
  transitions : s.gate.abortTransitions = if s.gate.aborted then 1 else 0
  reported : (s.returns.filter GateReturn.transitions).length ≤ s.gate.abortTransitions
  acquiring : ∀ i x, s.acquiring i = some x → x.2 = false

theorem step_cases {e : GateEvent} (h : ∀ i x, s.acquiring i = some x → x.2 = false) (hstep : s.step e = some s') :
    (s'.gate = s.gate ∧ s'.returns = s.returns ∨ ∃ r, s'.returns = s.returns ++ [r] ∧ s.gate.Acts r s'.gate) ∧
      ∀ i x, s'.acquiring i = some x → x.2 = false := by
  have hupdate : ∀ i y, y.2 = false → ∀ j x, update s.acquiring i (some y) j = some x → x.2 = false := by
    intro i y hy j x hx
    rw [Function.update_apply] at hx
    split at hx
    · cases hx
      exact hy
    · exact h j x hx
  cases e with
  | enter i ticket =>
    obtain ⟨-, rfl⟩ := Runs.of_guard hstep
    exact ⟨.inl ⟨rfl, rfl⟩, hupdate i _ rfl⟩
  | turn i =>
    obtain ⟨⟨ticket, x⟩, hi, rfl⟩ := Option.map_eq_some_iff.mp hstep
    cases (h i _ hi : x = false)
    dsimp only
    rcases s.gate.acquireTurn_cases s.shutdown ticket with hwait | ⟨g', x, a, hreturn, hacts⟩
    · rw [hwait]
      exact ⟨.inl ⟨rfl, rfl⟩, hupdate i _ rfl⟩
    · rw [hreturn]
      refine ⟨.inr ⟨_, rfl, hacts⟩, fun j x hx => ?_⟩
      dsimp only at hx
      rw [Function.update_apply] at hx
      split at hx
      · cases hx
      · exact h j x hx
  | complete ticket =>
    cases hstep
    exact ⟨.inr ⟨_, rfl, TokenGate.acts_complete _ _⟩, h⟩
  | admitPayload =>
    cases hstep
    exact ⟨.inr ⟨_, rfl, TokenGate.acts_admitPayload _⟩, h⟩
  | abort reason =>
    cases hstep
    exact ⟨.inr ⟨_, rfl, TokenGate.acts_abortLocked reason rfl id⟩, h⟩
  | shutdown =>
    cases hstep
    exact ⟨.inl ⟨rfl, rfl⟩, h⟩

theorem Ok.step {e : GateEvent} (h : s.Ok) (hstep : s.step e = some s') : s'.Ok := by
  obtain ⟨⟨hgate, hreturns⟩ | ⟨r, hreturns, hacts⟩, hacquiring⟩ := step_cases h.acquiring hstep
  · refine ⟨?_, ?_, ?_, ?_, ?_, hacquiring⟩ <;> rw [hgate] <;> (try rw [hreturns])
    exacts [h.completed, h.granted, h.held, h.transitions, h.reported]
  obtain ⟨gate, _, _, _⟩ := s'
  dsimp only at hreturns hacts hacquiring
  subst hreturns
  have htransitions := h.transitions
  have hreported := h.reported
  cases hacts with
  | fails hab hfail ht =>
    obtain ⟨hg, hc⟩ := GateReturn.of_fails hfail
    exact ⟨by simp [hc, h.completed], by simp [hg, h.granted], h.held, htransitions, by simpa [ht] using hreported,
      hacquiring⟩
  | aborts reason hab hfail =>
    obtain ⟨hg, hc⟩ := GateReturn.of_fails hfail
    rw [hab] at htransitions
    refine ⟨by simp [hc, h.completed], by simp [hg, h.granted], h.held, by simp [htransitions], ?_, hacquiring⟩
    rw [filter_append, length_append]
    exact Nat.add_le_add hreported (length_filter_le _ _)
  | grants a hab hheld ha ht =>
    have hgranted := h.granted
    rw [hheld] at hgranted
    exact ⟨by simp [GateReturn.completed?, h.completed], by simp [GateReturn.granted?, ha, hgranted, range_succ],
      fun _ => rfl, htransitions, by simpa [GateReturn.transitions, ht] using hreported, hacquiring⟩
  | completes hab hheld =>
    have hgranted := h.granted
    rw [hheld] at hgranted
    exact ⟨by simp [GateReturn.completed?, h.completed, range_succ], by simp [GateReturn.granted?, hgranted], nofun,
      htransitions, by simpa [GateReturn.transitions] using hreported, hacquiring⟩
  | admits hab =>
    exact ⟨by simp [GateReturn.completed?, h.completed], by simp [GateReturn.granted?, h.granted], h.held, htransitions,
      by simpa [GateReturn.transitions] using hreported, hacquiring⟩

theorem frozen_step {e : GateEvent} (h : s.Ok) (haborted : s.gate.aborted = true) (hstep : s.step e = some s') :
    s'.gate = s.gate ∧ s'.returns.filter GateReturn.succeeds = s.returns.filter GateReturn.succeeds := by
  obtain ⟨⟨hgate, hreturns⟩ | ⟨r, hreturns, hacts⟩, -⟩ := step_cases h.acquiring hstep
  · rw [hgate, hreturns]
    exact ⟨rfl, rfl⟩
  · obtain ⟨gate, _, _, _⟩ := s'
    dsimp only at hreturns hacts ⊢
    subst hreturns
    cases hacts with
    | fails _ hfail => exact ⟨rfl, by simp [hfail]⟩
    | _ => simp_all

theorem token_gate_terminal {es : List GateEvent} (hrun : Runs.Along step (fun _ _ => True) {} es s) :
    s.Ok ∧ (s.gate.aborted = true → ∀ es' t, Runs.Along step (fun _ _ => True) s es' t →
      t.gate = s.gate ∧ t.returns.filter GateReturn.succeeds = s.returns.filter GateReturn.succeeds) := by
  have h : s.Ok := hrun.invariant (fun _ _ _ _ hstep h => h.step hstep) ⟨rfl, rfl, nofun, rfl, Nat.le_refl _, nofun⟩
  refine ⟨h, fun haborted es' t hrest => ?_⟩
  refine (hrest.invariant (I := fun t => t.Ok ∧ t.gate = s.gate ∧
    t.returns.filter GateReturn.succeeds = s.returns.filter GateReturn.succeeds) ?_ ⟨h, rfl, rfl⟩).2
  rintro t e t' - hstep ⟨hok, hgate, hreturns⟩
  obtain ⟨hgate', hreturns'⟩ := frozen_step hok (hgate ▸ haborted) hstep
  exact ⟨hok.step hstep, hgate'.trans hgate, hreturns'.trans hreturns⟩

theorem token_gate_terminal_mismatch : ∃ s, Runs.Along step (fun _ _ => True) {}
    [.enter 1 1, .enter 0 0, .turn 1, .turn 0, .complete 0, .turn 1, .admitPayload, .complete 3, .complete 1] s ∧
    (s.gate.nextTicket, s.gate.turnHeld, s.gate.abortReason) = (1, true, "Corfu token turn completion mismatch") ∧
    s.Ok :=
  Runs.exists_of_exec (fun s => (s.gate.nextTicket, s.gate.turnHeld, s.gate.abortReason)) _ (by decide +kernel)
    fun _ hrun hs => ⟨hs, (token_gate_terminal hrun).1⟩

end GateRun

end Embarcadero.Corfu
