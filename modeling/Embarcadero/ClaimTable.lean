import Embarcadero.Topic
import Embarcadero.Lib.Probe
import Embarcadero.Lib.Runs

namespace Embarcadero

open Function (update)

namespace SessionStore

def settled (s : SessionStore) (seen : SessionEntry) : Bool :=
  match s with
  | .expectedSeq v => v ≤ seen.expectedSeq
  | .committedHwm v => v ≤ seen.committedHwm
  | .highestSequenced v => v ≤ seen.highestSequenced
  | .stateWord _ _ => seen.apply s == seen

def unchanged (s : SessionStore) (seen now : SessionEntry) : Bool :=
  match s with
  | .expectedSeq _ => now.expectedSeq == seen.expectedSeq
  | .committedHwm _ => now.committedHwm == seen.committedHwm
  | .highestSequenced _ => now.highestSequenced == seen.highestSequenced
  | .stateWord _ _ => now.active == seen.active && now.fenced == seen.fenced && now.epoch == seen.epoch

def exchanged (s : SessionStore) (seen now : SessionEntry) : SessionEntry :=
  match s with
  | .expectedSeq v => { now with expectedSeq := v }
  | .committedHwm v => { now with committedHwm := v }
  | .highestSequenced v => { now with highestSequenced := v }
  | .stateWord epoch fenced =>
    { now with active := true, fenced := seen.fenced || fenced, epoch := epoch }

end SessionStore

inductive TableGoal
  | findOrCreate
  | publish (snapshot : SessionPublishSnapshot)
  | lookup (claimed : Bool)
  deriving DecidableEq

inductive TableCall (κ : Type)
  | idle
  | probe (goal : TableGoal) (k : κ) (p : Nat)
  | claim (goal : TableGoal) (k : κ) (p : Nat)
  | store (i : Nat) (todo : List SessionStore)
  | exchange (i : Nat) (s : SessionStore) (todo : List SessionStore) (seen : SessionEntry)
  deriving DecidableEq

/-- `answers` and `lookups` are histories: what `FindOrClaimSession` and `FindSessionEntry` have
returned, a null pointer as `none`. -/
structure ClaimTable (κ : Type) where
  owner : Nat → Option κ := fun _ => none
  entry : Nat → SessionEntry := fun _ => {}
  calls : Nat → TableCall κ := fun _ => .idle
  answers : List (κ × Option Nat) := []
  lookups : List (κ × Bool × Option Nat) := []

inductive TableEvent (κ : Type)
  | call (thread : Nat) (k : κ) (goal : TableGoal)
  | probe (thread : Nat)
  | claim (thread : Nat)
  | load (thread : Nat)
  | exchange (thread : Nat) (spurious : Bool)
  deriving DecidableEq

def TableGoal.next {κ : Type} (r : Option Nat) : TableGoal → TableCall κ
  | .publish snapshot =>
    match r with
    | some j => .store j (SessionTable.publishStores snapshot)
    | none => .idle
  | _ => .idle

def TableGoal.skips : TableGoal → Bool
  | .publish snapshot => snapshot.sessionEpoch == 0
  | _ => false

namespace ClaimTable

section

variable {κ : Type}

def setCall (s : ClaimTable κ) (i : Nat) (c : TableCall κ) : ClaimTable κ :=
  { s with calls := update s.calls i c }

def answer (s : ClaimTable κ) (i : Nat) (goal : TableGoal) (k : κ) (r : Option Nat) :
    ClaimTable κ :=
  match goal with
  | .lookup claimed => { s.setCall i .idle with lookups := s.lookups ++ [(k, claimed, r)] }
  | goal => { s.setCall i (goal.next r) with answers := s.answers ++ [(k, r)] }

def passOver (s : ClaimTable κ) (i : Nat) (goal : TableGoal) (k : κ) (p : Nat) : ClaimTable κ :=
  s.setCall i (.probe goal k (p + 1))

def freeEntry (s : ClaimTable κ) (i : Nat) (goal : TableGoal) (k : κ) (p : Nat) : ClaimTable κ :=
  match goal with
  | .lookup claimed => s.answer i (.lookup claimed) k none
  | goal => s.setCall i (.claim goal k p)

variable [DecidableEq κ]

def probeOne {n : Nat} (start : κ → Fin n) (s : ClaimTable κ) (i : Nat) (goal : TableGoal) (k : κ)
    (p : Nat) : ClaimTable κ :=
  if n ≤ p then s.answer i goal k none
  else
    let j := Probe.place start k p
    match s.owner j with
    | some l => if l = k then s.answer i goal k (some j) else s.passOver i goal k p
    | none => s.freeEntry i goal k p

def claimOne {n : Nat} (start : κ → Fin n) (s : ClaimTable κ) (i : Nat) (goal : TableGoal) (k : κ)
    (p : Nat) : ClaimTable κ :=
  let j := Probe.place start k p
  match s.owner j with
  | none => answer { s with owner := update s.owner j (some k) } i goal k (some j)
  | some l => if l = k then s.answer i goal k (some j) else s.passOver i goal k p

def exchangeOne (s : ClaimTable κ) (i j : Nat) (st : SessionStore) (todo : List SessionStore)
    (seen : SessionEntry) (spurious : Bool) : ClaimTable κ :=
  if st.settled seen then s.setCall i (.store j todo)
  else if st.unchanged seen (s.entry j) ∧ ¬spurious then
    { s.setCall i (.store j todo) with
      entry := update s.entry j (st.exchanged seen (s.entry j)) }
  else s.setCall i (.exchange j st todo (s.entry j))

def goalAt (n : Nat) (s : ClaimTable κ) (k : κ) : TableGoal → TableGoal
  | .lookup _ => .lookup ((List.range n).any fun j => s.owner j = some k)
  | goal => goal

def step {n : Nat} (start : κ → Fin n) (s : ClaimTable κ) : TableEvent κ → Option (ClaimTable κ)
  | .call i k goal =>
    if s.calls i = .idle then
      some (if goal.skips then s else s.setCall i (.probe (s.goalAt n k goal) k 0))
    else none
  | .probe i =>
    match s.calls i with
    | .probe goal k p => some (s.probeOne start i goal k p)
    | _ => none
  | .claim i =>
    match s.calls i with
    | .claim goal k p => some (s.claimOne start i goal k p)
    | _ => none
  | .load i =>
    match s.calls i with
    | .store j (st :: todo) => some (s.setCall i (.exchange j st todo (s.entry j)))
    | .store _ [] => some (s.setCall i .idle)
    | _ => none
  | .exchange i spurious =>
    match s.calls i with
    | .exchange j st todo seen => some (s.exchangeOne i j st todo seen spurious)
    | _ => none

def lookupFrom {n : Nat} (start : κ → Fin n) (owner : Nat → Option κ) (k : κ) : Nat → Nat → Option Nat
  | 0, _ => none
  | fuel + 1, p =>
    match owner (Probe.place start k p) with
    | none => none
    | some l => if l = k then some (Probe.place start k p) else lookupFrom start owner k fuel (p + 1)

def findSessionEntry {n : Nat} (start : κ → Fin n) (s : ClaimTable κ) (k : κ) : Option Nat :=
  lookupFrom start s.owner k n 0

def readSessionEntrySnapshot {n : Nat} (start : κ → Fin n) (s : ClaimTable κ) (k : κ) :
    Option SessionEntry :=
  match s.findSessionEntry start k with
  | some j => if (s.entry j).active then some (s.entry j) else none
  | none => none

end

variable {κ : Type} {n : Nat} {start : κ → Fin n} {owner owner' : Nat → Option κ} {s t : ClaimTable κ}

def GoalOk (n : Nat) (owner : Nat → Option κ) (k : κ) : TableGoal → Prop
  | .lookup true => ∃ i < n, owner i = some k
  | _ => True

def CallOk (start : κ → Fin n) (owner : Nat → Option κ) : TableCall κ → Prop
  | .probe goal k p => p ≤ n ∧ Probe.Passed start owner k p ∧ GoalOk n owner k goal
  | .claim goal k p => p < n ∧ Probe.Passed start owner k p ∧ ∀ claimed, goal ≠ .lookup claimed
  | _ => True

def AnswerOk (n : Nat) (owner : Nat → Option κ) (k : κ) : Option Nat → Prop
  | some i => i < n ∧ owner i = some k
  | none => ∀ i < n, ∃ l, owner i = some l ∧ l ≠ k

def LookupOk (n : Nat) (owner : Nat → Option κ) (k : κ) (claimed : Bool) : Option Nat → Prop
  | some i => i < n ∧ owner i = some k
  | none => claimed = false

structure Ok (start : κ → Fin n) (s : ClaimTable κ) : Prop where
  placed : Probe.Placed start s.owner
  calls : ∀ i, CallOk start s.owner (s.calls i)
  answers : ∀ a ∈ s.answers, AnswerOk n s.owner a.1 a.2
  lookups : ∀ a ∈ s.lookups, LookupOk n s.owner a.1 a.2.1 a.2.2

theorem ok_start (start : κ → Fin n) : Ok start {} where
  placed := by
    intro i _ k hk
    cases hk
  calls := fun _ => trivial
  answers := by simp
  lookups := by simp

variable {i j p : Nat} {r : Option Nat} {e seen : SessionEntry} {st : SessionStore} {c : TableCall κ} {goal : TableGoal}
  {k l : κ}

theorem GoalOk.keeps (h : GoalOk n owner k goal) (hk : Probe.Keeps owner owner') : GoalOk n owner' k goal := by
  match goal, h with
  | .lookup true, ⟨i, hi, ho⟩ => exact ⟨i, hi, hk i k ho⟩
  | .lookup false, _ => trivial
  | .findOrCreate, _ => trivial
  | .publish _, _ => trivial

theorem CallOk.keeps (h : CallOk start owner c) (hk : Probe.Keeps owner owner') : CallOk start owner' c := by
  cases c with
  | idle => trivial
  | probe goal k p => exact ⟨h.1, h.2.1.keeps hk, h.2.2.keeps hk⟩
  | claim goal k p => exact ⟨h.1, h.2.1.keeps hk, h.2.2⟩
  | store i todo => trivial
  | exchange i st todo seen => trivial

theorem AnswerOk.keeps (h : AnswerOk n owner k r) (hk : Probe.Keeps owner owner') : AnswerOk n owner' k r := by
  cases r with
  | some i => exact ⟨h.1, hk i k h.2⟩
  | none =>
    intro i hi
    cases h i hi with
    | intro l hl => exact ⟨l, hk i l hl.1, hl.2⟩

theorem LookupOk.keeps {claimed : Bool} (h : LookupOk n owner k claimed r) (hk : Probe.Keeps owner owner') :
    LookupOk n owner' k claimed r := by
  cases r with
  | some i => exact ⟨h.1, hk i k h.2⟩
  | none => exact h

theorem Ok.setCall (h : Ok start s) (hc : CallOk start s.owner c) : Ok start (s.setCall i c) :=
  { h with
    calls := (Function.forall_update_iff _ fun _ c => CallOk start s.owner c).mpr ⟨hc, fun j _ => h.calls j⟩ }

theorem callOk_next (owner : Nat → Option κ) (r : Option Nat) (goal : TableGoal) :
    CallOk start owner (goal.next r) := by
  cases goal with
  | findOrCreate => trivial
  | publish snapshot =>
    cases r with
    | some j => trivial
    | none => trivial
  | lookup claimed => trivial

theorem Ok.addAnswer (h : Ok start s) (ha : AnswerOk n s.owner k r) :
    Ok start { s with answers := s.answers ++ [(k, r)] } :=
  { h with
    answers := by
      intro a hmem
      rcases List.mem_append.mp hmem with hmem | hmem
      · exact h.answers a hmem
      · rw [List.mem_singleton.mp hmem]
        exact ha }

theorem Ok.addLookup {claimed : Bool} (h : Ok start s) (ha : LookupOk n s.owner k claimed r) :
    Ok start { s with lookups := s.lookups ++ [(k, claimed, r)] } :=
  { h with
    lookups := by
      intro a hmem
      rcases List.mem_append.mp hmem with hmem | hmem
      · exact h.lookups a hmem
      · rw [List.mem_singleton.mp hmem]
        exact ha }

theorem Ok.answer (h : Ok start s) (hanswer : (∀ claimed, goal ≠ .lookup claimed) → AnswerOk n s.owner k r)
    (hlookup : ∀ claimed, goal = .lookup claimed → LookupOk n s.owner k claimed r) :
    Ok start (s.answer i goal k r) := by
  cases goal with
  | findOrCreate => exact (h.setCall (callOk_next _ r .findOrCreate)).addAnswer (hanswer (by simp))
  | publish snapshot =>
    exact (h.setCall (callOk_next _ r (.publish snapshot))).addAnswer (hanswer (by simp))
  | lookup claimed => exact (h.setCall (c := .idle) trivial).addLookup (hlookup claimed rfl)

theorem Ok.found (h : Ok start s) (hj : j < n) (ho : s.owner j = some k) : Ok start (s.answer i goal k (some j)) :=
  h.answer (fun _ => ⟨hj, ho⟩) fun _ _ => ⟨hj, ho⟩

theorem Ok.passOver (h : Ok start s) (hp : p < n) (hpassed : Probe.Passed start s.owner k p)
    (hgoal : GoalOk n s.owner k goal) (ho : s.owner (Probe.place start k p) = some l) (hne : l ≠ k) :
    Ok start (s.passOver i goal k p) :=
  h.setCall ⟨hp, hpassed.succ ho hne, hgoal⟩

theorem Ok.claimed {p : Nat} {k : κ} (h : Ok start s) (hp : p < n)
    (hpassed : Probe.Passed start s.owner k p) (hempty : s.owner (Probe.place start k p) = none) :
    Ok start { s with owner := update s.owner (Probe.place start k p) (some k) } where
  placed := h.placed.claim hp hpassed hempty
  calls := fun i => (h.calls i).keeps (Probe.keeps_claim hempty)
  answers := fun a ha => (h.answers a ha).keeps (Probe.keeps_claim hempty)
  lookups := fun a ha => (h.lookups a ha).keeps (Probe.keeps_claim hempty)

theorem Ok.freeEntry (h : Ok start s) (hp : p < n) (hpassed : Probe.Passed start s.owner k p)
    (hgoal : GoalOk n s.owner k goal) (hempty : s.owner (Probe.place start k p) = none) :
    Ok start (s.freeEntry i goal k p) := by
  cases goal with
  | findOrCreate => exact h.setCall ⟨hp, hpassed, by simp⟩
  | publish snapshot => exact h.setCall ⟨hp, hpassed, by simp⟩
  | lookup claimed =>
    rw [ClaimTable.freeEntry]
    apply h.answer
    · exact fun hne => absurd rfl (hne claimed)
    · intro claimed' heq
      cases heq
      cases claimed with
      | false => rfl
      | true =>
        cases hgoal with
        | intro j hj => exact absurd hj.2 (h.placed.absent hpassed hempty hj.1)

theorem goalOk_of_ne_lookup (h : ∀ claimed, goal ≠ .lookup claimed) : GoalOk n owner k goal := by
  cases goal with
  | findOrCreate => trivial
  | publish snapshot => trivial
  | lookup claimed => exact absurd rfl (h claimed)

theorem Ok.exchangeOne {todo : List SessionStore} {spurious : Bool} (h : Ok start s) :
    Ok start (s.exchangeOne i j st todo seen spurious) := by
  rw [ClaimTable.exchangeOne]
  split
  · exact h.setCall trivial
  · split
    · exact { h.setCall (i := i) (c := .store j todo) trivial with }
    · exact h.setCall trivial

theorem Ok.call (h : Ok start s) (hgoal : GoalOk n s.owner k goal) : Ok start (s.setCall i (.probe goal k 0)) :=
  h.setCall ⟨Nat.zero_le n, Probe.passed_zero, hgoal⟩

structure EntryGrows (e e' : SessionEntry) : Prop where
  expectedSeq : e.expectedSeq ≤ e'.expectedSeq
  committedHwm : e.committedHwm ≤ e'.committedHwm
  highestSequenced : e.highestSequenced ≤ e'.highestSequenced
  fenced : e.fenced = true → e'.fenced = true

theorem EntryGrows.refl (e : SessionEntry) : EntryGrows e e :=
  ⟨Nat.le_refl _, Nat.le_refl _, Nat.le_refl _, id⟩

theorem EntryGrows.trans {e' e'' : SessionEntry} (h : EntryGrows e e') (h' : EntryGrows e' e'') : EntryGrows e e'' :=
  ⟨Nat.le_trans h.expectedSeq h'.expectedSeq, Nat.le_trans h.committedHwm h'.committedHwm,
    Nat.le_trans h.highestSequenced h'.highestSequenced, fun hf => h'.fenced (h.fenced hf)⟩

theorem entryGrows_exchanged {now : SessionEntry} (hsettled : ¬st.settled seen) (hsame : st.unchanged seen now) :
    EntryGrows now (st.exchanged seen now) := by
  have hrefl := EntryGrows.refl now
  cases st with
  | expectedSeq v =>
    simp only [SessionStore.settled, SessionStore.unchanged, decide_eq_true_eq, beq_iff_eq] at hsettled hsame
    exact { hrefl with expectedSeq := by dsimp only [SessionStore.exchanged]; omega }
  | committedHwm v =>
    simp only [SessionStore.settled, SessionStore.unchanged, decide_eq_true_eq, beq_iff_eq] at hsettled hsame
    exact { hrefl with committedHwm := by dsimp only [SessionStore.exchanged]; omega }
  | highestSequenced v =>
    simp only [SessionStore.settled, SessionStore.unchanged, decide_eq_true_eq, beq_iff_eq] at hsettled hsame
    exact { hrefl with highestSequenced := by dsimp only [SessionStore.exchanged]; omega }
  | stateWord epoch fenced =>
    simp only [SessionStore.unchanged, Bool.and_eq_true, beq_iff_eq] at hsame
    refine { hrefl with fenced := ?_ }
    intro hf
    rw [hsame.1.2] at hf
    simp [SessionStore.exchanged, hf]

structure Grows (s t : ClaimTable κ) : Prop where
  owner : Probe.Keeps s.owner t.owner
  entry : ∀ i, EntryGrows (s.entry i) (t.entry i)

theorem Grows.refl (s : ClaimTable κ) : Grows s s := ⟨fun _ _ h => h, fun _ => .refl _⟩

theorem Grows.trans {u : ClaimTable κ} (h : Grows s t) (h' : Grows t u) : Grows s u :=
  ⟨fun i k hk => h'.owner i k (h.owner i k hk), fun i => (h.entry i).trans (h'.entry i)⟩

theorem Grows.of_eq (howner : t.owner = s.owner) (hentry : t.entry = s.entry) : Grows s t :=
  ⟨fun _ _ h => howner ▸ h, fun _ => hentry ▸ .refl _⟩

theorem grows_answer (s : ClaimTable κ) (i : Nat) (goal : TableGoal) (k : κ) (r : Option Nat) :
    Grows s (s.answer i goal k r) := by
  cases goal with
  | findOrCreate => exact .of_eq rfl rfl
  | publish snapshot => exact .of_eq rfl rfl
  | lookup claimed => exact .of_eq rfl rfl

theorem grows_freeEntry (s : ClaimTable κ) (i : Nat) (goal : TableGoal) (k : κ) (p : Nat) :
    Grows s (s.freeEntry i goal k p) := by
  cases goal with
  | findOrCreate => exact .of_eq rfl rfl
  | publish snapshot => exact .of_eq rfl rfl
  | lookup claimed => exact .of_eq rfl rfl

theorem grows_exchangeOne (s : ClaimTable κ) (i j : Nat) (st : SessionStore) (todo : List SessionStore)
    (seen : SessionEntry) (spurious : Bool) : Grows s (s.exchangeOne i j st todo seen spurious) := by
  rw [exchangeOne]
  split
  · exact .of_eq rfl rfl
  · split
    next hsettled hcas =>
      refine ⟨fun _ _ h => h, ?_⟩
      exact (Function.forall_update_iff s.entry fun l e => EntryGrows (s.entry l) e).mpr
        ⟨entryGrows_exchanged hsettled hcas.1, fun l _ => .refl _⟩
    · exact .of_eq rfl rfl

theorem Ok.answers_agree (h : Ok start s) (hi : (k, some i) ∈ s.answers) (hj : (l, some j) ∈ s.answers) :
    k = l ↔ i = j := by
  have hi' : i < n ∧ s.owner i = some k := h.answers _ hi
  have hj' : j < n ∧ s.owner j = some l := h.answers _ hj
  constructor
  · intro heq
    exact h.placed.unique hi'.1 hj'.1 hi'.2 (heq ▸ hj'.2)
  · intro heq
    exact Option.some.inj (hi'.2.symm.trans (heq ▸ hj'.2))

variable [DecidableEq κ]

theorem Ok.probeOne (h : Ok start s) (hc : CallOk start s.owner (.probe goal k p)) :
    Ok start (s.probeOne start i goal k p) := by
  rw [ClaimTable.probeOne]
  split
  next hend =>
    have hall : Probe.Passed start s.owner k n := Nat.le_antisymm hc.1 hend ▸ hc.2.1
    apply h.answer
    · exact fun _ j hj => hall.all hj
    · intro claimed hgoal
      rw [hgoal] at hc
      cases claimed with
      | false => rfl
      | true =>
        cases hc.2.2 with
        | intro j hj =>
          cases hall.all hj.1 with
          | intro l hl =>
            rw [hj.2] at hl
            exact absurd (Option.some.inj hl.1).symm hl.2
  next hlt =>
    have hlt := Nat.lt_of_not_le hlt
    dsimp only
    split
    next l ho =>
      split
      next heq => exact h.found (Probe.place_lt start k p) (heq ▸ ho)
      · exact h.passOver hlt hc.2.1 hc.2.2 ho ‹_›
    · exact h.freeEntry hlt hc.2.1 hc.2.2 ‹_›

theorem Ok.claimOne (h : Ok start s) (hc : CallOk start s.owner (.claim goal k p)) :
    Ok start (s.claimOne start i goal k p) := by
  rw [ClaimTable.claimOne]
  split
  next hempty =>
    apply (h.claimed hc.1 hc.2.1 hempty).found (Probe.place_lt start k p)
    exact Function.update_self ..
  next l ho =>
    split
    next heq => exact h.found (Probe.place_lt start k p) (heq ▸ ho)
    · exact h.passOver hc.1 hc.2.1 (goalOk_of_ne_lookup hc.2.2) ho ‹_›

theorem goalOk_goalAt (s : ClaimTable κ) (k : κ) (goal : TableGoal) : GoalOk n s.owner k (s.goalAt n k goal) := by
  cases goal with
  | findOrCreate => trivial
  | publish snapshot => trivial
  | lookup claimed =>
    rw [goalAt]
    cases hclaimed : (List.range n).any fun j => s.owner j = some k with
    | false => trivial
    | true =>
      rw [List.any_eq_true] at hclaimed
      cases hclaimed with
      | intro j hj => exact ⟨j, List.mem_range.mp hj.1, of_decide_eq_true hj.2⟩

theorem grows_probeOne (s : ClaimTable κ) (i : Nat) (goal : TableGoal) (k : κ) (p : Nat) :
    Grows s (s.probeOne start i goal k p) := by
  rw [probeOne]
  split
  · exact grows_answer ..
  · dsimp only
    split
    · split
      · exact grows_answer ..
      · exact .of_eq rfl rfl
    · exact grows_freeEntry ..

theorem grows_claimOne (s : ClaimTable κ) (i : Nat) (goal : TableGoal) (k : κ) (p : Nat) :
    Grows s (s.claimOne start i goal k p) := by
  rw [claimOne]
  split
  next hempty =>
    have hclaim : Grows s { s with owner := update s.owner (Probe.place start k p) (some k) } :=
      ⟨Probe.keeps_claim hempty, fun _ => .refl _⟩
    exact hclaim.trans (grows_answer ..)
  · split
    · exact grows_answer ..
    · exact .of_eq rfl rfl

theorem Ok.step {e : TableEvent κ} (h : Ok start s) (hstep : s.step start e = some t) : Ok start t ∧ Grows s t := by
  cases e with
  | call i k goal =>
    obtain ⟨-, rfl⟩ := Runs.of_guard hstep
    split
    · exact ⟨h, .refl s⟩
    · exact ⟨h.call (goalOk_goalAt s k goal), .of_eq rfl rfl⟩
  | probe i =>
    have hi := h.calls i
    rw [ClaimTable.step] at hstep
    split at hstep
    next goal k p hcall =>
      rw [hcall] at hi
      cases hstep
      exact ⟨h.probeOne hi, grows_probeOne s i goal k p⟩
    · cases hstep
  | claim i =>
    have hi := h.calls i
    rw [ClaimTable.step] at hstep
    split at hstep
    next goal k p hcall =>
      rw [hcall] at hi
      cases hstep
      exact ⟨h.claimOne hi, grows_claimOne s i goal k p⟩
    · cases hstep
  | load i =>
    rw [ClaimTable.step] at hstep
    split at hstep
    · cases hstep
      exact ⟨h.setCall trivial, .of_eq rfl rfl⟩
    · cases hstep
      exact ⟨h.setCall trivial, .of_eq rfl rfl⟩
    · cases hstep
  | exchange i spurious =>
    rw [ClaimTable.step] at hstep
    split at hstep
    · cases hstep
      exact ⟨h.exchangeOne, grows_exchangeOne ..⟩
    · cases hstep

theorem Ok.run {events : List (TableEvent κ)} (h : Ok start s)
    (hrun : Runs.Along (ClaimTable.step start) (fun _ _ => True) s events t) : Ok start t ∧ Grows s t :=
  ⟨hrun.invariant (fun _ _ _ _ hstep h => (h.step hstep).1) h,
    hrun.relation (I := Ok start) (fun _ _ _ _ hstep h => (h.step hstep).1)
      (fun _ _ _ _ hstep h => (h.step hstep).2) .refl (fun _ _ _ => .trans) h⟩

theorem lookupFrom_eq_some (h : Probe.Placed start owner) (fuel : Nat) :
    ∀ p, p + fuel = n → Probe.Passed start owner k p →
      (lookupFrom start owner k fuel p = some i ↔ i < n ∧ owner i = some k) := by
  induction fuel with
  | zero =>
    intro p hp hpassed
    rw [Nat.add_zero] at hp
    constructor
    · exact fun heq => absurd heq (by simp [lookupFrom])
    · intro hi
      cases (hp ▸ hpassed).all hi.1 with
      | intro l hl =>
        rw [hi.2] at hl
        exact absurd (Option.some.inj hl.1).symm hl.2
  | succ fuel ih =>
    intro p hp hpassed
    rw [lookupFrom]
    split
    next hempty =>
      constructor
      · exact fun heq => absurd heq (by simp)
      · exact fun hi => absurd hi.2 (h.absent hpassed hempty hi.1)
    next l ho =>
      split
      next heq =>
        have hlt := Probe.place_lt start k p
        constructor
        · intro hsome
          cases hsome
          exact ⟨hlt, heq ▸ ho⟩
        · intro hi
          rw [h.unique hi.1 hlt hi.2 (heq ▸ ho)]
      · exact ih (p + 1) (by omega) (hpassed.succ ho ‹_›)

theorem Ok.findSessionEntry_eq_some (h : Ok start s) :
    s.findSessionEntry start k = some i ↔ i < n ∧ s.owner i = some k :=
  lookupFrom_eq_some h.placed n 0 (Nat.zero_add n) Probe.passed_zero

theorem Ok.readSessionEntrySnapshot_eq_some (h : Ok start s) :
    s.readSessionEntrySnapshot start k = some e ↔
      ∃ i < n, s.owner i = some k ∧ (s.entry i).active = true ∧ s.entry i = e := by
  rw [readSessionEntrySnapshot]
  cases hfind : s.findSessionEntry start k with
  | some j =>
    have hj := h.findSessionEntry_eq_some.mp hfind
    dsimp only
    constructor
    · intro heq
      split at heq
      · exact ⟨j, hj.1, hj.2, ‹_›, Option.some.inj heq⟩
      · cases heq
    · rintro ⟨i, hi, ho, hactive, he⟩
      rw [h.placed.unique hj.1 hi hj.2 ho, if_pos hactive, he]
  | none =>
    constructor
    · intro heq
      cases heq
    · rintro ⟨i, hi, ho, -⟩
      rw [h.findSessionEntry_eq_some.mpr ⟨hi, ho⟩] at hfind
      cases hfind

end ClaimTable

/-- In every interleaving the table is a map: a key owns one entry, every caller gets the entry of
its key, null means that all entries belong to other keys, and a lookup finds exactly the claimed
keys.  Whatever happens later, owners stay, counters grow and fences hold. -/
theorem session_table_faithful {κ : Type} [DecidableEq κ] {n : Nat} (start : κ → Fin n) (events : List (TableEvent κ))
    (s : ClaimTable κ) (hrun : Runs.Along (ClaimTable.step start) (fun _ _ => True) {} events s) :
    (∀ k, ∀ i < n, ∀ j < n, s.owner i = some k → s.owner j = some k → i = j) ∧
    (∀ k i, (k, some i) ∈ s.answers → i < n ∧ s.owner i = some k) ∧
    (∀ k l i j, (k, some i) ∈ s.answers → (l, some j) ∈ s.answers → (k = l ↔ i = j)) ∧
    (∀ k, (k, none) ∈ s.answers → ∀ i < n, ∃ l, s.owner i = some l ∧ l ≠ k) ∧
    (∀ k i, s.findSessionEntry start k = some i ↔ i < n ∧ s.owner i = some k) ∧
    (∀ k e, s.readSessionEntrySnapshot start k = some e ↔
      ∃ i < n, s.owner i = some k ∧ (s.entry i).active = true ∧ s.entry i = e) ∧
    (∀ k claimed i, (k, claimed, some i) ∈ s.lookups → i < n ∧ s.owner i = some k) ∧
    (∀ k, (k, true, none) ∉ s.lookups) ∧
    (∀ later t, Runs.Along (ClaimTable.step start) (fun _ _ => True) s later t →
      (∀ i k, s.owner i = some k → t.owner i = some k) ∧ ∀ i, ClaimTable.EntryGrows (s.entry i) (t.entry i)) := by
  have h := ((ClaimTable.ok_start start).run hrun).1
  refine ⟨fun k i hi j hj => h.placed.unique hi hj, fun k i hmem => h.answers _ hmem,
    fun k l i j => h.answers_agree, fun k hmem => h.answers _ hmem,
    fun k i => h.findSessionEntry_eq_some, fun k e => h.readSessionEntrySnapshot_eq_some,
    fun k claimed i hmem => h.lookups _ hmem, ?_, ?_⟩
  · intro k hmem
    exact Bool.noConfusion (show true = false from h.lookups _ hmem)
  · intro later t hlater
    have hgrows := (h.run hlater).2
    exact ⟨hgrows.owner, hgrows.entry⟩

def racingClaims : List (TableEvent Nat) :=
  [.call 0 7 .findOrCreate, .call 1 7 (.publish ⟨1, 4, 3, 3, false⟩), .probe 0, .probe 1, .claim 0,
    .claim 1, .load 1, .exchange 1 true, .exchange 1 false, .call 2 9 .findOrCreate, .probe 2,
    .probe 2, .claim 2, .call 3 11 .findOrCreate, .probe 3, .probe 3, .probe 3, .call 0 7 (.lookup false), .probe 0]

theorem session_table_faithful_racingClaims :
    ∃ s, Runs.Along (ClaimTable.step fun k : Nat => (⟨k % 2, Nat.mod_lt k (by decide)⟩ : Fin 2))
        (fun _ _ => True) {} racingClaims s ∧
      s.answers = [(7, some 1), (7, some 1), (9, some 0), (11, none)] ∧
      s.lookups = [(7, true, some 1)] ∧ ∀ k, (k, true, none) ∉ s.lookups := by
  have hrun := Runs.exists_along_of_exec (f := fun s : ClaimTable Nat => (s.answers, s.lookups))
    (show (Runs.exec (ClaimTable.step fun k : Nat => (⟨k % 2, Nat.mod_lt k (by decide)⟩ : Fin 2))
      (fun _ _ => True) {} racingClaims).map _ =
      some ([(7, some 1), (7, some 1), (9, some 0), (11, none)], [(7, true, some 1)])
      by decide +kernel)
  cases hrun with
  | intro s hs =>
    have h := session_table_faithful _ racingClaims s hs.1
    exact ⟨s, hs.1, congrArg Prod.fst hs.2, congrArg Prod.snd hs.2, h.2.2.2.2.2.2.2.1⟩

end Embarcadero
