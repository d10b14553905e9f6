import Embarcadero.Lib.Runs
import Embarcadero.Lib.StampedRing

namespace Embarcadero

open Function (update)

inductive Order0Field
  | logIdx
  | startLogicalOffset
  | totalSize
  | numMsg
  | clientId
  | headerVersion
  deriving DecidableEq

abbrev Order0Batch := Order0Field → Nat

structure Order0Slot where
  sequence : Nat := 0
  field : Order0Batch := fun _ => 0

structure Order0Ring where
  writeCursor : Nat := 0
  slot : Nat → Order0Slot := fun _ => {}
  writing : Nat → Option (List Order0Field) := fun _ => none
  readCursor : Nat → Nat
  copying : Nat → Option (List Order0Field × Order0Batch) := fun _ => none
  pushed : Nat → Order0Batch := fun _ _ => 0
  returned : List (Nat × Order0Batch) := []

inductive Order0Event
  | push (batch : Order0Batch)
  | store (cursor : Nat)
  | load (reader : Nat)
  | copy (reader : Nat)

namespace Order0Ring

def stores : List Order0Field := [.logIdx, .startLogicalOffset, .totalSize, .numMsg, .clientId, .headerVersion]

def loads : List Order0Field := [.logIdx, .totalSize, .numMsg, .headerVersion]

def pushOrder0Batch (s : Order0Ring) (batch : Order0Batch) : Order0Ring :=
  { s with
    writeCursor := s.writeCursor + 1
    writing := update s.writing s.writeCursor (some stores)
    pushed := update s.pushed s.writeCursor batch }

def setSlot (s : Order0Ring) (i : Nat) (slot : Order0Slot) : Order0Ring := { s with slot := update s.slot i slot }

def store (n : Nat) (s : Order0Ring) (c : Nat) : List Order0Field → Order0Ring
  | [] => { s.setSlot (c % n) { s.slot (c % n) with sequence := c + 1 } with writing := update s.writing c none }
  | f :: todo =>
    { s.setSlot (c % n) { s.slot (c % n) with field := update (s.slot (c % n)).field f (s.pushed c f) } with
      writing := update s.writing c (some todo) }

def load (n : Nat) (s : Order0Ring) (r : Nat) : Order0Ring :=
  let seq := (s.slot (s.readCursor r % n)).sequence
  if seq ≠ s.readCursor r + 1 then
    if s.readCursor r + 1 < seq then { s with readCursor := update s.readCursor r (seq - 1) } else s
  else { s with copying := update s.copying r (some (loads, fun _ => 0)) }

def copy (n : Nat) (s : Order0Ring) (r : Nat) (f : Order0Field) (todo : List Order0Field) (got : Order0Batch) :
    Order0Ring :=
  let got := update got f ((s.slot (s.readCursor r % n)).field f)
  if todo = [] then
    { s with
      copying := update s.copying r none
      readCursor := update s.readCursor r (s.readCursor r + 1)
      returned := s.returned ++ [(s.readCursor r, got)] }
  else { s with copying := update s.copying r (some (todo, got)) }

def step (n : Nat) (s : Order0Ring) : Order0Event → Option Order0Ring
  | .push batch => some (s.pushOrder0Batch batch)
  | .store c => (s.writing c).map (s.store n c)
  | .load r => if (s.copying r).isNone then some (s.load n r) else none
  | .copy r =>
    match s.copying r with
    | some (f :: todo, got) => some (s.copy n r f todo got)
    | _ => none

def Unlapped (n : Nat) (s : Order0Ring) : Order0Event → Prop
  | .push _ => n ≤ s.writeCursor → s.writing (s.writeCursor - n) = none
  | .copy r => s.writeCursor ≤ s.readCursor r + n
  | _ => True

instance (n : Nat) (s : Order0Ring) : (e : Order0Event) → Decidable (s.Unlapped n e)
  | .push _ => inferInstanceAs (Decidable (_ → _))
  | .copy _ => inferInstanceAs (Decidable (_ ≤ _))
  | .store _ | .load _ => isTrue trivial

def Last (n : Nat) (s : Order0Ring) (c : Nat) : Prop := c < s.writeCursor ∧ s.writeCursor ≤ c + n

structure Ok (n : Nat) (s : Order0Ring) : Prop where
  last : ∀ c, s.writing c ≠ none → s.Last n c
  written : ∀ c, s.Last n c → s.writing c = none → s.slot (c % n) = ⟨c + 1, s.pushed c⟩
  partly : ∀ c todo, s.writing c = some todo →
    (s.slot (c % n)).sequence ≤ c ∧ ∀ f ∉ todo, (s.slot (c % n)).field f = s.pushed c f
  stamped : ∀ i, (s.slot i).sequence ≤ s.writeCursor
  copied : ∀ r todo got, s.copying r = some (todo, got) → s.writeCursor ≤ s.readCursor r + n →
    s.readCursor r < s.writeCursor ∧ s.writing (s.readCursor r) = none ∧
      ∀ f ∈ loads, f ∉ todo → got f = s.pushed (s.readCursor r) f
  returned : ∀ x ∈ s.returned, x.1 < s.writeCursor ∧ ∀ f ∈ loads, x.2 f = s.pushed x.1 f

variable {n : Nat} {s s' : Order0Ring} {c d : Nat} {todo : List Order0Field}

theorem mem_stores (f : Order0Field) : f ∈ stores := by cases f <;> decide

theorem Last.eq_of_slot (hc : s.Last n c) (hd : s.Last n d) (h : c % n = d % n) : c = d := by
  rcases Nat.lt_trichotomy c d with hlt | heq | hlt
  · exact absurd h (StampedRing.apart hlt (hd.1.trans_le hc.2))
  · exact heq
  · exact absurd h.symm (StampedRing.apart hlt (hc.1.trans_le hd.2))

theorem ok_fresh (n : Nat) (readCursor : Nat → Nat) : Ok n { readCursor := readCursor } :=
  ⟨fun _ h => absurd rfl h, fun _ h => absurd h.1 (Nat.not_lt_zero _), nofun, fun _ => Nat.le_refl 0, nofun, nofun⟩

theorem Ok.push (h : s.Ok n) (hn : 0 < n) {batch : Order0Batch} (hk : s.Unlapped n (.push batch)) :
    (s.pushOrder0Batch batch).Ok n := by
  have hold : ∀ c < s.writeCursor, (s.pushOrder0Batch batch).writing c = s.writing c ∧
      (s.pushOrder0Batch batch).pushed c = s.pushed c :=
    fun c hc => ⟨Function.update_of_ne (Nat.ne_of_lt hc) .., Function.update_of_ne (Nat.ne_of_lt hc) ..⟩
  have hcases : ∀ c, (s.pushOrder0Batch batch).Last n c → c = s.writeCursor ∨ s.Last n c := by
    intro c hc
    rcases Nat.lt_or_eq_of_le (Nat.le_of_lt_succ hc.1) with hlt | heq
    · exact .inr ⟨hlt, Nat.le_of_succ_le hc.2⟩
    · exact .inl heq
  have hnew : (s.pushOrder0Batch batch).writing s.writeCursor = some stores := Function.update_self ..
  refine ⟨fun c hc => ?_, fun c hc hdone => ?_, fun c todo hc => ?_, fun i => (h.stamped i).trans (Nat.le_succ _),
    fun r todo got hr hlap => ?_, fun x hx => ?_⟩
  · by_cases heq : c = s.writeCursor
    · rw [heq]
      exact ⟨Nat.lt_succ_self _, Nat.add_le_add_left hn _⟩
    · -- the push one lap before has completed
      have hw : s.writing c ≠ none := fun hnone => hc ((Function.update_of_ne heq ..).trans hnone)
      obtain ⟨hlt, hlap⟩ := h.last c hw
      refine ⟨Nat.lt_succ_of_lt hlt, Nat.lt_of_le_of_ne hlap fun hfull => hw ?_⟩
      rw [← hk (by omega), hfull, Nat.add_sub_cancel]
  · rcases hcases c hc with heq | hlast
    · rw [heq, hnew] at hdone
      cases hdone
    · obtain ⟨hw, hp⟩ := hold c hlast.1
      rw [hp]
      exact h.written c hlast (hw ▸ hdone)
  · by_cases heq : c = s.writeCursor
    · rw [heq, hnew] at hc
      cases hc
      exact ⟨heq ▸ h.stamped _, fun f hf => absurd (mem_stores f) hf⟩
    · have hw : s.writing c = some todo := (Function.update_of_ne heq ..).symm.trans hc
      rw [(hold c (h.last c (by simp [hw])).1).2]
      exact h.partly c todo hw
  · obtain ⟨hlt, hw, hgot⟩ := h.copied r todo got hr (Nat.le_of_succ_le hlap)
    obtain ⟨hw', hp⟩ := hold _ hlt
    exact ⟨Nat.lt_succ_of_lt hlt, hw'.trans hw, fun f hf hdone => (hgot f hf hdone).trans (congrFun hp f).symm⟩
  · obtain ⟨hlt, hgot⟩ := h.returned x hx
    exact ⟨Nat.lt_succ_of_lt hlt, fun f hf => (hgot f hf).trans (congrFun (hold _ hlt).2 f).symm⟩

theorem Ok.setSlot (h : s.Ok n) (hc : s.writing c ≠ none) {w : Option (List Order0Field)} {slot : Order0Slot}
    (hall : w = none → slot = ⟨c + 1, s.pushed c⟩)
    (hpart : ∀ todo, w = some todo → slot.sequence ≤ c ∧ ∀ f ∉ todo, slot.field f = s.pushed c f) :
    { s.setSlot (c % n) slot with writing := update s.writing c w }.Ok n := by
  have hlast := h.last c hc
  have hself : update s.slot (c % n) slot (c % n) = slot := Function.update_self ..
  have hother : ∀ d, d ≠ c → s.Last n d → update s.slot (c % n) slot (d % n) = s.slot (d % n) :=
    fun d hne hd => Function.update_of_ne (fun heq => hne (hd.eq_of_slot hlast heq)) ..
  have hwself : update s.writing c w c = w := Function.update_self ..
  have hw : ∀ d, d ≠ c → update s.writing c w d = s.writing d := fun d hne => Function.update_of_ne hne ..
  refine ⟨fun d hd => ?_, fun d hd hdone => ?_, fun d todo hd => ?_, fun i => ?_, fun r todo got hr hlap => ?_,
    h.returned⟩
  · by_cases heq : d = c
    · exact heq ▸ hlast
    · exact h.last d (hw d heq ▸ hd)
  · by_cases heq : d = c
    · subst heq
      exact hself.trans (hall (hwself.symm.trans hdone))
    · exact (hother d heq hd).trans (h.written d hd ((hw d heq).symm.trans hdone))
  · change (update s.slot (c % n) slot _).sequence ≤ d ∧ ∀ f ∉ todo, (update s.slot (c % n) slot _).field f = _
    by_cases heq : d = c
    · subst heq
      rw [hself]
      exact hpart todo (hwself.symm.trans hd)
    · have hd : s.writing d = some todo := (hw d heq).symm.trans hd
      rw [hother d heq (h.last d (by simp [hd]))]
      exact h.partly d todo hd
  · change (update s.slot (c % n) slot i).sequence ≤ _
    rw [Function.update_apply]
    split
    · cases w with
      | none => exact (hall rfl) ▸ hlast.1
      | some todo => exact (hpart todo rfl).1.trans (Nat.le_of_lt hlast.1)
    · exact h.stamped i
  · obtain ⟨hlt, hdone, hgot⟩ := h.copied r todo got hr hlap
    exact ⟨hlt, (hw _ fun heq => hc (heq ▸ hdone)).trans hdone, hgot⟩

theorem Ok.store (h : s.Ok n) (hc : s.writing c = some todo) : (s.store n c todo).Ok n := by
  obtain ⟨hseq, hfields⟩ := h.partly c todo hc
  have hwriting : s.writing c ≠ none := by simp [hc]
  cases todo with
  | nil =>
    exact h.setSlot hwriting (fun _ => congrArg (Order0Slot.mk _) (funext fun f => hfields f List.not_mem_nil)) nofun
  | cons f todo =>
    refine h.setSlot hwriting nofun fun _ htodo => ?_
    cases htodo
    refine ⟨hseq, fun g hg => ?_⟩
    by_cases hgf : g = f
    · exact hgf ▸ Function.update_self ..
    · exact (Function.update_of_ne hgf ..).trans (hfields g (by simp [hgf, hg]))

theorem Ok.load (h : s.Ok n) {r : Nat} (hr : (s.copying r).isNone) : (s.load n r).Ok n := by
  rw [Order0Ring.load]
  split
  · split
    · refine { h with copied := fun q todo got hq => ?_ }
      have hne : q ≠ r := by
        rintro rfl
        rw [Option.isNone_iff_eq_none.mp hr] at hq
        cases hq
      dsimp only at hq ⊢
      rw [Function.update_of_ne hne]
      exact h.copied q todo got hq
    · exact h
  next hseq =>
    refine { h with copied := fun q todo got hq hlap => ?_ }
    by_cases heq : q = r
    · subst heq
      cases (Function.update_self ..).symm.trans hq
      have hseq := Decidable.not_not.mp hseq
      have hlt : s.readCursor q < s.writeCursor := hseq.ge.trans (h.stamped _)
      refine ⟨hlt, ?_, fun f hf hnot => absurd hf hnot⟩
      cases hw : s.writing (s.readCursor q) with
      | none => rfl
      | some todo =>
        -- the stamp is the last store of a push
        have hle := (h.partly _ todo hw).1
        omega
    · exact h.copied q todo got ((Function.update_of_ne heq ..).symm.trans hq) hlap

theorem Ok.copy (h : s.Ok n) {r : Nat} {f : Order0Field} {got : Order0Batch} (hr : s.copying r = some (f :: todo, got))
    (hlap : s.writeCursor ≤ s.readCursor r + n) : (s.copy n r f todo got).Ok n := by
  obtain ⟨hlt, hdone, hgot⟩ := h.copied r _ got hr hlap
  have hslot := h.written _ ⟨hlt, hlap⟩ hdone
  have hmore : ∀ g ∈ loads, g ∉ todo →
      update got f ((s.slot (s.readCursor r % n)).field f) g = s.pushed (s.readCursor r) g := by
    intro g hg hnot
    rw [hslot]
    by_cases heq : g = f
    · exact heq ▸ Function.update_self ..
    · exact (Function.update_of_ne heq ..).trans (hgot g hg (by simp [heq, hnot]))
  rw [Order0Ring.copy]
  split
  next hnil =>
    refine { h with copied := fun q todo got hq => ?_, returned := fun x hx => ?_ }
    · have hne : q ≠ r := by
        rintro rfl
        cases (Function.update_self ..).symm.trans hq
      dsimp only at hq ⊢
      rw [Function.update_of_ne hne] at hq ⊢
      exact h.copied q todo got hq
    · cases List.mem_append.mp hx with
      | inl hold => exact h.returned x hold
      | inr hnew =>
        cases List.mem_singleton.mp hnew
        exact ⟨hlt, fun g hg => hmore g hg (by simp [hnil])⟩
  · refine { h with copied := fun q todo' got' hq hlap => ?_ }
    by_cases heq : q = r
    · subst heq
      cases (Function.update_self ..).symm.trans hq
      exact ⟨hlt, hdone, hmore⟩
    · exact h.copied q todo' got' ((Function.update_of_ne heq ..).symm.trans hq) hlap

theorem Ok.step {e : Order0Event} (h : s.Ok n) (hn : 0 < n) (hk : s.Unlapped n e) (hstep : s.step n e = some s') :
    s'.Ok n := by
  cases e with
  | push batch =>
    cases hstep
    exact h.push hn hk
  | store c =>
    obtain ⟨todo, hc, rfl⟩ := Option.map_eq_some_iff.mp hstep
    exact h.store hc
  | load r =>
    obtain ⟨hr, rfl⟩ := Runs.of_guard hstep
    exact h.load hr
  | copy r =>
    rw [Order0Ring.step] at hstep
    split at hstep
    next f todo got hr =>
      cases hstep
      exact h.copy hr hk
    · cases hstep

theorem readCursor_step {e : Order0Event} (hstep : s.step n e = some s') (r : Nat) :
    s.readCursor r ≤ s'.readCursor r := by
  have hupdate : ∀ q v, s.readCursor q ≤ v → s.readCursor r ≤ update s.readCursor q v r := by
    intro q v hv
    rw [Function.update_apply]
    split
    next heq => exact heq ▸ hv
    · exact Nat.le_refl _
  cases e with
  | push batch =>
    cases hstep
    exact Nat.le_refl _
  | store c =>
    obtain ⟨todo, -, rfl⟩ := Option.map_eq_some_iff.mp hstep
    cases todo <;> exact Nat.le_refl _
  | load q =>
    obtain ⟨-, rfl⟩ := Runs.of_guard hstep
    rw [Order0Ring.load]
    split
    · split
      next hlt => exact hupdate q _ (Nat.le_sub_one_of_lt (Nat.lt_of_succ_lt hlt))
      · exact Nat.le_refl _
    · exact Nat.le_refl _
  | copy q =>
    rw [Order0Ring.step] at hstep
    split at hstep
    · cases hstep
      rw [Order0Ring.copy]
      split
      · exact hupdate q _ (Nat.le_succ _)
      · exact Nat.le_refl _
    · cases hstep

/-- As long as no push enters a slot before the last one has left it and no reader is lapped while it
copies, a read returns what was pushed under its cursor.  Cursors never go back, whatever happens. -/
theorem order0_reads_whole (hn : 0 < n) {readCursor : Nat → Nat} {es : List Order0Event}
    (hrun : Runs.Along (step n) (Unlapped n) { readCursor := readCursor } es s) :
    (∀ x ∈ s.returned, x.1 < s.writeCursor ∧ ∀ f ∈ loads, x.2 f = s.pushed x.1 f) ∧
      ∀ es' t, Runs.Along (step n) (fun _ _ => True) s es' t → ∀ r, s.readCursor r ≤ t.readCursor r := by
  have hok : s.Ok n := hrun.invariant (fun _ _ _ hk hstep h => h.step hn hk hstep) (ok_fresh n readCursor)
  refine ⟨hok.returned, fun es' t hrun' r => ?_⟩
  exact hrun'.invariant (I := fun t => s.readCursor r ≤ t.readCursor r)
    (fun _ _ _ _ hstep h => h.trans (readCursor_step hstep r)) (Nat.le_refl _)

theorem order0_reads_whole_twoSlots :
    ∃ s, Runs.Along (step 2) (Unlapped 2) { readCursor := fun _ => 0 }
        (.push (fun _ => 5) :: .push (fun _ => 6) :: .store 1 :: (List.replicate 7 (.store 0) ++
          [.load 0, .store 1, .copy 0, .copy 0, .copy 0, .copy 0])) s ∧
      s.returned.map (·.1) = [0] ∧
      ((∀ x ∈ s.returned, x.1 < s.writeCursor ∧ ∀ f ∈ loads, x.2 f = s.pushed x.1 f) ∧
        ∀ es' t, Runs.Along (step 2) (fun _ _ => True) s es' t → ∀ r, s.readCursor r ≤ t.readCursor r) :=
  Runs.exists_of_exec (·.returned.map (·.1)) [0] (by decide +kernel) fun _ hrun hr =>
    ⟨hr, order0_reads_whole Nat.two_pos hrun⟩

def afterPushes (s : Order0Ring) (batch : Order0Batch) (k : Nat) : Order0Ring :=
  { s with
    writeCursor := s.writeCursor + k
    writing := fun c => if s.writeCursor ≤ c ∧ c < s.writeCursor + k then some stores else s.writing c
    pushed := fun c => if s.writeCursor ≤ c ∧ c < s.writeCursor + k then batch else s.pushed c }

theorem along_afterPushes {s₀ : Order0Ring} {es : List Order0Event} (batch : Order0Batch) (k : Nat)
    (h : Runs.Along (step n) (fun _ _ => True) s₀ es s) :
    Runs.Along (step n) (fun _ _ => True) s₀ (es ++ List.replicate k (.push batch)) (s.afterPushes batch k) := by
  have hupdate : ∀ {α : Type} (f : Nat → α) (a : α) (k : Nat),
      update (fun c => if s.writeCursor ≤ c ∧ c < s.writeCursor + k then a else f c) (s.writeCursor + k) a =
        fun c => if s.writeCursor ≤ c ∧ c < s.writeCursor + (k + 1) then a else f c := by
    intro α f a k
    funext c
    grind [Function.update_apply]
  induction k with
  | zero =>
    have hnot : ∀ c, ¬(s.writeCursor ≤ c ∧ c < s.writeCursor + 0) := by omega
    simp only [afterPushes, hnot, if_false, List.replicate_zero, List.append_nil]
    exact h
  | succ k ih =>
    rw [List.replicate_succ', ← List.append_assoc]
    refine ih.append (.cons trivial ?_ (.nil _))
    simp only [Order0Ring.step, pushOrder0Batch, afterPushes, hupdate]
    rfl

def ringSize : Nat := 8192

/-- A reader has found batch `0` complete.  Before it copies, the cursors go around the ring and the push one
lap ahead stores its `log_idx`, which the reader then takes for that of batch `0`. -/
theorem order0_read_torn : ∃ es s,
    Runs.Along (step ringSize) (fun _ _ => True) { readCursor := fun _ => 0 } es s ∧
      ∃ x ∈ s.returned, x.1 = 0 ∧ x.2 .logIdx = 6 ∧ s.pushed 0 .logIdx = 5 := by
  have hread : Runs.Along (step ringSize) (fun _ _ => True) { readCursor := fun _ => 0 }
      (.push (fun _ => 5) :: (List.replicate 7 (.store 0) ++ [.load 0])) _ := Runs.along_of_exec rfl
  have hall := (along_afterPushes (fun _ => 6) 8192 hread).append (show Runs.Along (step ringSize) (fun _ _ => True) _
    [.store 8192, .copy 0, .copy 0, .copy 0, .copy 0] _ from Runs.along_of_exec (by rfl))
  exact ⟨_, _, hall, _, List.mem_singleton_self _, rfl, rfl, rfl⟩

end Order0Ring

end Embarcadero
