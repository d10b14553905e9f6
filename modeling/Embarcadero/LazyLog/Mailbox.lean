import Embarcadero.LazyLog.Binding

namespace Embarcadero.LazyLog

open Function (update update_apply)
open List

def kMaxBrokers : Nat := 32

def kAbsentBinding : Int := -1

structure LocalProgressMsg where
  localProgress : Int
  epoch : Int
  brokerId : Nat

structure GlobalBindingMsg where
  epoch : Int
  numBrokers : Nat
  binding : List Int

def GlobalBindingMsg.delta (m : GlobalBindingMsg) (s : Nat) : Int :=
  let v := m.binding[s]?.getD kAbsentBinding
  if v = kAbsentBinding then 0 else v

structure Segment where
  numBrokers : Nat
  upCapacity : Nat
  downCapacity : Nat
  k : Nat
  numBrokers_le : numBrokers ≤ kMaxBrokers

structure Mailbox where
  core : BindingCore := {}
  up : Nat → List LocalProgressMsg := fun _ => []
  down : Nat → List GlobalBindingMsg := fun _ => []
  received : Nat → List GlobalBindingMsg := fun _ => []
  boundAtLast : Nat → Nat → Int := fun _ _ => 0

namespace Mailbox

variable (seg : Segment)

def fresh : Mailbox where
  core := (List.range seg.numBrokers).foldl BindingCore.registerBroker {}

def feed (c : BindingCore) (m : LocalProgressMsg) : BindingCore :=
  c.addLocalProgress m.brokerId m.epoch m.localProgress

def drainBrokerProgress (x : Mailbox × Nat) (b : Nat) : Mailbox × Nat :=
  let msgs := (x.1.up b).take seg.k
  ({ x.1 with
    core := msgs.foldl feed x.1.core
    up := update x.1.up b ((x.1.up b).drop seg.k) }, x.2 + msgs.length)

def drainAll (w : Mailbox) : Mailbox × Nat :=
  (List.range seg.numBrokers).foldl (drainBrokerProgress seg) (w, 0)

def encode (epoch : Int) (binding : Binding) : GlobalBindingMsg where
  epoch := epoch
  numBrokers := seg.numBrokers
  binding := (List.range kMaxBrokers).map fun b => (binding.lookup b).getD kAbsentBinding

def broadcastDown (w : Mailbox) (m : GlobalBindingMsg) : Mailbox :=
  let room b := decide (b < seg.numBrokers) && decide ((w.down b).length < seg.downCapacity)
  { w with
    down := fun b => if room b then w.down b ++ [m] else w.down b
    boundAtLast := fun b => if room b then w.core.boundProgress else w.boundAtLast b }

def maybeEmitGlobalBinding (w : Mailbox) : Mailbox :=
  match w.core.computeGlobalBinding seg.numBrokers true with
  | none => w
  | some (core, binding, epoch) => broadcastDown seg { w with core } (encode seg epoch binding)

def pass (w : Mailbox) : Mailbox :=
  let x := drainAll seg w
  if 0 < x.2 then maybeEmitGlobalBinding seg x.1 else x.1

inductive Event
  | report (b : Nat) (epoch localProgress : Int)
  | pass
  | drain (b : Nat)

def step (w : Mailbox) : Event → Option Mailbox
  | .report b epoch progress =>
    if b < seg.numBrokers ∧ (w.up b).length < seg.upCapacity ∧ progress < 2 ^ 63 then
      some { w with up := update w.up b (w.up b ++ [⟨progress, epoch, b⟩]) }
    else none
  | .pass => some (pass seg w)
  | .drain b =>
    match w.down b with
    | [] => none
    | m :: rest => some { w with
        down := update w.down b rest
        received := update w.received b (w.received b ++ [m]) }

def Roomy (w : Mailbox) : Event → Prop
  | .pass => ((drainAll seg w).1.core.computeGlobalBinding seg.numBrokers true).isSome →
      ∀ b < seg.numBrokers, (w.down b).length < seg.downCapacity
  | _ => True

instance (w : Mailbox) : (e : Event) → Decidable (Roomy seg w e)
  | .pass => inferInstanceAs (Decidable (_ → _))
  | .report .. | .drain _ => isTrue trivial

def Complete (w : Mailbox) : Prop :=
  ∀ b < seg.numBrokers, w.down b = [] → ∀ s, ((w.received b).map (·.delta s)).sum = w.boundAtLast b s

end Mailbox

namespace BindingCore

structure Sound (c : BindingCore) : Prop where
  nodup : c.registeredBrokers.Nodup
  nonneg : ∀ b, 0 ≤ c.boundProgress b
  le : ∀ b, c.boundProgress b ≤ c.lastProgress b
  lt : ∀ b, c.lastProgress b < 2 ^ 63

variable {c c' : BindingCore}

theorem Sound.addLocalProgress (h : c.Sound) {b : Nat} {epoch progress : Int} (hlt : progress < 2 ^ 63) :
    (c.addLocalProgress b epoch progress).Sound := by
  rw [BindingCore.addLocalProgress]
  split
  · exact h
  next hnew =>
    refine { h with le := fun b' => ?_, lt := fun b' => ?_ } <;> dsimp only <;> rw [update_apply] <;> split
    next heq =>
      rw [heq]
      exact Int.le_trans (h.le b) (Int.not_lt.mp hnew)
    · exact h.le b'
    · exact hlt
    · exact h.lt b'

theorem boundProgress_addLocalProgress (c : BindingCore) (b : Nat) (epoch progress : Int) :
    (c.addLocalProgress b epoch progress).boundProgress = c.boundProgress ∧
      (c.addLocalProgress b epoch progress).registeredBrokers = c.registeredBrokers := by
  rw [BindingCore.addLocalProgress]
  split
  · exact ⟨rfl, rfl⟩
  · exact ⟨rfl, rfl⟩

theorem lookup_toBind {l : List Nat} {bound : Nat → Int} (hnodup : l.Nodup) (b : Nat) :
    (l.filterMap (toBind? c bound)).lookup b = if b ∈ l then (toBind? c bound b).map (·.2) else none := by
  induction l with
  | nil => rfl
  | cons b' l ih =>
    rw [nodup_cons] at hnodup
    rw [filterMap_toBind_cons, toBind?]
    by_cases hb : b = b'
    · subst hb
      rw [if_pos mem_cons_self, toBind?]
      split
      · exact lookup_cons_self
      · rw [Option.toList_none, nil_append, ih hnodup.2, if_neg hnodup.1]
        rfl
    · have hmem : b ∈ b' :: l ↔ b ∈ l := by rw [mem_cons, or_iff_right hb]
      rw [if_congr hmem rfl rfl, ← ih hnodup.2]
      split
      · rw [Option.toList_some, singleton_append, lookup_cons, beq_false_of_ne hb]
      · rfl

theorem Sound.computeGlobalBinding (h : c.Sound) {expected : Nat} {barrier : Bool} {binding : Binding} {epoch : Int}
    (hbind : c.computeGlobalBinding expected barrier = some (c', binding, epoch)) :
    c'.Sound ∧ c'.registeredBrokers = c.registeredBrokers ∧
      (∀ b, c'.boundProgress b = c.boundProgress b + (binding.lookup b).getD 0) ∧
      ∀ b v, binding.lookup b = some v → b ∈ c.registeredBrokers ∧ 0 < v := by
  obtain ⟨hlast, hregistered, hround⟩ := World.computeGlobalBinding_eq_some hbind
  obtain ⟨hout, hbound⟩ := foldl_bindBroker h.nodup c.boundProgress [] fun b _ =>
    ⟨h.le b, by have := h.lt b; have := h.nonneg b; omega⟩
  rw [← hround] at hout hbound
  dsimp only at hout hbound
  rw [nil_append] at hout
  have hlookup : ∀ b, binding.lookup b =
      if b ∈ c.registeredBrokers then (toBind? c c.boundProgress b).map (·.2) else none := fun b =>
    hout ▸ lookup_toBind h.nodup b
  have hadd : ∀ b, c'.boundProgress b = c.boundProgress b + (binding.lookup b).getD 0 := by
    intro b
    have hle := h.le b
    rw [hbound, hlookup]
    split
    · rw [toBind?]
      split
      · rw [Option.map_some, Option.getD_some]
        omega
      · rw [Option.map_none, Option.getD_none]
        omega
    · exact (Int.add_zero _).symm
  refine ⟨⟨hregistered ▸ h.nodup, fun b => ?_, fun b => ?_, fun b => hlast ▸ h.lt b⟩, hregistered, hadd,
    fun b v hv => ?_⟩
  · rw [hbound]
    split
    · exact Int.le_trans (h.nonneg b) (h.le b)
    · exact h.nonneg b
  · rw [hbound, hlast]
    split
    · exact Int.le_refl _
    · exact h.le b
  · rw [hlookup] at hv
    split at hv
    · rw [toBind?] at hv
      split at hv
      · cases hv
        exact ⟨‹_›, ‹_›⟩
      · cases hv
    · cases hv

end BindingCore

namespace Mailbox

variable {seg : Segment} {w w' : Mailbox} {e : Event}

theorem delta_encode (seg : Segment) (epoch : Int) {binding : Binding}
    (h : ∀ b v, binding.lookup b = some v → b < kMaxBrokers ∧ 0 < v) (s : Nat) :
    (encode seg epoch binding).delta s = (binding.lookup s).getD 0 := by
  rw [GlobalBindingMsg.delta, encode]
  dsimp only
  cases hv : binding.lookup s with
  | none =>
    have habsent : ((List.range kMaxBrokers).map fun b => (binding.lookup b).getD kAbsentBinding)[s]?.getD
        kAbsentBinding = kAbsentBinding := by
      by_cases hs : s < kMaxBrokers
      · rw [List.getElem?_map, List.getElem?_range hs, Option.map_some, Option.getD_some, hv, Option.getD_none]
      · rw [List.getElem?_eq_none (by simpa using hs), Option.getD_none]
    rw [if_pos habsent]
    rfl
  | some v =>
    obtain ⟨hs, hpos⟩ := h s v hv
    rw [List.getElem?_map, List.getElem?_range hs, Option.map_some, Option.getD_some, hv, Option.getD_some]
    exact if_neg (by rw [kAbsentBinding]; omega)

structure Ok (seg : Segment) (w : Mailbox) : Prop where
  sound : w.core.Sound
  registered : ∀ b ∈ w.core.registeredBrokers, b < seg.numBrokers
  reports : ∀ b, ∀ m ∈ w.up b, m.localProgress < 2 ^ 63
  delivered : ∀ b < seg.numBrokers, ∀ s, ((w.received b ++ w.down b).map (·.delta s)).sum = w.core.boundProgress s
  last : ∀ b < seg.numBrokers, w.boundAtLast b = w.core.boundProgress

theorem Ok.complete (h : w.Ok seg) : w.Complete seg := by
  intro b hb hempty s
  rw [h.last b hb, ← h.delivered b hb s, hempty, append_nil]

theorem ok_fresh (seg : Segment) : (fresh seg).Ok seg := by
  have hregister : ∀ (l : List Nat) (c : BindingCore), (∀ b ∈ l, b < seg.numBrokers) → c.Sound →
      (∀ b ∈ c.registeredBrokers, b < seg.numBrokers) → c.boundProgress = (fun _ => 0) →
      (l.foldl BindingCore.registerBroker c).Sound ∧
        (∀ b ∈ (l.foldl BindingCore.registerBroker c).registeredBrokers, b < seg.numBrokers) ∧
        (l.foldl BindingCore.registerBroker c).boundProgress = fun _ => 0 := by
    intro l
    induction l with
    | nil => exact fun c _ hc hb hzero => ⟨hc, hb, hzero⟩
    | cons b l ih =>
      intro c hl hc hb hzero
      refine ih _ (fun b' hb' => hl b' (mem_cons_of_mem _ hb'))
        { hc with nodup := nodup_insertBroker hc.nodup b } (fun b' hb' => ?_) hzero
      cases mem_insertBroker.mp hb' with
      | inl heq => exact heq ▸ hl b mem_cons_self
      | inr hold => exact hb b' hold
  obtain ⟨hsound, hregistered, hzero⟩ := hregister (List.range seg.numBrokers) {} (fun b hb => mem_range.mp hb)
    ⟨.nil, fun _ => Int.le_refl 0, fun _ => Int.le_refl 0, fun _ => Int.pow_pos (by decide)⟩ nofun rfl
  exact ⟨hsound, hregistered, nofun, fun b _ s => (congrFun hzero s).symm, fun b _ => hzero.symm⟩

theorem Ok.feed (h : w.Ok seg) {m : LocalProgressMsg} (hm : m.localProgress < 2 ^ 63) :
    Ok seg { w with core := feed w.core m } := by
  obtain ⟨hbound, hregistered⟩ := w.core.boundProgress_addLocalProgress m.brokerId m.epoch m.localProgress
  refine ⟨h.sound.addLocalProgress hm, fun b hb => ?_, h.reports, fun b hb s => ?_, fun b hb => ?_⟩
  · exact h.registered b (hregistered ▸ hb)
  · exact (h.delivered b hb s).trans (congrFun hbound s).symm
  · exact (h.last b hb).trans hbound.symm

theorem Ok.foldl_feed (msgs : List LocalProgressMsg) : ∀ {w : Mailbox}, w.Ok seg →
    (∀ m ∈ msgs, m.localProgress < 2 ^ 63) → Ok seg { w with core := msgs.foldl Mailbox.feed w.core } := by
  induction msgs with
  | nil => exact fun h _ => h
  | cons m msgs ih =>
    intro w h hmsgs
    exact ih (h.feed (hmsgs m mem_cons_self)) fun m' hm' => hmsgs m' (mem_cons_of_mem _ hm')

theorem Ok.drainBrokerProgress {x : Mailbox × Nat} (h : x.1.Ok seg) (b : Nat) :
    (drainBrokerProgress seg x b).1.Ok seg := by
  have hfed := h.foldl_feed ((x.1.up b).take seg.k) fun m hm => h.reports b m (mem_of_mem_take hm)
  refine { hfed with reports := fun b' m hm => ?_ }
  rw [Mailbox.drainBrokerProgress] at hm
  dsimp only at hm
  rw [update_apply] at hm
  split at hm
  · exact h.reports b m (mem_of_mem_drop hm)
  · exact h.reports b' m hm

theorem drainAll_spec (h : w.Ok seg) : (drainAll seg w).1.Ok seg ∧ (drainAll seg w).1.down = w.down := by
  have hfold : ∀ (l : List Nat) (x : Mailbox × Nat), x.1.Ok seg →
      (l.foldl (Mailbox.drainBrokerProgress seg) x).1.Ok seg ∧
        (l.foldl (Mailbox.drainBrokerProgress seg) x).1.down = x.1.down := by
    intro l
    induction l with
    | nil => exact fun x hx => ⟨hx, rfl⟩
    | cons b l ih => exact fun x hx => ih _ (hx.drainBrokerProgress b)
  exact hfold _ (w, 0) h

theorem Ok.maybeEmitGlobalBinding (h : w.Ok seg) (hroom : (w.core.computeGlobalBinding seg.numBrokers true).isSome →
      ∀ b < seg.numBrokers, (w.down b).length < seg.downCapacity) : (maybeEmitGlobalBinding seg w).Ok seg := by
  rw [Mailbox.maybeEmitGlobalBinding]
  cases hbind : w.core.computeGlobalBinding seg.numBrokers true with
  | none => exact h
  | some out =>
    obtain ⟨core, binding, epoch⟩ := out
    obtain ⟨hsound, hregistered, hadd, hentries⟩ := h.sound.computeGlobalBinding hbind
    have hall : ∀ b < seg.numBrokers,
        (decide (b < seg.numBrokers) && decide ((w.down b).length < seg.downCapacity)) = true := by
      intro b hb
      rw [Bool.and_eq_true]
      exact ⟨decide_eq_true hb, decide_eq_true (hroom (hbind ▸ rfl) b hb)⟩
    have hdelta := delta_encode seg epoch fun b v hv =>
      ⟨Nat.lt_of_lt_of_le (h.registered b (hentries b v hv).1) seg.numBrokers_le, (hentries b v hv).2⟩
    refine ⟨hsound, fun b hb => h.registered b (hregistered ▸ hb), h.reports, fun b hb s => ?_, fun b hb => ?_⟩
    · dsimp only [broadcastDown]
      rw [if_pos (hall b hb), ← append_assoc, map_append, sum_append, h.delivered b hb s, hadd,
        map_singleton, sum_singleton, hdelta]
    · dsimp only [broadcastDown]
      rw [if_pos (hall b hb)]

theorem Ok.step (h : w.Ok seg) (hroomy : w.Roomy seg e) (hstep : w.step seg e = some w') : w'.Ok seg := by
  cases e with
  | report b epoch progress =>
    obtain ⟨hok, rfl⟩ := Runs.of_guard hstep
    refine { h with reports := fun b' m hm => ?_ }
    dsimp only at hm
    rw [update_apply] at hm
    split at hm
    · cases mem_append.mp hm with
      | inl hold => exact h.reports b m hold
      | inr hnew =>
        obtain rfl := mem_singleton.mp hnew
        exact hok.2.2
    · exact h.reports b' m hm
  | pass =>
    cases hstep
    obtain ⟨hdrained, hdown⟩ := drainAll_spec h
    rw [pass]
    split
    · exact hdrained.maybeEmitGlobalBinding (hdown ▸ hroomy)
    · exact hdrained
  | drain b =>
    rw [Mailbox.step] at hstep
    split at hstep
    · cases hstep
    next m rest hdown =>
      cases hstep
      refine { h with delivered := fun b' hb' s => ?_ }
      dsimp only
      rw [update_apply, update_apply]
      split
      next heq =>
        rw [append_assoc, singleton_append, ← hdown, ← heq]
        exact h.delivered b' hb' s
      · exact h.delivered b' hb' s

end Mailbox

/-- Along every run in which no ring is full at a broadcast, a broker that has drained its ring has received all that
was bound. -/
theorem lazylog_broadcast_complete {seg : Segment} {es : List Mailbox.Event} {w : Mailbox}
    (h : Runs.Along (Mailbox.step seg) (Mailbox.Roomy seg) (.fresh seg) es w) : w.Complete seg :=
  (h.invariant (fun _ _ _ hk hstep hok => Mailbox.Ok.step hok hk hstep) (Mailbox.ok_fresh seg)).complete

def wedgeSegment : Segment where
  numBrokers := 2
  upCapacity := 128
  downCapacity := 4
  k := 64
  numBrokers_le := by decide

def round (i : Nat) : List Mailbox.Event := [.report 0 i (i + 1), .report 1 i (2 * i + 2), .pass]

def drainedRun : List Mailbox.Event :=
  round 0 ++ round 1 ++ [.drain 0, .drain 0] ++ round 2 ++ round 3 ++ [.drain 0, .drain 0]

theorem lazylog_broadcast_complete_drainedRun : ∃ w,
    Runs.Along (Mailbox.step wedgeSegment) (Mailbox.Roomy wedgeSegment) (.fresh wedgeSegment) drainedRun w ∧
      w.Complete wedgeSegment ∧ (w.down 0).length = 0 ∧ w.boundAtLast 0 1 = 8 := by
  refine Runs.exists_of_exec (fun w => ((w.down 0).length, w.boundAtLast 0 1))
    (0, (8 : Int)) (by decide +kernel) fun w hw hend => ?_
  exact ⟨lazylog_broadcast_complete hw, (Prod.mk.inj hend).1, (Prod.mk.inj hend).2⟩

def wedgedRun : List Mailbox.Event :=
  round 0 ++ [.drain 0] ++ round 1 ++ [.drain 0] ++ round 2 ++ [.drain 0] ++ round 3 ++ [.drain 0] ++ round 4 ++
    [.drain 0, .drain 1, .drain 1, .drain 1, .drain 1] ++ round 5 ++ [.drain 0, .drain 1]

theorem lazylog_broadcast_incomplete : ∃ w,
    Runs.Along (Mailbox.step wedgeSegment) (fun _ _ => True) (.fresh wedgeSegment) wedgedRun w ∧
      ¬ w.Complete wedgeSegment := by
  refine Runs.exists_of_exec (fun w => ((w.down 1).length, ((w.received 1).map (·.delta 0)).sum, w.boundAtLast 1 0))
    (0, (5 : Int), (6 : Int)) (by decide +kernel) fun w hw hend => ?_
  obtain ⟨hempty, hrest⟩ := Prod.mk.inj hend
  obtain ⟨hsum, hbound⟩ := Prod.mk.inj hrest
  refine fun hcomplete => ?_
  have hequal := hcomplete 1 (by decide) (length_eq_zero_iff.mp hempty) 0
  rw [hsum, hbound] at hequal
  exact absurd hequal (by decide)

end Embarcadero.LazyLog
