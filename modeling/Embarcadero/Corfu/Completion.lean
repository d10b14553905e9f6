import Embarcadero.Lib.Carried
import Embarcadero.Lib.Contiguous
import Embarcadero.Lib.Residue
import Embarcadero.Lib.Runs
import Embarcadero.Lib.Shares

namespace Embarcadero.Corfu

open Function (update update_apply update_of_ne)
open List

structure CorfuBatch where
  batchSeq : Nat
  totalSize : Nat
  numMsg : Nat
  clientId : Nat
  totalOrder : Nat
  logIdx : Nat
  deriving DecidableEq

structure SlotHeader where
  batchSeq : Nat := 0
  pbrAbsoluteIndex : Nat := 0
  totalSize : Nat := 0
  numMsg : Nat := 0
  brokerId : Nat := 0
  ordered : Nat := 0
  batchOffToExport : Nat := 0
  totalOrder : Nat := 0
  logIdx : Nat := 0
  deriving DecidableEq

inductive SlotField
  | batchSeq | pbrAbsoluteIndex | totalSize | numMsg | brokerId | ordered | batchOffToExport | totalOrder | logIdx
  deriving DecidableEq

namespace SlotField

def all : List SlotField :=
  [batchSeq, pbrAbsoluteIndex, totalSize, numMsg, brokerId, ordered, batchOffToExport, totalOrder, logIdx]

def store (d : SlotHeader) (h : SlotHeader) : SlotField → SlotHeader
  | batchSeq => { h with batchSeq := d.batchSeq }
  | pbrAbsoluteIndex => { h with pbrAbsoluteIndex := d.pbrAbsoluteIndex }
  | totalSize => { h with totalSize := d.totalSize }
  | numMsg => { h with numMsg := d.numMsg }
  | brokerId => { h with brokerId := d.brokerId }
  | ordered => { h with ordered := d.ordered }
  | batchOffToExport => { h with batchOffToExport := d.batchOffToExport }
  | totalOrder => { h with totalOrder := d.totalOrder }
  | logIdx => { h with logIdx := d.logIdx }

def storeAll (d : SlotHeader) (h : SlotHeader) (todo : List SlotField) : SlotHeader := todo.foldl (store d) h

theorem storeAll_all (d h : SlotHeader) : storeAll d h all = d := by
  simp only [storeAll, all, foldl_cons, foldl_nil, store]

end SlotField

def locateAssignedPayload (segment firstPayload extent offset bytes : Nat) : Option Nat :=
  if segment = 0 ∨ firstPayload < segment ∨ bytes = 0 ∨ segment > 2 ^ 64 - 1 - extent then none
  else
    let header := firstPayload - segment
    if header ≥ extent ∨ offset > extent - header ∨ bytes > extent - header - offset then none
    else some (firstPayload + offset)

structure CorfuTopic where
  numSlots : Nat
  brokerId : Nat
  cxlAddr : Nat
  initialSegmentBase : Nat
  firstMessageAddr : Nat
  segmentSize : Nat

namespace CorfuTopic

def locate (c : CorfuTopic) (b : CorfuBatch) : Option Nat :=
  locateAssignedPayload c.initialSegmentBase c.firstMessageAddr c.segmentSize b.logIdx b.totalSize

def descriptor (c : CorfuTopic) (b : CorfuBatch) (log : Nat) : SlotHeader where
  batchSeq := b.batchSeq
  pbrAbsoluteIndex := b.batchSeq
  totalSize := b.totalSize
  numMsg := b.numMsg
  brokerId := c.brokerId
  ordered := 0
  batchOffToExport := 0
  totalOrder := b.totalOrder
  logIdx := log - c.cxlAddr

end CorfuTopic

inductive CompletionStage
  | idle
  | place (b : CorfuBatch) (log : Nat) (todo : List SlotField)
  | placed (b : CorfuBatch) (log : Nat)
  | scan (messages : Nat) (delta : List (Nat × Nat))
  | mark (messages : Nat) (delta : List (Nat × Nat)) (numMsg clientId : Nat)
  | ack (messages : Nat) (delta : List (Nat × Nat))
  | loaded (value messages : Nat) (delta : List (Nat × Nat))
  | credit (delta : List (Nat × Nat))
  deriving DecidableEq

structure Completion (n : Nat) where
  slots : Nat → SlotHeader
  completed : List (Nat × Nat × Nat) := []
  nextSeq : Nat := 0
  lock : Option (Fin n) := none
  ordered : Nat := 0
  perClientOrdered : Nat → Nat := fun _ => 0
  stages : Fin n → CompletionStage := fun _ => .idle
  started : List Nat := []
  recorded : List (Nat × Nat × Nat) := []
  credited : List (Nat × Nat × Nat) := []
  marked : List SlotHeader := []

inductive CompletionEvent (n : Nat)
  | get (t : Fin n) (b : CorfuBatch)
  | write (t : Fin n)
  | giveUp (t : Fin n)
  | complete (t : Fin n)
  | scan (t : Fin n)
  | mark (t : Fin n)
  | load (t : Fin n)
  | store (t : Fin n)
  | credit (t : Fin n)

namespace Completion

variable {n : Nat}

def setStage (s : Completion n) (t : Fin n) (stage : CompletionStage) : Completion n :=
  { s with stages := update s.stages t stage }

def take (s : Completion n) (t : Fin n) (messages : Nat) (delta : List (Nat × Nat)) (numMsg clientId : Nat) :
    Completion n :=
  { s with
    completed := Contiguous.erase s.nextSeq s.completed
    nextSeq := s.nextSeq + 1
    credited := s.credited ++ [(s.nextSeq, numMsg, clientId)] }.setStage t
      (.scan (messages + numMsg) (Shares.add clientId numMsg delta))

def step (c : CorfuTopic) (s : Completion n) : CompletionEvent n → Option (Completion n)
  | .get t b =>
    if s.stages t = .idle then
      let s := { s with started := s.started ++ [b.batchSeq] }
      if c.numSlots = 0 then some s
      else
        match c.locate b with
        | none => some s
        | some log => some (s.setStage t (.place b log SlotField.all))
    else none
  | .write t =>
    match s.stages t with
    | .place b log [] => some (s.setStage t (.placed b log))
    | .place b log (f :: todo) =>
      let i := b.batchSeq % c.numSlots
      some { s.setStage t (.place b log todo) with
        slots := update s.slots i (f.store (c.descriptor b log) (s.slots i)) }
    | _ => none
  | .giveUp t =>
    match s.stages t with
    | .placed _ _ => some (s.setStage t .idle)
    | _ => none
  | .complete t =>
    match s.stages t with
    | .placed b _ =>
      if s.lock = none then
        match Contiguous.emplace b.batchSeq (b.numMsg, b.clientId) s.completed with
        | none => some (s.setStage t .idle)
        | some completed =>
          some ({ s with
            completed
            lock := some t
            recorded := s.recorded ++ [(b.batchSeq, b.numMsg, b.clientId)] }.setStage t (.scan 0 []))
      else none
    | _ => none
  | .scan t =>
    match s.stages t with
    | .scan messages delta =>
      match s.completed.lookup s.nextSeq with
      | none => some ({ s with lock := none }.setStage t (if messages = 0 then .idle else .ack messages delta))
      | some (numMsg, clientId) =>
        if (s.slots (s.nextSeq % c.numSlots)).pbrAbsoluteIndex = s.nextSeq then
          some (s.setStage t (.mark messages delta numMsg clientId))
        else
          -- Slot freshness mismatch: the cursor moves on, the slot stays as it is.
          some (s.take t messages delta numMsg clientId)
    | _ => none
  | .mark t =>
    match s.stages t with
    | .mark messages delta numMsg clientId =>
      let i := s.nextSeq % c.numSlots
      let h := { s.slots i with ordered := 1 }
      some ({ s with slots := update s.slots i h, marked := s.marked ++ [h] }.take t messages delta numMsg clientId)
    | _ => none
  | .load t =>
    match s.stages t with
    | .ack messages delta => some (s.setStage t (.loaded s.ordered messages delta))
    | _ => none
  | .store t =>
    match s.stages t with
    | .loaded value messages delta => some { s.setStage t (.credit delta) with ordered := value + messages }
    | _ => none
  | .credit t =>
    match s.stages t with
    | .credit [] => some (s.setStage t .idle)
    | .credit ((client, count) :: delta) =>
      some { s.setStage t (.credit delta) with
        perClientOrdered := update s.perClientOrdered client (s.perClientOrdered client + count) }
    | _ => none

end Completion

namespace CompletionStage

def held : CompletionStage → Option (CorfuBatch × Nat × List SlotField)
  | place b log todo => some (b, log, todo)
  | placed b log => some (b, log, [])
  | _ => none

def inCall : CompletionStage → Bool
  | idle | placed .. => false
  | _ => true

def loading : CompletionStage → Bool
  | loaded .. => true
  | _ => false

def locked : CompletionStage → Bool
  | scan .. | mark .. => true
  | _ => false

def messages : CompletionStage → Nat
  | scan m _ | mark m _ _ _ | ack m _ | loaded _ m _ => m
  | _ => 0

def delta : CompletionStage → List (Nat × Nat)
  | scan _ d | mark _ d _ _ | ack _ d | loaded _ _ d | credit d => d
  | _ => []

end CompletionStage

namespace Completion

variable {n : Nat}

def Distinct (s : Completion n) : CompletionEvent n → Prop
  | .get _ b => b.batchSeq ∉ s.started
  | _ => True

def Serial (c : CorfuTopic) (s : Completion n) : CompletionEvent n → Prop
  | .get _ b => b.batchSeq ∉ s.started ∧ b.batchSeq < s.nextSeq + c.numSlots
  | .load _ => ∀ t, (s.stages t).loading = false
  | _ => True

instance (s : Completion n) : (e : CompletionEvent n) → Decidable (s.Distinct e)
  | .get .. => inferInstanceAs (Decidable (¬_))
  | .write _ | .giveUp _ | .complete _ | .scan _ | .mark _ | .load _ | .store _ | .credit _ => isTrue trivial

instance (c : CorfuTopic) (s : Completion n) : (e : CompletionEvent n) → Decidable (s.Serial c e)
  | .get .. => inferInstanceAs (Decidable (_ ∧ _))
  | .load _ => inferInstanceAs (Decidable (∀ _, _))
  | .write _ | .giveUp _ | .complete _ | .scan _ | .mark _ | .store _ | .credit _ => isTrue trivial

variable {c : CorfuTopic} {s s' : Completion n} {t : Fin n} {e : CompletionEvent n} {es : List (CompletionEvent n)}

structure Slotted (c : CorfuTopic) (s : Completion n) : Prop where
  held : ∀ t b log todo, (s.stages t).held = some (b, log, todo) →
    b.batchSeq ∈ s.started ∧ s.recorded.lookup b.batchSeq = none ∧ b.batchSeq < s.nextSeq + c.numSlots ∧
      SlotField.storeAll (c.descriptor b log) (s.slots (b.batchSeq % c.numSlots)) todo = c.descriptor b log
  apart : ∀ t t' p p', (s.stages t).held = some p → (s.stages t').held = some p' → p.1.batchSeq = p'.1.batchSeq → t = t'
  pending : ∀ q v, s.nextSeq ≤ q → s.recorded.lookup q = some v → q < s.nextSeq + c.numSlots ∧
    ∃ b log, b.batchSeq = q ∧ (b.numMsg, b.clientId) = v ∧ s.slots (q % c.numSlots) = c.descriptor b log
  known : ∀ q, (s.recorded.lookup q).isSome → q ∈ s.started

structure Looped (c : CorfuTopic) (s : Completion n) : Prop where
  tracks : Contiguous.Tracks (fun _ => 1) (fun q => s.recorded.lookup q) s.nextSeq s.completed s.credited
  locked : ∀ t, (s.stages t).locked ↔ s.lock = some t
  gap : s.lock = none → s.recorded.lookup s.nextSeq = none
  mark : ∀ t messages delta numMsg clientId, s.stages t = .mark messages delta numMsg clientId →
    s.completed.lookup s.nextSeq = some (numMsg, clientId)
  marked : ∀ p ∈ s.credited, ∃ b log, b.batchSeq = p.1 ∧ (b.numMsg, b.clientId) = p.2 ∧
    { c.descriptor b log with ordered := 1 } ∈ s.marked

def credits (s : Completion n) : List (Nat × Nat) := s.credited.map fun p => (p.2.2, p.2.1)

structure Summed (s : Completion n) : Prop where
  counted : Shares.total s.credits = s.ordered + ∑ t, (s.stages t).messages
  perClient : ∀ client, Shares.share client s.credits =
    s.perClientOrdered client + ∑ t, Shares.share client (s.stages t).delta
  even : ∀ t, (s.stages t).locked → Shares.total (s.stages t).delta = (s.stages t).messages
  loaded : ∀ t value messages delta, s.stages t = .loaded value messages delta → value = s.ordered
  alone : ∀ t t', (s.stages t).loading → (s.stages t').loading → t = t'

structure Ok (c : CorfuTopic) (s : Completion n) : Prop where
  slotted : s.Slotted c
  looped : s.Looped c
  summed : s.Summed

theorem Looped.next_le (h : s.Looped c) {q : Nat} (hq : s.recorded.lookup q = none) : s.nextSeq ≤ q := by
  by_contra hlt
  have hsome := h.tracks.isSome_of_lt (Nat.lt_of_not_le hlt)
  rw [hq] at hsome
  cases hsome

section Slotted

theorem Slotted.setStage (h : s.Slotted c) (stage : CompletionStage)
    (hheld : ∀ p, stage.held = some p → (s.stages t).held = some p) : (s.setStage t stage).Slotted c := by
  have hback : ∀ u p, ((s.setStage t stage).stages u).held = some p → (s.stages u).held = some p := by
    intro u p hu
    dsimp only [Completion.setStage] at hu
    rw [update_apply] at hu
    split at hu
    next heq =>
      rw [heq]
      exact hheld p hu
    · exact hu
  exact { h with
    held := fun u b log todo hu => h.held u b log todo (hback u _ hu)
    apart := fun u u' p p' hu hu' => h.apart u u' p p' (hback u _ hu) (hback u' _ hu') }

theorem Slotted.start (h : s.Slotted c) (q : Nat) : Slotted c { s with started := s.started ++ [q] } :=
  { h with
    held := fun t b log todo ht => (h.held t b log todo ht).imp_left (mem_append_left _)
    known := fun q hq => mem_append_left _ (h.known q hq) }

variable {b : CorfuBatch} {log : Nat}

theorem Slotted.get (h : s.Slotted c) (hnew : b.batchSeq ∉ s.started) (hlt : b.batchSeq < s.nextSeq + c.numSlots)
    (log : Nat) :
    Slotted c ({ s with started := s.started ++ [b.batchSeq] }.setStage t (.place b log SlotField.all)) := by
  have hnone : s.recorded.lookup b.batchSeq = none := by
    rw [← Option.not_isSome_iff_eq_none]
    exact fun hsome => hnew (h.known _ hsome)
  have hother : ∀ u p, (s.stages u).held = some p → p.1.batchSeq ≠ b.batchSeq := by
    rintro u ⟨b', log', todo'⟩ hu heq
    exact hnew (heq ▸ (h.held u b' log' todo' hu).1)
  refine { h.start b.batchSeq with held := fun u b' log' todo' hu => ?_, apart := fun u u' p p' hu hu' heq => ?_ }
  · dsimp only [Completion.setStage] at hu ⊢
    rw [update_apply] at hu
    split at hu
    · cases hu
      exact ⟨by simp, hnone, hlt, SlotField.storeAll_all _ _⟩
    · exact (h.start b.batchSeq).held u b' log' todo' hu
  · dsimp only [Completion.setStage] at hu hu'
    rw [update_apply] at hu hu'
    split at hu <;> split at hu'
    next h₁ h₂ => exact h₁.trans h₂.symm
    · cases hu
      exact absurd heq.symm (hother u' p' hu')
    · cases hu'
      exact absurd heq (hother u p hu)
    · exact h.apart u u' p p' hu hu' heq

theorem slot_ne {q q' : Nat} (hne : q' ≠ q) (hq : s.nextSeq ≤ q) (hlt : q < s.nextSeq + c.numSlots)
    (hq' : s.nextSeq ≤ q') (hlt' : q' < s.nextSeq + c.numSlots) : q' % c.numSlots ≠ q % c.numSlots :=
  fun h => hne (Residue.eq_of_mod_eq hq' hlt' hq hlt h)

theorem Slotted.write (h : s.Slotted c) (hl : s.Looped c) {f : SlotField} {todo : List SlotField}
    (hstage : s.stages t = .place b log (f :: todo)) :
    Slotted c { s.setStage t (.place b log todo) with
      slots := update s.slots (b.batchSeq % c.numSlots)
        (f.store (c.descriptor b log) (s.slots (b.batchSeq % c.numSlots))) } := by
  have hheld : (s.stages t).held = some (b, log, f :: todo) := by rw [hstage]; rfl
  obtain ⟨hstarted, hnone, hlt, hslot⟩ := h.held t b log _ hheld
  have hle := hl.next_le hnone
  refine { h with
    held := fun u b' log' todo' hu => ?_
    apart := fun u u' p p' hu hu' heq => ?_
    pending := fun q v hq hv => ?_ }
  · dsimp only [Completion.setStage] at hu ⊢
    rw [update_apply] at hu
    split at hu
    · cases hu
      rw [Function.update_self]
      exact ⟨hstarted, hnone, hlt, hslot⟩
    next hu' =>
      obtain ⟨hstarted', hnone', hlt', hslot'⟩ := h.held u b' log' todo' hu
      have hne : b'.batchSeq ≠ b.batchSeq := fun heq => hu' (h.apart u t _ _ hu hheld heq)
      rw [update_of_ne (slot_ne hne hle hlt (hl.next_le hnone') hlt')]
      exact ⟨hstarted', hnone', hlt', hslot'⟩
  · have hback : ∀ u p, (update s.stages t (.place b log todo) u).held = some p →
        ∃ p', (s.stages u).held = some p' ∧ p'.1 = p.1 := by
      intro u p hu
      rw [update_apply] at hu
      split at hu
      next heq =>
        cases hu
        exact ⟨(b, log, f :: todo), heq ▸ hheld, rfl⟩
      · exact ⟨p, hu, rfl⟩
    obtain ⟨r, hr, hr₁⟩ := hback u p hu
    obtain ⟨r', hr', hr₁'⟩ := hback u' p' hu'
    exact h.apart u u' r r' hr hr' (by rw [hr₁, hr₁', heq])
  · obtain ⟨hlt', b', log', hb', hv', hslot'⟩ := h.pending q v hq hv
    have hne : q ≠ b.batchSeq := by
      rintro rfl
      cases hnone.symm.trans hv
    dsimp only
    rw [update_of_ne (slot_ne hne hle hlt hq hlt')]
    exact ⟨hlt', b', log', hb', hv', hslot'⟩

theorem Slotted.complete (h : s.Slotted c) (hstage : s.stages t = .placed b log) :
    Slotted c ({ s with recorded := s.recorded ++ [(b.batchSeq, b.numMsg, b.clientId)] }.setStage t (.scan 0 [])) := by
  have hheld : (s.stages t).held = some (b, log, []) := by rw [hstage]; rfl
  obtain ⟨hstarted, hnone, hlt, hslot⟩ := h.held t b log _ hheld
  have h' := h.setStage (t := t) (.scan 0 []) nofun
  refine { h' with held := fun u b' log' todo' hu => ?_, pending := fun q v hq hv => ?_, known := fun q hq => ?_ }
  · obtain ⟨hstarted', hnone', hlt', hslot'⟩ := h'.held u b' log' todo' hu
    refine ⟨hstarted', ?_, hlt', hslot'⟩
    dsimp only [Completion.setStage] at hu hnone' ⊢
    rw [update_apply] at hu
    split at hu
    · cases hu
    next hne =>
      rw [Contiguous.lookup_concat, hnone', if_neg fun heq => hne (h.apart u t _ _ hu hheld heq)]
      rfl
  · dsimp only [Completion.setStage] at hv ⊢
    rw [congrFun (Contiguous.lookup_concat_of_none hnone _) q, update_apply] at hv
    split at hv
    next heq =>
      cases hv
      exact ⟨heq ▸ hlt, b, log, heq.symm, rfl, heq ▸ hslot⟩
    · exact h.pending q v hq hv
  · dsimp only [Completion.setStage] at hq ⊢
    rw [congrFun (Contiguous.lookup_concat_of_none hnone _) q, update_apply] at hq
    split at hq
    next heq => exact heq ▸ hstarted
    · exact h.known q hq

theorem Slotted.take (h : s.Slotted c) (hl : s.Looped c) {v : Nat × Nat} (hv : s.recorded.lookup s.nextSeq = some v)
    (slot : SlotHeader) (stage : CompletionStage) (hstage : stage.held = none) :
    Slotted c ({ s with
      slots := update s.slots (s.nextSeq % c.numSlots) slot
      nextSeq := s.nextSeq + 1 }.setStage t stage) := by
  obtain ⟨hlt, -⟩ := h.pending s.nextSeq v (Nat.le_refl _) hv
  have h' := h.setStage (t := t) stage (by rw [hstage]; nofun)
  refine { h' with held := fun u b log todo hu => ?_, pending := fun q v' hq hv' => ?_ }
  · obtain ⟨hstarted, hnone, hlt', hslot⟩ := h'.held u b log todo hu
    have hne : b.batchSeq ≠ s.nextSeq := by
      intro heq
      dsimp only [Completion.setStage] at hnone
      rw [heq, hv] at hnone
      cases hnone
    dsimp only [Completion.setStage] at hlt' hslot ⊢
    rw [update_of_ne (slot_ne hne (Nat.le_refl _) hlt (hl.next_le hnone) hlt')]
    exact ⟨hstarted, hnone, by omega, hslot⟩
  · dsimp only [Completion.setStage] at hq hv' ⊢
    obtain ⟨hlt', b, log, hb, hv'', hslot⟩ := h.pending q v' (Nat.le_of_succ_le hq) hv'
    rw [update_of_ne (slot_ne (Nat.ne_of_gt hq) (Nat.le_refl _) hlt (Nat.le_of_succ_le hq) hlt')]
    exact ⟨by omega, b, log, hb, hv'', hslot⟩

end Slotted

section Looped

theorem Looped.unique (h : s.Looped c) (ht : (s.stages t).locked) {u : Fin n} (hu : (s.stages u).locked) : u = t :=
  Option.some.inj (((h.locked u).mp hu).symm.trans ((h.locked t).mp ht))

theorem Looped.setStage (h : s.Looped c) (stage : CompletionStage) (hlocked : stage.locked = (s.stages t).locked)
    (hmark : ∀ messages delta numMsg clientId, stage = .mark messages delta numMsg clientId →
      s.completed.lookup s.nextSeq = some (numMsg, clientId)) : (s.setStage t stage).Looped c := by
  refine { h with locked := fun u => ?_, mark := fun u messages delta numMsg clientId hu => ?_ }
  · dsimp only [Completion.setStage]
    rw [update_apply]
    split
    next heq =>
      rw [heq, hlocked]
      exact h.locked t
    · exact h.locked u
  · dsimp only [Completion.setStage] at hu
    rw [update_apply] at hu
    split at hu
    · exact hmark messages delta numMsg clientId hu
    · exact h.mark u messages delta numMsg clientId hu

theorem Looped.complete (h : s.Looped c) {b : CorfuBatch} {completed : List (Nat × Nat × Nat)}
    (hlock : s.lock = none) (hle : s.nextSeq ≤ b.batchSeq)
    (hemplace : Contiguous.emplace b.batchSeq (b.numMsg, b.clientId) s.completed = some completed) :
    Looped c ({ s with
      completed
      lock := some t
      recorded := s.recorded ++ [(b.batchSeq, b.numMsg, b.clientId)] }.setStage t (.scan 0 [])) := by
  have hfree : ∀ u, (s.stages u).locked = false := by
    intro u
    rw [Bool.eq_false_iff]
    intro hu
    cases hlock.symm.trans ((h.locked u).mp hu)
  refine { h with
    tracks := h.tracks.record hle hemplace
    locked := fun u => ?_
    gap := nofun
    mark := fun u messages delta numMsg clientId hu => ?_ }
  · dsimp only [Completion.setStage]
    rw [update_apply]
    split
    next heq =>
      rw [heq]
      exact ⟨fun _ => rfl, fun _ => rfl⟩
    next hne =>
      rw [hfree u]
      exact ⟨nofun, fun heq => absurd (Option.some.inj heq).symm hne⟩
  · dsimp only [Completion.setStage] at hu
    rw [update_apply] at hu
    split at hu
    · cases hu
    · cases (hfree u).symm.trans (congrArg CompletionStage.locked hu)

theorem Looped.release (h : s.Looped c) (ht : (s.stages t).locked) (hnone : s.completed.lookup s.nextSeq = none)
    {stage : CompletionStage} (hstage : stage.locked = false) :
    Looped c ({ s with lock := none }.setStage t stage) := by
  have hfree : ∀ u, (update s.stages t stage u).locked = false := by
    intro u
    rw [update_apply]
    split
    · exact hstage
    next hne =>
      rw [Bool.eq_false_iff]
      exact fun hu => hne (h.unique ht hu)
  exact { h with
    locked := fun u => ⟨fun hu => absurd ((hfree u).symm.trans hu) nofun, nofun⟩
    gap := fun _ => (h.tracks.ahead _ (Nat.le_refl _)).symm.trans hnone
    mark := fun u _ _ _ _ hu => absurd ((hfree u).symm.trans (congrArg CompletionStage.locked hu)) nofun }

theorem Looped.take (h : s.Looped c) (ht : (s.stages t).locked) {numMsg clientId messages : Nat}
    {delta : List (Nat × Nat)} (hnext : s.completed.lookup s.nextSeq = some (numMsg, clientId)) {b : CorfuBatch}
    {log : Nat} (hseq : b.batchSeq = s.nextSeq) (hb : (b.numMsg, b.clientId) = (numMsg, clientId))
    (slots : Nat → SlotHeader) : Looped c ({ s with
      slots
      marked := s.marked ++ [{ c.descriptor b log with ordered := 1 }] }.take t messages delta numMsg clientId) := by
  have honly : ∀ u, u ≠ t → (s.stages u).locked = false := by
    intro u hne
    rw [Bool.eq_false_iff]
    exact fun hu => hne (h.unique ht hu)
  refine {
    tracks := h.tracks.take hnext Nat.one_pos
    locked := fun u => ?_
    gap := fun hlock => absurd (((h.locked t).mp ht).symm.trans hlock) nofun
    mark := fun u messages' delta' numMsg' clientId' hu => ?_
    marked := fun p hp => ?_ }
  · dsimp only [Completion.take, Completion.setStage]
    rw [update_apply]
    split
    next heq =>
      rw [heq]
      exact ⟨fun _ => (h.locked t).mp ht, fun _ => rfl⟩
    · exact h.locked u
  · dsimp only [Completion.take, Completion.setStage] at hu
    rw [update_apply] at hu
    split at hu
    · cases hu
    next hne => cases (honly u hne).symm.trans (congrArg CompletionStage.locked hu)
  · cases mem_append.mp hp with
    | inl hp =>
      obtain ⟨b', log', hseq', hb', hmem⟩ := h.marked p hp
      exact ⟨b', log', hseq', hb', mem_append_left _ hmem⟩
    | inr hp =>
      cases mem_singleton.mp hp
      exact ⟨b, log, hseq, hb, mem_append_right _ (mem_singleton.mpr rfl)⟩

end Looped

section Summed

theorem Summed.move (h : s.Summed) {stage : CompletionStage} (hstages : s'.stages = update s.stages t stage)
    (hcounted : Shares.total s'.credits + s.ordered + (s.stages t).messages =
      Shares.total s.credits + s'.ordered + stage.messages)
    (hclient : ∀ client, Shares.share client s'.credits + s.perClientOrdered client +
      Shares.share client (s.stages t).delta =
        Shares.share client s.credits + s'.perClientOrdered client + Shares.share client stage.delta)
    (heven : stage.locked → Shares.total stage.delta = stage.messages)
    (hordered : (s.stages t).loading = false → s'.ordered = s.ordered)
    (hloaded : ∀ value messages delta, stage = .loaded value messages delta → value = s'.ordered)
    (halone : stage.loading → ∀ u, (s.stages u).loading = false) : s'.Summed := by
  refine ⟨?_, fun client => ?_, fun u hu => ?_, fun u value messages delta hu => ?_, fun u u' hu hu' => ?_⟩
  · have hsum := Carried.sum_update CompletionStage.messages s.stages t stage
    rw [hstages]
    have := h.counted
    omega
  · have hsum := Carried.sum_update (fun stage => Shares.share client (CompletionStage.delta stage)) s.stages t stage
    rw [hstages]
    have := h.perClient client
    have := hclient client
    omega
  · rw [hstages, update_apply] at hu ⊢
    split at hu
    · rw [if_pos ‹_›]
      exact heven hu
    · rw [if_neg ‹_›]
      exact h.even u hu
  · rw [hstages, update_apply] at hu
    split at hu
    · exact hloaded value messages delta hu
    next hne =>
      have hloading : (s.stages u).loading = true := congrArg CompletionStage.loading hu
      rw [hordered (Bool.eq_false_iff.mpr fun ht => hne (h.alone u t hloading ht))]
      exact h.loaded u value messages delta hu
  · rw [hstages, update_apply] at hu hu'
    split at hu <;> split at hu'
    next h₁ h₂ => exact h₁.trans h₂.symm
    · cases (halone hu u').symm.trans hu'
    · cases (halone hu' u).symm.trans hu
    · exact h.alone u u' hu hu'

theorem Summed.setStage (h : s.Summed) (stage : CompletionStage) (hmessages : (s.stages t).messages = stage.messages)
    (hdelta : ∀ client, Shares.share client (s.stages t).delta = Shares.share client stage.delta)
    (heven : stage.locked → Shares.total stage.delta = stage.messages) (hloading : stage.loading = false) :
    (s.setStage t stage).Summed :=
  h.move rfl (congrArg _ hmessages) (fun client => congrArg _ (hdelta client)) heven (fun _ => rfl)
    (fun _ _ _ hstage => absurd (hloading.symm.trans (congrArg CompletionStage.loading hstage)) nofun)
    (fun hstage => absurd (hloading.symm.trans hstage) nofun)

theorem Summed.take (h : s.Summed) {messages numMsg clientId : Nat} {delta : List (Nat × Nat)}
    (ht : (s.stages t).locked) (hmessages : (s.stages t).messages = messages) (hdelta : (s.stages t).delta = delta) :
    (s.take t messages delta numMsg clientId).Summed := by
  have hcredits : (s.take t messages delta numMsg clientId).credits = s.credits ++ [(clientId, numMsg)] :=
    map_append
  have heven := h.even t ht
  rw [hmessages, hdelta] at heven
  refine h.move rfl ?_ (fun client => ?_) (fun _ => ?_) (fun _ => rfl) nofun nofun
  · rw [hcredits, Shares.total_append, Shares.total_cons, hmessages]
    change _ = _ + s.ordered + (messages + numMsg)
    dsimp only [Shares.total_nil]
    omega
  · rw [hcredits, Shares.share_append, Shares.share_cons, hdelta]
    change _ = _ + s.perClientOrdered client + Shares.share client (Shares.add clientId numMsg delta)
    rw [Shares.share_add]
    change _ + ((if clientId = client then numMsg else 0) + 0) + _ + _ = _
    omega
  · change Shares.total (Shares.add clientId numMsg delta) = messages + numMsg
    rw [Shares.total_add, heven]

end Summed

theorem Ok.setStage (h : s.Ok c) {stage : CompletionStage}
    (hheld : ∀ p, stage.held = some p → (s.stages t).held = some p) (hlocked : stage.locked = false)
    (hfree : (s.stages t).locked = false) (hmessages : (s.stages t).messages = stage.messages)
    (hdelta : ∀ client, Shares.share client (s.stages t).delta = Shares.share client stage.delta)
    (hloading : stage.loading = false) : (s.setStage t stage).Ok c where
  slotted := h.slotted.setStage stage hheld
  looped := h.looped.setStage stage (hlocked.trans hfree.symm)
    (fun _ _ _ _ hstage => absurd (hlocked.symm.trans (congrArg CompletionStage.locked hstage)) nofun)
  summed := h.summed.setStage stage hmessages hdelta (fun ht => absurd (hlocked.symm.trans ht) nofun) hloading

theorem Ok.start (h : s.Ok c) (q : Nat) : Ok c { s with started := s.started ++ [q] } :=
  ⟨h.slotted.start q, { h.looped with }, { h.summed with }⟩

theorem Ok.slot_of_next (h : s.Ok c) {v : Nat × Nat} (hnext : s.completed.lookup s.nextSeq = some v) :
    ∃ b log, b.batchSeq = s.nextSeq ∧ (b.numMsg, b.clientId) = v ∧
      s.slots (s.nextSeq % c.numSlots) = c.descriptor b log :=
  (h.slotted.pending _ v (Nat.le_refl _) ((h.looped.tracks.ahead _ (Nat.le_refl _)).symm.trans hnext)).2

theorem Ok.release (h : s.Ok c) {messages : Nat} {delta : List (Nat × Nat)} (hstage : s.stages t = .scan messages delta)
    (hnone : s.completed.lookup s.nextSeq = none) :
    Ok c ({ s with lock := none }.setStage t (if messages = 0 then .idle else .ack messages delta)) := by
  have hlocked : (s.stages t).locked := by rw [hstage]; rfl
  have heven : Shares.total delta = messages := by
    have := h.summed.even t hlocked
    rwa [hstage] at this
  split
  next hzero =>
    refine ⟨{ h.slotted.setStage (t := t) .idle nofun with }, h.looped.release hlocked hnone rfl,
      { h.summed.setStage (t := t) .idle ?_ (fun client => ?_) nofun rfl with }⟩
    · rw [hstage]
      exact hzero
    · rw [hstage]
      exact Nat.eq_zero_of_le_zero ((Shares.share_le_total client delta).trans (heven.trans hzero).le)
  · exact ⟨{ h.slotted.setStage (t := t) (.ack messages delta) nofun with }, h.looped.release hlocked hnone rfl,
      { h.summed.setStage (t := t) (.ack messages delta) (by rw [hstage]; rfl) (fun _ => by rw [hstage]; rfl)
        nofun rfl with }⟩

theorem Ok.step (h : s.Ok c) (hk : s.Serial c e) (hstep : s.step c e = some s') : s'.Ok c := by
  cases e with
  | get t b =>
    rw [Completion.step] at hstep
    split at hstep
    next hidle =>
      dsimp only at hstep
      split at hstep
      · cases hstep
        exact h.start b.batchSeq
      · split at hstep
        · cases hstep
          exact h.start b.batchSeq
        next log _ =>
          cases hstep
          exact ⟨h.slotted.get hk.1 hk.2 log, (h.start b.batchSeq).looped.setStage _ (by rw [hidle]; rfl) nofun,
            (h.start b.batchSeq).summed.setStage _ (by rw [hidle]; rfl) (fun _ => by rw [hidle]; rfl) nofun rfl⟩
    · cases hstep
  | write t =>
    rw [Completion.step] at hstep
    split at hstep
    next b log hstage =>
      cases hstep
      exact h.setStage (by rw [hstage]; exact fun _ => id) rfl (by rw [hstage]; rfl) (by rw [hstage]; rfl)
        (fun _ => by rw [hstage]; rfl) rfl
    next b log f todo hstage =>
      cases hstep
      exact ⟨h.slotted.write h.looped hstage,
        { h.looped.setStage (t := t) (.place b log todo) (by rw [hstage]; rfl) nofun with },
        { h.summed.setStage (t := t) (.place b log todo) (by rw [hstage]; rfl) (fun _ => by rw [hstage]; rfl)
          nofun rfl with }⟩
    · cases hstep
  | giveUp t =>
    rw [Completion.step] at hstep
    split at hstep
    next hstage =>
      cases hstep
      exact h.setStage nofun rfl (by rw [hstage]; rfl) (by rw [hstage]; rfl) (fun _ => by rw [hstage]; rfl) rfl
    · cases hstep
  | complete t =>
    rw [Completion.step] at hstep
    split at hstep
    next b log hstage =>
      split at hstep
      next hlock =>
        split at hstep
        · cases hstep
          exact h.setStage nofun rfl (by rw [hstage]; rfl) (by rw [hstage]; rfl) (fun _ => by rw [hstage]; rfl) rfl
        next completed hemplace =>
          cases hstep
          have hnone := (h.slotted.held t b log [] (by rw [hstage]; rfl)).2.1
          exact ⟨{ h.slotted.complete hstage with }, h.looped.complete hlock (h.looped.next_le hnone) hemplace,
            { h.summed.setStage (t := t) (.scan 0 []) (by rw [hstage]; rfl) (fun _ => by rw [hstage]; rfl)
              (fun _ => rfl) rfl with }⟩
      · cases hstep
    · cases hstep
  | scan t =>
    rw [Completion.step] at hstep
    split at hstep
    next messages delta hstage =>
      have hlocked : (s.stages t).locked := by rw [hstage]; rfl
      split at hstep
      next hnone =>
        cases hstep
        exact h.release hstage hnone
      next numMsg clientId hnext =>
        obtain ⟨b, log, hseq, -, hslot⟩ := h.slot_of_next hnext
        rw [if_pos (by rw [hslot]; exact hseq)] at hstep
        cases hstep
        have heven := h.summed.even t hlocked
        rw [hstage] at heven
        refine ⟨h.slotted.setStage _ nofun, h.looped.setStage _ (by rw [hstage]; rfl) ?_,
          h.summed.setStage _ (by rw [hstage]; rfl) (fun _ => by rw [hstage]; rfl) (fun _ => heven) rfl⟩
        rintro _ _ _ _ ⟨⟩
        exact hnext
    · cases hstep
  | mark t =>
    rw [Completion.step] at hstep
    split at hstep
    next messages delta numMsg clientId hstage =>
      cases hstep
      have hlocked : (s.stages t).locked := by rw [hstage]; rfl
      have hnext := h.looped.mark t _ _ _ _ hstage
      obtain ⟨b, log, hseq, hb, hslot⟩ := h.slot_of_next hnext
      rw [hslot]
      have hslotted := h.slotted.take (t := t) h.looped ((h.looped.tracks.ahead _ (Nat.le_refl _)).symm.trans hnext)
        { c.descriptor b log with ordered := 1 } (.scan (messages + numMsg) (Shares.add clientId numMsg delta)) rfl
      exact ⟨{ hslotted with }, h.looped.take hlocked hnext hseq hb _,
        { h.summed.take hlocked (by rw [hstage]; rfl) (by rw [hstage]; rfl) with }⟩
    · cases hstep
  | load t =>
    rw [Completion.step] at hstep
    split at hstep
    next messages delta hstage =>
      cases hstep
      refine ⟨h.slotted.setStage _ nofun, h.looped.setStage _ (by rw [hstage]; rfl) nofun,
        h.summed.move rfl (by rw [hstage]; rfl) (fun _ => by rw [hstage]; rfl) nofun (fun _ => rfl) ?_ fun _ => hk⟩
      rintro _ _ _ ⟨⟩
      rfl
    · cases hstep
  | store t =>
    rw [Completion.step] at hstep
    split at hstep
    next value messages delta hstage =>
      cases hstep
      have hvalue := h.summed.loaded t value messages delta hstage
      refine ⟨{ h.slotted.setStage (t := t) (.credit delta) nofun with },
        { h.looped.setStage (t := t) (.credit delta) (by rw [hstage]; rfl) nofun with },
        h.summed.move rfl ?_ (fun _ => by rw [hstage]; rfl) nofun ?_ nofun nofun⟩
      · rw [hstage, ← hvalue]
        exact Nat.add_assoc _ _ _
      · rw [hstage]
        nofun
    · cases hstep
  | credit t =>
    rw [Completion.step] at hstep
    split at hstep
    next hstage =>
      cases hstep
      exact h.setStage nofun rfl (by rw [hstage]; rfl) (by rw [hstage]; rfl) (fun _ => by rw [hstage]; rfl) rfl
    next client count delta hstage =>
      cases hstep
      refine ⟨{ h.slotted.setStage (t := t) (.credit delta) nofun with },
        { h.looped.setStage (t := t) (.credit delta) (by rw [hstage]; rfl) nofun with },
        h.summed.move rfl (by rw [hstage]; rfl) (fun client' => ?_) nofun (fun _ => rfl) nofun nofun⟩
      rw [hstage]
      change Shares.share client' s.credits + s.perClientOrdered client' +
        Shares.share client' ((client, count) :: delta) =
        Shares.share client' s.credits + update s.perClientOrdered client (s.perClientOrdered client + count) client' +
          Shares.share client' delta
      rw [Shares.share_cons, update_apply]
      dsimp only
      by_cases heq : client' = client
      · rw [if_pos heq.symm, if_pos heq, heq]
        omega
      · rw [if_neg (Ne.symm heq), if_neg heq]
        omega
    · cases hstep

theorem ok_start (c : CorfuTopic) (slots : Nat → SlotHeader) : ({ slots } : Completion n).Ok c where
  slotted := ⟨nofun, nofun, nofun, nofun⟩
  looped := ⟨.nil _, fun _ => ⟨nofun, nofun⟩, fun _ => rfl, nofun, fun _ hp => absurd hp not_mem_nil⟩
  summed := ⟨by simp [credits, CompletionStage.messages],
    fun _ => by simp [credits, CompletionStage.delta, Shares.share],
    nofun, nofun, nofun⟩

theorem Looped.positions (h : s.Looped c) : s.credited.map Prod.fst = List.range s.nextSeq := by
  rw [h.tracks.chain.positions, Nat.sub_zero, range_eq_range']

theorem Ok.quiet (h : s.Ok c) (hidle : ∀ t, (s.stages t).inCall = false) :
    s.recorded.lookup s.nextSeq = none ∧ s.ordered = Shares.total s.credits ∧
      ∀ client, s.perClientOrdered client = Shares.share client s.credits := by
  have hcarried : ∀ t, (s.stages t).locked = false ∧ (s.stages t).messages = 0 ∧ (s.stages t).delta = [] := by
    intro t
    have := hidle t
    cases hstage : s.stages t <;> rw [hstage] at this
    case idle | placed => exact ⟨rfl, rfl, rfl⟩
    all_goals cases this
  refine ⟨h.looped.gap ?_, ?_, fun client => ?_⟩
  · cases hlock : s.lock with
    | none => rfl
    | some t => cases (hcarried t).1.symm.trans ((h.looped.locked t).mpr hlock)
  · rw [h.summed.counted, Finset.sum_eq_zero fun t _ => (hcarried t).2.1, Nat.add_zero]
  · rw [h.summed.perClient, Finset.sum_eq_zero, Nat.add_zero]
    intro t _
    rw [(hcarried t).2.2]
    rfl

/-- As long as a batch comes in only when its slot is free and no two updates of the counter overlap,
batches are credited once, in order and only when they have completed, each with its descriptor
marked; when no call is in progress the counters are exact. -/
theorem corfu_completion_exact {slots : Nat → SlotHeader}
    (hrun : Runs.Along (step c) (Serial c) ({ slots } : Completion n) es s) :
    s.credited.map Prod.fst = List.range s.nextSeq ∧
      (∀ p ∈ s.credited, s.recorded.lookup p.1 = some p.2) ∧
      (∀ client, s.perClientOrdered client ≤ Shares.share client s.credits) ∧
      ((∀ t, (s.stages t).inCall = false) → s.recorded.lookup s.nextSeq = none ∧
        s.ordered = Shares.total s.credits ∧ ∀ client, s.perClientOrdered client = Shares.share client s.credits) ∧
      ∀ p ∈ s.credited, ∃ b log, b.batchSeq = p.1 ∧ (b.numMsg, b.clientId) = p.2 ∧
        { c.descriptor b log with ordered := 1 } ∈ s.marked := by
  have hok : s.Ok c := hrun.invariant (fun _ _ _ hk hstep h => h.step hk hstep) (ok_start c slots)
  refine ⟨hok.looped.positions, fun p hp => hok.looped.tracks.chain.seen_of_mem hp, fun client => ?_, hok.quiet,
    hok.looped.marked⟩
  rw [hok.summed.perClient]
  exact Nat.le_add_right _ _

section Scenario

def smallRing : CorfuTopic := ⟨2, 0, 0, 64, 128, 4096⟩

def writeAll (t : Fin 2) : List (CompletionEvent 2) := List.replicate 10 (.write t)

theorem corfu_completion_exact_reversedRun : ∃ s : Completion 2,
    Runs.Along (step smallRing) (Serial smallRing) { slots := fun _ => {} }
      ([.get 0 ⟨0, 32, 2, 7, 0, 0⟩, .get 1 ⟨1, 32, 3, 8, 2, 32⟩] ++ writeAll 0 ++ writeAll 1 ++
        [.complete 1, .scan 1, .complete 0, .scan 0, .mark 0, .scan 0, .mark 0, .scan 0, .load 0, .store 0, .credit 0,
          .credit 0, .credit 0]) s ∧
      s.ordered = 5 ∧ Shares.total s.credits = 5 := by
  refine Runs.exists_of_exec (fun s : Completion 2 => (s.ordered, decide (∀ t, (s.stages t).inCall = false)))
    (5, true) (by decide +kernel) fun s hrun ha => ?_
  obtain ⟨hordered, hidle⟩ := Prod.mk.inj ha
  obtain ⟨-, -, -, hquiet, -⟩ := corfu_completion_exact hrun
  exact ⟨hordered, (hquiet (of_decide_eq_true hidle)).2.1.symm.trans hordered⟩

/-- Two threads read the counter before either writes it, and one of the updates is lost; and batch 2
takes the slot of batch 0, which is then credited with no descriptor of its own. -/
theorem corfu_completion_inexact :
    (∃ s : Completion 2,
      Runs.Along (step smallRing) Distinct { slots := fun _ => {} }
        ([.get 0 ⟨0, 32, 2, 7, 0, 0⟩, .get 1 ⟨1, 32, 3, 8, 2, 32⟩] ++ writeAll 0 ++ writeAll 1 ++
          [.complete 0, .scan 0, .mark 0, .scan 0, .complete 1, .scan 1, .mark 1, .scan 1, .load 0, .load 1, .store 0,
            .store 1, .credit 0, .credit 0, .credit 1, .credit 1]) s ∧
        (∀ t, s.stages t = .idle) ∧ s.ordered = 3 ∧ Shares.total s.credits = 5) ∧
    ∃ s : Completion 2, Runs.Along (step smallRing) Distinct { slots := fun _ => {} }
        ([.get 0 ⟨0, 32, 2, 7, 0, 0⟩] ++ writeAll 0 ++ [.get 1 ⟨2, 32, 3, 8, 2, 32⟩] ++ writeAll 1 ++
          [.complete 0, .scan 0, .scan 0, .load 0, .store 0, .credit 0, .credit 0]) s ∧
        s.perClientOrdered 7 = 2 ∧ s.credited = [(0, 2, 7)] ∧ s.marked = [] := by
  constructor
  · obtain ⟨s, hrun, ha⟩ := Runs.exists_along_of_exec
      (f := fun s : Completion 2 => (decide (∀ t, s.stages t = .idle), s.ordered, Shares.total s.credits))
      (show (Runs.exec (step smallRing) Distinct ({ slots := fun _ => {} } : Completion 2)
        ([.get 0 ⟨0, 32, 2, 7, 0, 0⟩, .get 1 ⟨1, 32, 3, 8, 2, 32⟩] ++ writeAll 0 ++ writeAll 1 ++
          [.complete 0, .scan 0, .mark 0, .scan 0, .complete 1, .scan 1, .mark 1, .scan 1, .load 0, .load 1, .store 0,
            .store 1, .credit 0, .credit 0, .credit 1, .credit 1])).map _ = some (true, 3, 5) by decide +kernel)
    simp only [Prod.mk.injEq] at ha
    exact ⟨s, hrun, of_decide_eq_true ha.1, ha.2⟩
  · obtain ⟨s, hrun, ha⟩ := Runs.exists_along_of_exec
      (f := fun s : Completion 2 => (s.perClientOrdered 7, s.credited, s.marked))
      (show (Runs.exec (step smallRing) Distinct ({ slots := fun _ => {} } : Completion 2)
        ([.get 0 ⟨0, 32, 2, 7, 0, 0⟩] ++ writeAll 0 ++ [.get 1 ⟨2, 32, 3, 8, 2, 32⟩] ++ writeAll 1 ++
          [.complete 0, .scan 0, .scan 0, .load 0, .store 0, .credit 0, .credit 0])).map _ =
            some (2, [(0, 2, 7)], []) by decide +kernel)
    simp only [Prod.mk.injEq] at ha
    exact ⟨s, hrun, ha⟩

end Scenario

end Completion

end Embarcadero.Corfu
