import Embarcadero.SessionSafety

namespace Embarcadero

open Function (update)

inductive HeaderStore
  | batchSeq (v : Nat)
  | clientId (v : Nat)
  | brokerId (v : Nat)
  | epochCreated (v : Nat)
  | sessionEpoch (v : Nat)
  | sessionEpoch32 (v : Nat)
  | batchId (v : Nat)
  | pbrAbsoluteIndex (v : Nat)
  | startLogicalOffset (v : Nat)
  | logIdx (v : Nat)
  | totalSize (v : Nat)
  | numMsg (v : Nat)
  | batchOffToExport (v : Nat)
  | totalOrder (v : Nat)
  | ordered
  | batchIncomplete
  | uncommit
  | retire

def BatchHeader.store (h : BatchHeader) : HeaderStore → BatchHeader
  | .batchSeq v => { h with batchSeq := v }
  | .clientId v => { h with clientId := v }
  | .brokerId v => { h with brokerId := v }
  | .epochCreated v => { h with epochCreated := v }
  | .sessionEpoch v => { h with sessionEpoch := v }
  | .sessionEpoch32 v => { h with sessionEpoch32 := v }
  | .batchId v => { h with batchId := v }
  | .pbrAbsoluteIndex v => { h with pbrAbsoluteIndex := v }
  | .startLogicalOffset v => { h with startLogicalOffset := v }
  | .logIdx v => { h with logIdx := v }
  | .totalSize v => { h with totalSize := v }
  | .numMsg v => { h with numMsg := v }
  | .batchOffToExport v => { h with batchOffToExport := v }
  | .totalOrder v => { h with totalOrder := v }
  | .ordered => { h with ordered := true }
  | .batchIncomplete => { h with batchComplete := false }
  | .uncommit => { h with publishCommit := none }
  | .retire => { h with claimed := false, valid := false, retired := true }

def HeaderStore.marks : HeaderStore → Bool
  | .batchOffToExport _ | .totalOrder _ | .ordered | .batchIncomplete | .uncommit | .retire => true
  | _ => false

def clearStores : List HeaderStore := [.uncommit, .batchIncomplete, .retire]

def descriptorStores (m : HoldBatchMetadata) (exportSeq totalOrder : Nat) : List HeaderStore :=
  [.batchSeq exportSeq, .clientId m.clientId, .brokerId m.brokerId, .epochCreated m.epochCreated,
    .sessionEpoch (m.sessionEpoch % 2 ^ 16), .sessionEpoch32 m.sessionEpoch, .batchId m.batchId,
    .pbrAbsoluteIndex m.pbrAbsoluteIndex, .startLogicalOffset m.startLogicalOffset,
    .batchOffToExport 0, .logIdx m.logIdx, .totalSize (m.totalSize % 2 ^ 32), .numMsg m.numMsg,
    .totalOrder totalOrder, .ordered, .batchIncomplete, .uncommit, .retire]

def BatchHeader.reserved (b l : Nat) (h : BatchHeader) : BatchHeader :=
  { h with
    brokerId := b, ordered := false, totalOrder := 0, pbrAbsoluteIndex := l
    batchId := b * 2 ^ 48 + l }

def BatchHeader.claim (h : BatchHeader) : BatchHeader :=
  { h with
    claimed := true, valid := false, retired := false
    batchComplete := false, publishCommit := none }

def BatchHeader.publication (h : BatchHeader) : BatchHeader :=
  { h with claimed := true, valid := true, publishCommit := none }

def maxReasonableNumMsg : Nat := 100000

def BatchHeader.batchReady (h : BatchHeader) : Bool :=
  h.publishCommitted && h.batchComplete && decide (0 < h.numMsg ∧ h.numMsg ≤ maxReasonableNumMsg)

def BatchHeader.exclusiveClaim (h : BatchHeader) : Bool := h.claimed && !h.valid && !h.retired

theorem BatchHeader.exclusiveClaim_store {h : BatchHeader} (hx : h.exclusiveClaim = false)
    (w : HeaderStore) : (h.store w).exclusiveClaim = false := by
  cases w with
  | retire => rfl
  | _ => exact hx

theorem BatchHeader.publishCommit_store {h : BatchHeader} {w : HeaderStore} {l : Nat}
    (hc : (h.store w).publishCommit = some l) : h.publishCommit = some l := by
  cases w with
  | uncommit => cases hc
  | _ => exact hc

theorem BatchHeader.ofSlot_store {w : HeaderStore} (hw : w.marks = true) (b i : Nat)
    (h : BatchHeader) : PendingBatch5.ofSlot b i (h.store w) = .ofSlot b i h := by
  cases w with
  | batchOffToExport _ | totalOrder _ | ordered | batchIncomplete | uncommit | retire => rfl
  | _ => cases hw

inductive ReceiverPhase
  | reserved
  | claimed
  | checked
  | copied
  | completed
  | published
  | rejected
  deriving DecidableEq

structure SlotRing where
  slot : Nat → BatchHeader := fun _ => {}
  header : List BatchHeader := []
  phase : Nat → ReceiverPhase := fun _ => .reserved
  lifecycleMu : Option Nat := none
  reading : Option (Nat × Nat) := none
  lastPushedPbrIndex : Nat → Option Nat := fun _ => none
  owner : Nat → Option Nat := fun _ => none
  published : List (Nat × BatchHeader) := []
  accepted : List PendingBatch5 := []

/-- What a receiver does with its reservation: `InstallPBRClaim`, then the stages of
`PublishPBRSlotDirect`. -/
inductive ReceiverStep
  | install
  | check
  | copy
  | complete
  | publish

inductive SlotEvent
  | reserve (h : BatchHeader)
  | receiver (l : Nat) (r : ReceiverStep)
  | inspect (i : Nat)
  | push
  | store (i : Nat) (w : HeaderStore)

namespace SlotRing

variable (b N : Nat) (s : SlotRing)

def receiverWrites (l : Nat) (h : BatchHeader) (q : ReceiverPhase) : SlotRing :=
  { s with slot := update s.slot (l % N) h, phase := update s.phase l q }

def pending (i numMsg : Nat) : PendingBatch5 := { PendingBatch5.ofSlot b i (s.slot i) with numMsg }

def receive (l : Nat) (h : BatchHeader) : ReceiverStep → Option SlotRing
  | .install =>
    if s.phase l = .reserved ∧ s.lifecycleMu = none then
      some { s.receiverWrites N l h.claim .claimed with owner := update s.owner (l % N) (some l) }
    else none
  | .check =>
    if s.phase l = .claimed ∧ s.lifecycleMu = none then
      if (s.slot (l % N)).claimOwnedBy h then
        some { s with phase := update s.phase l .checked, lifecycleMu := some l }
      else some { s with phase := update s.phase l .rejected }
    else none
  | .copy =>
    if s.phase l = .checked then
      some { s.receiverWrites N l h.publication .copied with
        published := s.published ++ [(l, s.slot (l % N))] }
    else none
  | .complete =>
    if s.phase l = .copied then
      some (s.receiverWrites N l { s.slot (l % N) with batchComplete := true } .completed)
    else none
  | .publish =>
    if s.phase l = .completed then
      some { s.receiverWrites N l
        { s.slot (l % N) with publishCommit := some h.pbrAbsoluteIndex } .published with
          lifecycleMu := none }
    else none

def step : SlotEvent → Option SlotRing
  | .reserve h => some { s with header := s.header ++ [h.reserved b s.header.length] }
  | .inspect i =>
    if s.reading = none ∧ (s.slot i).batchReady then
      some { s with reading := some (i, (s.slot i).numMsg) }
    else none
  | .push => s.reading.map fun r =>
    let p := s.pending b r.1 r.2
    if s.lastPushedPbrIndex r.1 = some p.cachedPbrAbsoluteIndex then { s with reading := none }
    else { s with
      reading := none
      lastPushedPbrIndex := update s.lastPushedPbrIndex r.1 (some p.cachedPbrAbsoluteIndex)
      accepted := s.accepted ++ [p] }
  | .store i w => some { s with
      slot := update s.slot i ((s.slot i).store w)
      owner := if w.marks then s.owner else update s.owner i none }
  | .receiver l r => s.header[l]?.bind fun h => s.receive N l h r

def Unraced : SlotEvent → Prop
  | .receiver l .install => ∀ r ∈ s.reading, r.1 ≠ l % N
  | .store i w => w.marks = false →
      (∀ r ∈ s.reading, r.1 ≠ i) ∧ ∀ l ∈ s.owner i, s.lastPushedPbrIndex i = some l
  | _ => True

instance (e : SlotEvent) : Decidable (s.Unraced N e) := by
  cases e with
  | receiver _ a => cases a <;> dsimp only [Unraced] <;> infer_instance
  | _ => dsimp only [Unraced]; infer_instance

def Carried (l : Nat) (h : BatchHeader) (content : BatchHeader) : Prop :=
  PendingBatch5.ofSlot b (l % N) content = .ofSlot b (l % N) h

structure Ok : Prop where
  index : ∀ (l : Nat) (h : BatchHeader), s.header[l]? = some h → h.pbrAbsoluteIndex = l
  owner : ∀ i l, s.owner i = some l → l % N = i ∧ ∃ h, s.header[l]? = some h ∧ Carried b N l h (s.slot i)
  free : ∀ i, s.owner i = none → (s.slot i).exclusiveClaim = false
  taken : ∀ i l, s.owner i = some l → s.phase l ∈ [.copied, .completed, .published] →
    (s.slot i).exclusiveClaim = false
  holder : ∀ l, s.phase l ∈ [.checked, .copied, .completed] → s.lifecycleMu = some l ∧ s.owner (l % N) = some l
  committed : ∀ i l, (s.slot i).publishCommit = some l → s.phase l = .published ∧
    (s.owner i = some l ∨ s.owner i = none ∧ s.lastPushedPbrIndex i = some l)
  pushed : ∀ i l, s.lastPushedPbrIndex i = some l → s.phase l = .published
  reading : ∀ i n, s.reading = some (i, n) →
    (∃ l h, s.owner i = some l ∧ s.phase l = .published ∧ s.header[l]? = some h ∧ n = h.numMsg) ∨
      s.lastPushedPbrIndex i = some (s.slot i).pbrAbsoluteIndex
  success : ∀ l, s.phase l ∈ [.copied, .completed, .published] → ∃ old, (l, old) ∈ s.published
  published : ∀ l old, (l, old) ∈ s.published → ∃ h, s.header[l]? = some h ∧ Carried b N l h old
  accepted : ∀ p ∈ s.accepted, ∃ l h, s.header[l]? = some h ∧ p = .ofSlot b (l % N) h

variable {b N s} {l i : Nat} {h : BatchHeader}

variable {c : BatchHeader} {l' : Nat} {q : ReceiverPhase}

theorem Carried.index (hc : Carried b N l h c) : c.pbrAbsoluteIndex = h.pbrAbsoluteIndex :=
  congrArg PendingBatch5.cachedPbrAbsoluteIndex hc

theorem Carried.numMsg (hc : Carried b N l h c) : c.numMsg = h.numMsg :=
  congrArg PendingBatch5.numMsg hc

theorem ok_start : ({} : SlotRing).Ok b N where
  index _ _ hh := nomatch hh
  owner _ _ ho := nomatch ho
  free _ _ := rfl
  taken _ _ ho := nomatch ho
  holder _ hl := nomatch hl
  committed _ _ hc := nomatch hc
  pushed _ _ hp := nomatch hp
  reading _ _ hr := nomatch hr
  success _ hl := nomatch hl
  published _ _ hp := nomatch hp
  accepted _ hp := nomatch hp

theorem published_update (hl : s.phase l ≠ .published) (hl' : s.phase l' = .published) :
    update s.phase l q l' = .published := by
  rw [Function.update_of_ne]
  · exact hl'
  · intro heq
    exact hl (heq ▸ hl')

theorem mem_update {qs : List ReceiverPhase} (hq : q ∉ qs) (hl' : update s.phase l q l' ∈ qs) :
    l' ≠ l ∧ s.phase l' ∈ qs := by
  rw [Function.update_apply] at hl'
  split at hl'
  · exact absurd hl' hq
  · exact ⟨‹_›, hl'⟩

namespace Ok

theorem slot_index (hok : s.Ok b N) (ho : s.owner i = some l) : (s.slot i).pbrAbsoluteIndex = l := by
  obtain ⟨-, h, hh, hc⟩ := hok.owner i l ho
  rw [hc.index, hok.index l h hh]

theorem reserve (hok : s.Ok b N) (h : BatchHeader) :
    Ok b N { s with header := s.header ++ [h.reserved b s.header.length] } := by
  have hmore : ∀ {l : Nat} {g : BatchHeader}, s.header[l]? = some g →
      (s.header ++ [h.reserved b s.header.length])[l]? = some g := by
    intro l g hg
    have hlt := (List.getElem?_eq_some_iff.mp hg).1
    rw [List.getElem?_append_left hlt]
    exact hg
  exact { hok with
    index := by
      intro l g hg
      dsimp only at hg
      rw [List.getElem?_append] at hg
      split at hg
      · exact hok.index l g hg
      · have hlt := (List.getElem?_eq_some_iff.mp hg).1
        rw [List.length_singleton] at hlt
        have hl : l = s.header.length := by omega
        rw [hl, Nat.sub_self] at hg
        cases hg
        exact hl.symm
    owner := fun i l ho => (hok.owner i l ho).imp_right fun ⟨g, hg, hc⟩ => ⟨g, hmore hg, hc⟩
    reading := fun i n hr => (hok.reading i n hr).imp_left fun ⟨l, g, ho, hp, hg, hn⟩ => ⟨l, g, ho, hp, hmore hg, hn⟩
    published := fun l old ho => (hok.published l old ho).imp fun g hg => hg.imp_left hmore
    accepted := fun p hp => (hok.accepted p hp).imp fun l hl => hl.imp fun g hg =>
      hg.imp_left hmore }

theorem not_reading (hok : s.Ok b N) (ho : s.owner i = some l) (hl : s.phase l ≠ .published)
    {n : Nat} : s.reading ≠ some (i, n) := by
  intro hr
  cases hok.reading i n hr with
  | inl hcase =>
    obtain ⟨l', h, ho', hp, -⟩ := hcase
    cases ho.symm.trans ho'
    exact hl hp
  | inr hpushed =>
    rw [hok.slot_index ho] at hpushed
    exact hl (hok.pushed i l hpushed)

theorem install (hok : s.Ok b N) (hh : s.header[l]? = some h) (hphase : s.phase l = .reserved)
    (hmu : s.lifecycleMu = none) (hread : ∀ r ∈ s.reading, r.1 ≠ l % N) :
    Ok b N { s.receiverWrites N l h.claim .claimed with
      owner := update s.owner (l % N) (some l) } := by
  have hnew : s.phase l ≠ .published := by
    rw [hphase]
    exact ReceiverPhase.noConfusion
  exact {
    index := hok.index
    owner := by
      intro i l' ho
      dsimp only [receiverWrites] at ho ⊢
      rw [Function.update_apply] at ho
      split at ho
      · cases ho
        rename_i hi
        subst hi
        refine ⟨rfl, h, hh, ?_⟩
        rw [Function.update_self]
        rfl
      · rw [Function.update_of_ne ‹_›]
        exact hok.owner i l' ho
    free := by
      intro i ho
      dsimp only [receiverWrites] at ho ⊢
      rw [Function.update_apply] at ho
      split at ho
      · cases ho
      · rw [Function.update_of_ne ‹_›]
        exact hok.free i ho
    taken := by
      intro i l' ho hl'
      have hold := mem_update (by decide) hl'
      dsimp only [receiverWrites] at ho ⊢
      rw [Function.update_apply] at ho
      split at ho
      · cases ho
        exact absurd rfl hold.1
      · rw [Function.update_of_ne ‹_›]
        exact hok.taken i l' ho hold.2
    holder := by
      intro l' hl'
      have hold := (hok.holder l' (mem_update (by decide) hl').2).1
      rw [hmu] at hold
      cases hold
    committed := by
      intro i l' hc
      dsimp only [receiverWrites] at hc ⊢
      rw [Function.update_apply] at hc
      split at hc
      · cases hc
      · have hold := hok.committed i l' hc
        refine ⟨published_update hnew hold.1, ?_⟩
        rw [Function.update_of_ne ‹_›]
        exact hold.2
    pushed := fun i l' hp => published_update hnew (hok.pushed i l' hp)
    reading := by
      intro i n hr
      have hne := hread (i, n) hr
      dsimp only [receiverWrites]
      rw [Function.update_of_ne hne, Function.update_of_ne hne]
      exact (hok.reading i n hr).imp_left fun ⟨l', g, ho, hp, hg⟩ =>
        ⟨l', g, ho, published_update hnew hp, hg⟩
    success := fun l' hl' => hok.success l' (mem_update (by decide) hl').2
    published := hok.published
    accepted := hok.accepted }

theorem owner_of_claimOwnedBy (hok : s.Ok b N) (hh : s.header[l]? = some h)
    (hc : (s.slot (l % N)).claimOwnedBy h = true) : s.owner (l % N) = some l := by
  simp only [BatchHeader.claimOwnedBy, Bool.and_eq_true, beq_iff_eq] at hc
  obtain ⟨⟨⟨⟨⟨⟨hindex, -⟩, hclaimed⟩, hvalid⟩, hretired⟩, -⟩, -⟩ := hc
  cases ho : s.owner (l % N) with
  | none =>
    have hfree := hok.free _ ho
    rw [BatchHeader.exclusiveClaim, hclaimed, hvalid, hretired] at hfree
    cases hfree
  | some l' =>
    rw [hok.slot_index ho, hok.index l h hh] at hindex
    rw [hindex]

theorem checked (hok : s.Ok b N) (hh : s.header[l]? = some h) (hphase : s.phase l = .claimed)
    (hmu : s.lifecycleMu = none) (hc : (s.slot (l % N)).claimOwnedBy h = true) :
    Ok b N { s with phase := update s.phase l .checked, lifecycleMu := some l } := by
  have hnew : s.phase l ≠ .published := by
    rw [hphase]
    exact ReceiverPhase.noConfusion
  exact { hok with
    taken := fun i l' ho hl' => hok.taken i l' ho (mem_update (by decide) hl').2
    holder := by
      intro l' hl'
      dsimp only at hl' ⊢
      rw [Function.update_apply] at hl'
      split at hl'
      next heq =>
        rw [heq]
        exact ⟨rfl, hok.owner_of_claimOwnedBy hh hc⟩
      · have hold := (hok.holder l' hl').1
        rw [hmu] at hold
        cases hold
    committed := fun i l' hc => (hok.committed i l' hc).imp_left (published_update hnew)
    pushed := fun i l' hp => published_update hnew (hok.pushed i l' hp)
    reading := fun i n hr => (hok.reading i n hr).imp_left fun ⟨l', g, ho, hp, hg⟩ =>
      ⟨l', g, ho, published_update hnew hp, hg⟩
    success := fun l' hl' => hok.success l' (mem_update (by decide) hl').2 }

theorem rejected (hok : s.Ok b N) (hphase : s.phase l = .claimed) :
    Ok b N { s with phase := update s.phase l .rejected } := by
  have hnew : s.phase l ≠ .published := by
    rw [hphase]
    exact ReceiverPhase.noConfusion
  exact { hok with
    taken := fun i l' ho hl' => hok.taken i l' ho (mem_update (by decide) hl').2
    holder := fun l' hl' => hok.holder l' (mem_update (by decide) hl').2
    committed := fun i l' hc => (hok.committed i l' hc).imp_left (published_update hnew)
    pushed := fun i l' hp => published_update hnew (hok.pushed i l' hp)
    reading := fun i n hr => (hok.reading i n hr).imp_left fun ⟨l', g, ho, hp, hg⟩ =>
      ⟨l', g, ho, published_update hnew hp, hg⟩
    success := fun l' hl' => hok.success l' (mem_update (by decide) hl').2 }

theorem write (hok : s.Ok b N) {c : BatchHeader} {q : ReceiverPhase} {mu : Option Nat} {log : List (Nat × BatchHeader)}
    (hh : s.header[l]? = some h) (hphase : s.phase l ∈ [.checked, .copied, .completed])
    (hq : q ∈ [ReceiverPhase.copied, .completed, .published]) (hc : Carried b N l h c) (hx : c.exclusiveClaim = false)
    (hcommit : ∀ l', c.publishCommit = some l' → l' = l ∧ q = .published) (hmu : q = .published ∨ mu = s.lifecycleMu)
    (hlog : log = s.published ++ [(l, s.slot (l % N))] ∨ log = s.published ∧ s.phase l ≠ .checked) :
    Ok b N { s.receiverWrites N l c q with lifecycleMu := mu, published := log } := by
  have hhold := hok.holder l hphase
  have hnew : s.phase l ≠ .published := by
    intro heq
    rw [heq] at hphase
    revert hphase
    decide
  have hsub : ∀ x ∈ s.published, x ∈ log := by
    intro x hx
    cases hlog with
    | inl happ =>
      rw [happ]
      exact List.mem_append_left _ hx
    | inr hsame => exact hsame.1 ▸ hx
  exact {
    index := hok.index
    owner := by
      intro i l' ho
      dsimp only [receiverWrites] at ho ⊢
      rw [Function.update_apply]
      split
      next hi =>
        rw [hi, hhold.2] at ho
        cases ho
        exact ⟨hi.symm, h, hh, hc⟩
      · exact hok.owner i l' ho
    free := by
      intro i ho
      dsimp only [receiverWrites] at ho ⊢
      rw [Function.update_apply]
      split
      · exact hx
      · exact hok.free i ho
    taken := by
      intro i l' ho hl'
      dsimp only [receiverWrites] at ho hl' ⊢
      rw [Function.update_apply]
      split
      · exact hx
      next hi =>
        rw [Function.update_of_ne] at hl'
        · exact hok.taken i l' ho hl'
        · intro heq
          exact hi ((hok.owner i l' ho).1.symm.trans (heq ▸ rfl))
    holder := by
      intro l' hl'
      dsimp only [receiverWrites] at hl' ⊢
      rw [Function.update_apply] at hl'
      split at hl'
      next heq =>
        rw [heq]
        refine ⟨?_, hhold.2⟩
        cases hmu with
        | inl hpub =>
          rw [hpub] at hl'
          exact absurd hl' (by decide)
        | inr hsame => exact hsame.trans hhold.1
      next hne =>
        have hold := (hok.holder l' hl').1
        rw [hhold.1] at hold
        exact absurd (Option.some.inj hold).symm hne
    committed := by
      intro i l' hcl
      dsimp only [receiverWrites] at hcl ⊢
      rw [Function.update_apply] at hcl
      split at hcl
      next hi =>
        obtain ⟨rfl, rfl⟩ := hcommit l' hcl
        rw [Function.update_self, hi]
        exact ⟨rfl, .inl hhold.2⟩
      · exact (hok.committed i l' hcl).imp_left (published_update hnew)
    pushed := fun i l' hp => published_update hnew (hok.pushed i l' hp)
    reading := by
      intro i n hr
      have hne : i ≠ l % N := fun hi => hok.not_reading hhold.2 hnew (hi ▸ hr)
      dsimp only [receiverWrites]
      rw [Function.update_of_ne hne]
      exact (hok.reading i n hr).imp_left fun ⟨l', g, ho, hp, hg⟩ =>
        ⟨l', g, ho, published_update hnew hp, hg⟩
    success := by
      intro l' hl'
      dsimp only [receiverWrites] at hl' ⊢
      rw [Function.update_apply] at hl'
      split at hl'
      next heq =>
        rw [heq]
        cases hlog with
        | inl happ =>
          rw [happ]
          exact ⟨_, List.mem_append_right _ (List.mem_singleton.mpr rfl)⟩
        | inr hsame =>
          have hrest := (List.mem_cons.mp hphase).resolve_left hsame.2
          obtain ⟨old, hold⟩ := hok.success l (List.mem_append_left [ReceiverPhase.published] hrest)
          exact ⟨old, hsub _ hold⟩
      · exact (hok.success l' hl').imp fun old hold => hsub _ hold
    published := by
      intro l' old hmem
      dsimp only at hmem
      cases hlog with
      | inl happ =>
        rw [happ] at hmem
        cases List.mem_append.mp hmem with
        | inl hold => exact hok.published l' old hold
        | inr hlast =>
          cases List.mem_singleton.mp hlast
          exact (hok.owner _ l hhold.2).2
      | inr hsame => exact hok.published l' old (hsame.1 ▸ hmem)
    accepted := hok.accepted }

theorem receive (hok : s.Ok b N) {t : SlotRing} {r : ReceiverStep} (hh : s.header[l]? = some h)
    (hk : s.Unraced N (.receiver l r)) (hstep : s.receive N l h r = some t) : t.Ok b N := by
  cases r with
  | install =>
    obtain ⟨hguard, rfl⟩ := Runs.of_guard hstep
    exact hok.install hh hguard.1 hguard.2 hk
  | check =>
    rw [SlotRing.receive] at hstep
    split at hstep
    next hguard =>
      split at hstep
      · cases hstep
        exact hok.checked hh hguard.1 hguard.2 ‹_›
      · cases hstep
        exact hok.rejected hguard.1
    · cases hstep
  | copy =>
    obtain ⟨hphase, rfl⟩ := Runs.of_guard hstep
    exact hok.write hh (by rw [hphase]; decide) (by decide) rfl (by rfl) nofun (.inr rfl) (.inl rfl)
  | complete =>
    obtain ⟨hphase, rfl⟩ := Runs.of_guard hstep
    have hlocked : s.phase l ∈ [.checked, .copied, .completed] := by
      rw [hphase]
      decide
    have ho := (hok.holder l hlocked).2
    obtain ⟨-, g, hg, hcarried⟩ := hok.owner _ l ho
    cases hh.symm.trans hg
    have hcommit : ∀ l', (s.slot (l % N)).publishCommit = some l' →
        l' = l ∧ ReceiverPhase.completed = .published := by
      intro l' hl'
      have hpub := hok.committed _ l' hl'
      rw [ho] at hpub
      cases hpub.2 with
      | inl heq =>
        cases heq
        rw [hphase] at hpub
        cases hpub.1
      | inr hfree => cases hfree.1
    exact hok.write hh hlocked (by decide) hcarried (hok.taken _ l ho (by rw [hphase]; decide)) hcommit (.inr rfl)
      (.inr ⟨rfl, by rw [hphase]; decide⟩)
  | publish =>
    obtain ⟨hphase, rfl⟩ := Runs.of_guard hstep
    have hlocked : s.phase l ∈ [.checked, .copied, .completed] := by
      rw [hphase]
      decide
    have ho := (hok.holder l hlocked).2
    obtain ⟨-, g, hg, hcarried⟩ := hok.owner _ l ho
    cases hh.symm.trans hg
    have hcommit : ∀ l', some h.pbrAbsoluteIndex = some l' → l' = l ∧ ReceiverPhase.published = .published := by
      intro l' hl'
      cases hl'
      exact ⟨hok.index l h hh, rfl⟩
    exact hok.write hh hlocked (by decide) hcarried (hok.taken _ l ho (by rw [hphase]; decide)) hcommit (.inl rfl)
      (.inr ⟨rfl, by rw [hphase]; decide⟩)

theorem inspect (hok : s.Ok b N) (hready : (s.slot i).batchReady = true) :
    Ok b N { s with reading := some (i, (s.slot i).numMsg) } :=
  { hok with
    reading := by
      intro i' n hr
      cases hr
      simp only [BatchHeader.batchReady, BatchHeader.publishCommitted, Bool.and_eq_true, beq_iff_eq] at hready
      have hcommitted := hok.committed i _ hready.1.1
      cases hcommitted.2 with
      | inl ho =>
        obtain ⟨-, h, hh, hc⟩ := hok.owner i _ ho
        exact .inl ⟨_, h, ho, hcommitted.1, hh, hc.numMsg⟩
      | inr hfree => exact .inr hfree.2 }

theorem pending_eq (hok : s.Ok b N) (ho : s.owner i = some l) (hh : s.header[l]? = some h) :
    s.pending b i h.numMsg = .ofSlot b (l % N) h := by
  obtain ⟨hi, g, hg, hc⟩ := hok.owner i l ho
  cases hh.symm.trans hg
  subst hi
  rw [pending, show PendingBatch5.ofSlot b (l % N) (s.slot (l % N)) = _ from hc]
  rfl

theorem push (hok : s.Ok b N) {n : Nat} (hr : s.reading = some (i, n))
    (hnew : s.lastPushedPbrIndex i ≠ some (s.slot i).pbrAbsoluteIndex) :
    Ok b N { s with
      reading := none
      lastPushedPbrIndex := update s.lastPushedPbrIndex i (some (s.slot i).pbrAbsoluteIndex)
      accepted := s.accepted ++ [s.pending b i n] } := by
  obtain ⟨l, h, ho, hp, hh, rfl⟩ := (hok.reading i n hr).resolve_right hnew
  have hindex := hok.slot_index ho
  exact { hok with
    committed := by
      intro i' l' hc
      have hold := hok.committed i' l' hc
      refine ⟨hold.1, hold.2.imp_right fun hfree => ⟨hfree.1, ?_⟩⟩
      dsimp only
      rw [Function.update_of_ne]
      · exact hfree.2
      · intro heq
        rw [heq, ho] at hfree
        cases hfree.1
    pushed := by
      intro i' l' hl'
      dsimp only at hl'
      rw [Function.update_apply] at hl'
      split at hl'
      · cases hl'
        rw [hindex]
        exact hp
      · exact hok.pushed i' l' hl'
    reading := nofun
    accepted := by
      intro p hmem
      cases List.mem_append.mp hmem with
      | inl hold => exact hok.accepted p hold
      | inr hlast =>
        rw [List.mem_singleton.mp hlast]
        exact ⟨l, h, hh, hok.pending_eq ho hh⟩ }

theorem store_mark (hok : s.Ok b N) {w : HeaderStore} (hw : w.marks = true) (i : Nat) :
    Ok b N { s with slot := update s.slot i ((s.slot i).store w) } := by
  have hslot : ∀ i' j, PendingBatch5.ofSlot b j (update s.slot i ((s.slot i).store w) i') =
      .ofSlot b j (s.slot i') := by
    intro i' j
    rw [Function.update_apply]
    split
    next hi =>
      rw [hi]
      exact BatchHeader.ofSlot_store hw b j _
    · rfl
  have hclaim : ∀ i', (s.slot i').exclusiveClaim = false →
      (update s.slot i ((s.slot i).store w) i').exclusiveClaim = false := by
    intro i' hx
    rw [Function.update_apply]
    split
    next hi => exact BatchHeader.exclusiveClaim_store (hi ▸ hx) w
    · exact hx
  exact { hok with
    owner := fun i' l' ho => (hok.owner i' l' ho).imp_right fun ⟨h, hh, hc⟩ =>
      ⟨h, hh, (hslot i' _).trans hc⟩
    free := fun i' ho => hclaim i' (hok.free i' ho)
    taken := fun i' l' ho hl' => hclaim i' (hok.taken i' l' ho hl')
    committed := by
      intro i' l' hc
      apply hok.committed i' l'
      dsimp only at hc
      rw [Function.update_apply] at hc
      split at hc
      next hi =>
        rw [hi]
        exact BatchHeader.publishCommit_store hc
      · exact hc
    reading := by
      intro i' n hr
      have hindex := congrArg PendingBatch5.cachedPbrAbsoluteIndex (hslot i' 0)
      exact (hok.reading i' n hr).imp_right fun hp => hp.trans (congrArg some hindex.symm) }

theorem store_field (hok : s.Ok b N) (w : HeaderStore) (hread : ∀ r ∈ s.reading, r.1 ≠ i)
    (hfree : ∀ l ∈ s.owner i, s.lastPushedPbrIndex i = some l) :
    Ok b N { s with
      slot := update s.slot i ((s.slot i).store w), owner := update s.owner i none } := by
  have hclaim : (s.slot i).exclusiveClaim = false := by
    cases ho : s.owner i with
    | none => exact hok.free i ho
    | some l =>
      apply hok.taken i l ho
      rw [hok.pushed i l (hfree l ho)]
      decide
  exact { hok with
    owner := by
      intro i' l ho
      dsimp only at ho ⊢
      rw [Function.update_apply] at ho
      split at ho
      · cases ho
      · rw [Function.update_of_ne ‹_›]
        exact hok.owner i' l ho
    free := by
      intro i' ho
      dsimp only at ho ⊢
      rw [Function.update_apply]
      split
      · exact BatchHeader.exclusiveClaim_store hclaim w
      next hne =>
        rw [Function.update_of_ne hne] at ho
        exact hok.free i' ho
    taken := by
      intro i' l ho hl
      dsimp only at ho ⊢
      rw [Function.update_apply] at ho
      split at ho
      · cases ho
      · rw [Function.update_of_ne ‹_›]
        exact hok.taken i' l ho hl
    holder := by
      intro l hl
      have hold := hok.holder l hl
      refine ⟨hold.1, ?_⟩
      dsimp only
      rw [Function.update_of_ne]
      · exact hold.2
      · intro hi
        have hpub := hok.pushed i l (hfree l (hi ▸ hold.2))
        rw [hpub] at hl
        exact absurd hl (by decide)
    committed := by
      intro i' l hc
      dsimp only at hc ⊢
      rw [Function.update_apply] at hc
      split at hc
      next hi =>
        have hold := hok.committed i l (BatchHeader.publishCommit_store hc)
        rw [hi, Function.update_self]
        exact ⟨hold.1, .inr ⟨rfl, hold.2.elim (hfree l) fun hnone => hnone.2⟩⟩
      next hne =>
        rw [Function.update_of_ne hne]
        exact hok.committed i' l hc
    reading := by
      intro i' n hr
      have hne := hread (i', n) hr
      dsimp only
      rw [Function.update_of_ne hne, Function.update_of_ne hne]
      exact hok.reading i' n hr }

theorem step (hok : s.Ok b N) {t : SlotRing} {e : SlotEvent} (hk : s.Unraced N e)
    (hstep : s.step b N e = some t) : t.Ok b N := by
  cases e with
  | reserve h =>
    cases hstep
    exact hok.reserve h
  | receiver l r =>
    obtain ⟨h, hh, hrec⟩ := Option.bind_eq_some_iff.mp hstep
    exact hok.receive hh hk hrec
  | inspect i =>
    obtain ⟨hguard, rfl⟩ := Runs.of_guard hstep
    exact hok.inspect hguard.2
  | push =>
    obtain ⟨r, hr, rfl⟩ := Option.map_eq_some_iff.mp hstep
    dsimp only
    split
    · exact { hok with reading := nofun }
    · exact hok.push hr ‹_›
  | store i w =>
    cases hstep
    cases hw : w.marks with
    | true =>
      rw [if_pos rfl]
      exact hok.store_mark hw i
    | false =>
      rw [if_neg Bool.false_ne_true]
      exact hok.store_field w (hk hw).1 (hk hw).2

end Ok

end SlotRing

/-- In a run without such races, a publication that succeeds has overwritten the claim of its own
reservation, and every batch the scanner pushes is the header of one reservation. -/
theorem pbr_slot_ownership {b N : Nat} {es : List SlotEvent} {s : SlotRing}
    (hrun : Runs.Along (SlotRing.step b N) (SlotRing.Unraced N) {} es s) :
    (∀ l, s.phase l = .published → ∃ old, (l, old) ∈ s.published) ∧
      (∀ l old, (l, old) ∈ s.published → old.pbrAbsoluteIndex = l ∧
        ∃ h, s.header[l]? = some h ∧ SlotRing.Carried b N l h old) ∧
      ∀ p ∈ s.accepted, ∃ l h, s.header[l]? = some h ∧ p = .ofSlot b (l % N) h := by
  have hok := hrun.invariant (fun _ _ _ hk hs hok => hok.step hk hs) SlotRing.ok_start
  refine ⟨fun l hl => hok.success l (by rw [hl]; decide), fun l old hmem => ?_, hok.accepted⟩
  obtain ⟨h, hh, hc⟩ := hok.published l old hmem
  exact ⟨hc.index.trans (hok.index l h hh), h, hh, hc⟩

section Scenario

def arrivedHeader (client : Nat) : BatchHeader :=
  { clientId := client, numMsg := 1, sessionEpoch := 1, sessionEpoch32 := 1, totalSize := 64 }

def publishSteps (l : Nat) : List SlotEvent :=
  [.receiver l .check, .receiver l .copy, .receiver l .complete, .receiver l .publish]

def exportSteps (i l : Nat) (client : Nat) : List SlotEvent :=
  (descriptorStores (PendingBatch5.ofSlot 0 i ((arrivedHeader client).reserved 0 l)).cachedMeta 0 0).map (.store i)

def lateReceiver : List SlotEvent :=
  List.flatten [ [.reserve (arrivedHeader 7), .receiver 0 .install], publishSteps 0, [.inspect 0, .push],
    exportSteps 0 0 7, clearStores.map (.store 0),
    [.reserve (arrivedHeader 8), .receiver 1 .install, .reserve (arrivedHeader 9),
      .reserve (arrivedHeader 10), .reserve (arrivedHeader 11), .reserve (arrivedHeader 12),
      .receiver 5 .install, .receiver 1 .check],
    publishSteps 5, [.inspect 1, .push]]

theorem pbr_slot_ownership_lateReceiver :
    ∃ s, Runs.Along (SlotRing.step 0 4) (SlotRing.Unraced 4) {} lateReceiver s ∧
      s.phase 1 = .rejected ∧ s.accepted.map (·.cachedPbrAbsoluteIndex) = [0, 5] ∧
      ∀ p ∈ s.accepted, ∃ l h, s.header[l]? = some h ∧ p = .ofSlot 0 (l % 4) h := by
  refine Runs.exists_of_exec (fun s : SlotRing => (s.phase 1, s.accepted.map (·.cachedPbrAbsoluteIndex)))
    (.rejected, [0, 5]) (by decide +kernel) fun s hrun ha => ?_
  obtain ⟨hphase, hindex⟩ := Prod.mk.inj ha
  exact ⟨hphase, hindex, (pbr_slot_ownership hrun).2.2⟩

def firstDescriptor : BatchHeader :=
  Commit.descriptor (PendingBatch5.ofSlot 0 1 ((arrivedHeader 8).reserved 0 1)).cachedMeta 0 0

def skippedClaim : List Event :=
  [.slotWrite ⟨0, 0⟩ ((arrivedHeader 7).reserved 0 0).claim,
    .slotWrite ⟨0, 1⟩ { ((arrivedHeader 8).reserved 0 1).publication with
      batchComplete := true, publishCommit := some 1 },
    .epoch [.skipMarker 0 0 ((arrivedHeader 7).reserved 0 0).claim,
      .ofSlot 0 1 ((arrivedHeader 8).reserved 0 1)] (scenarioClock 1)]

def overtakenReceiver : List SlotEvent :=
  List.flatten [ [.reserve (arrivedHeader 7), .receiver 0 .install, .reserve (arrivedHeader 8),
      .receiver 1 .install], publishSteps 1, [.inspect 1, .push, .receiver 0 .check],
    (descriptorStores (PendingBatch5.ofSlot 0 1 ((arrivedHeader 8).reserved 0 1)).cachedMeta 0 0).map (.store 0),
    [.receiver 0 .copy, .receiver 0 .complete, .receiver 0 .publish]]

/-- `CommitEpoch` writes the descriptor of position 1 into slot 0, without the mutex; the receiver
of position 0 overwrites it and reports success. -/
theorem pbr_publication_overwrites :
    ∃ t s, Runs.Along (step .small) (fun _ _ => True) (.fresh .small) skippedClaim t ∧
      .exportDescriptor ⟨0, 0⟩ firstDescriptor ∈ t.pendingWrites .small ∧
      Runs.Along (SlotRing.step 0 4) (fun _ _ => True) {} overtakenReceiver s ∧
      s.phase 0 = .published ∧ (0, firstDescriptor) ∈ s.published ∧
      ¬∀ l old, (l, old) ∈ s.published → old.pbrAbsoluteIndex = l := by
  obtain ⟨t, hrun, ht⟩ := Runs.exists_along_of_exec (K := fun _ _ => True) (f := fun t : Topic =>
      decide (.exportDescriptor ⟨0, 0⟩ firstDescriptor ∈ t.pendingWrites .small))
    (show (Runs.exec (step .small) (fun _ _ => True) (.fresh .small) skippedClaim).map _ =
      some true by decide +kernel)
  obtain ⟨s, hslots, hs⟩ := Runs.exists_along_of_exec (K := fun _ _ => True)
    (f := fun s : SlotRing => (s.phase 0, decide ((0, firstDescriptor) ∈ s.published)))
    (show (Runs.exec (SlotRing.step 0 4) (fun _ _ => True) {} overtakenReceiver).map _ =
      some (.published, true) by decide +kernel)
  obtain ⟨hphase, hmem⟩ := Prod.mk.inj hs
  have hmem := of_decide_eq_true hmem
  exact ⟨t, s, hrun, of_decide_eq_true ht, hslots, hphase, hmem, fun hall => absurd (hall 0 _ hmem) (by decide)⟩

end Scenario

end Embarcadero
