import Embarcadero.Custody
import Embarcadero.SlotOwnership

namespace Embarcadero

open Function (update update_apply)
open List

def BatchHeader.readable (h : BatchHeader) : Bool := h.claimed || h.valid || h.publishCommitted

def BatchHeader.Fades (h h' : BatchHeader) : Prop :=
  h'.readable = false ∨ h' = { h with totalOrder := h'.totalOrder }

def CxlMemory.Fades (c c' : CxlMemory) : Prop := ∀ b i, (c.ring b i).Fades (c'.ring b i)

variable {P : Platform} {c c' c'' : CxlMemory} {t : Topic} {f : EpochInFlight}

namespace BatchHeader

variable {h h' h'' : BatchHeader}

theorem Fades.refl (h : BatchHeader) : h.Fades h := .inr rfl

theorem Fades.trans (hf : h.Fades h') (hf' : h'.Fades h'') : h.Fades h'' := by
  cases hf' with
  | inl hr => exact .inl hr
  | inr heq =>
    rw [heq]
    cases hf with
    | inl hr => exact .inl hr
    | inr heq' =>
      rw [heq']
      exact .inr rfl

theorem Fades.same (hf : h.Fades h') (hr : h'.readable = true) :
    h.readable = true ∧ h'.batchReady = h.batchReady ∧
      h'.pbrAbsoluteIndex = h.pbrAbsoluteIndex ∧ ∀ b i, PendingBatch5.ofSlot b i h' = .ofSlot b i h := by
  cases hf with
  | inl hf =>
    rw [hf] at hr
    cases hr
  | inr heq =>
    rw [heq] at hr ⊢
    exact ⟨hr, rfl, rfl, fun _ _ => rfl⟩

theorem readable_of_batchReady (hr : h.batchReady = true) : h.readable = true := by
  rw [batchReady, Bool.and_eq_true, Bool.and_eq_true] at hr
  rw [readable, hr.1.1, Bool.or_true]

end BatchHeader

namespace CxlMemory

theorem Fades.refl (c : CxlMemory) : c.Fades c := fun _ _ => .refl _

theorem Fades.trans (h : c.Fades c') (h' : c'.Fades c'') : c.Fades c'' :=
  fun b i => (h b i).trans (h' b i)

theorem Fades.of_ring (h : c'.ring = c.ring) : c.Fades c' := fun b i => by
  rw [h]
  exact .refl _

theorem fades_setSlot {a : SlotAddr} {h : BatchHeader}
    (hf : (c.ring a.brokerId a.slot).Fades h) : c.Fades (c.setSlot a h) := by
  intro b i
  dsimp only [setSlot]
  rw [update_apply]
  split
  next hb =>
    rw [hb, update_apply]
    split
    next hi =>
      rw [hi]
      exact hf
    · exact .refl _
  · exact .refl _

theorem fades_clearSlot (c : CxlMemory) (hdr : Option SlotAddr) : c.Fades (c.clearSlot hdr) := by
  cases hdr with
  | none => exact .refl c
  | some a => exact fades_setSlot (.inl rfl)

theorem fades_retireHeld (slots : Nat) (c : CxlMemory) (he : HoldEntry5) : c.Fades (c.retireHeld slots he) := by
  rw [retireHeld, retireHeldSlotAndAdvance]
  split
  · exact (fades_clearSlot c _).trans (.of_ring rfl)
  · exact fades_clearSlot c _

theorem fades_write {w : CxlWrite} (hw : ∀ h, w.descriptor? = some h → h.readable = false) : c.Fades (c.write w) := by
  cases w with
  | stampTotalOrder a n => exact fades_setSlot (.inr rfl)
  | exportDescriptor a h => exact fades_setSlot (.inl (hw h rfl))
  | clearPublishState a => exact fades_clearSlot c (some a)
  | claimSession | session | goi | ordered | consumedThrough => exact .of_ring rfl

theorem fades_writes {ws : List CxlWrite} :
    ∀ {c : CxlMemory}, (∀ w ∈ ws, ∀ h, w.descriptor? = some h → h.readable = false) → c.Fades (c.writes ws) := by
  induction ws with
  | nil => exact fun _ => .refl _
  | cons w ws ih =>
    intro c h
    exact (fades_write (h w mem_cons_self)).trans (ih fun v hv => h v (mem_cons_of_mem _ hv))

end CxlMemory

theorem fades_retireAll (slots : Nat) (retired : List HoldEntry5) : ∀ c : CxlMemory,
    c.Fades (retired.foldl (CxlMemory.retireHeld slots) c) := by
  induction retired with
  | nil => exact .refl
  | cons he rest ih => exact fun c => (CxlMemory.fades_retireHeld slots c he).trans (ih _)

theorem Shelf.Move.fades {v w : Shelf} (hm : Shelf.Move P v w) : v.cxl.Fades w.cxl := by
  cases hm with
  | retire => exact CxlMemory.fades_retireHeld _ _ _
  | purge retired => exact fades_retireAll _ retired _
  | _ => exact .refl _

theorem fades_shard (clock : PassClock) (t : Topic) (sh : Level5ShardState) (input : List PendingBatch5) :
    t.cxl.Fades (processLevel5BatchesShard P clock t sh input).topic.cxl :=
  (Pass.moves_shard (P := P) clock t sh input).invariant
    (I := fun v => t.cxl.sessionless.Fades v.cxl) (fun _ _ hm hv => hv.trans hm.fades) (.refl _)

theorem fades_process (clock : PassClock) (t : Topic) (level5 : List PendingBatch5) :
    t.cxl.Fades (processLevel5Batches P clock t level5).1.cxl := by
  apply processLevel5Batches_induction (I := fun s => t.cxl.Fades s.1.cxl)
  · exact .refl _
  · exact fun i s hs => hs.trans (fades_shard clock _ _ _)

theorem readable_exportWrites (kept : List PendingBatch5) :
    ∀ {order : Nat} {s : Commit.ExportState}, ∀ w ∈ (Commit.exportWrites P order s kept).1,
      ∀ h, w.descriptor? = some h → h.readable = false := by
  have hclear : ∀ p : PendingBatch5, ∀ w ∈ (p.hdr.map CxlWrite.clearPublishState).toList,
      ∀ h, w.descriptor? = some h → h.readable = false := by
    intro p w hw h hh
    rw [filterMap_eq_nil_iff.mp (Commit.descriptor?_clear p) w hw] at hh
    cases hh
  induction kept with
  | nil => exact nofun
  | cons p rest ih =>
    intro order s w hw
    rw [Commit.exportWrites] at hw
    split at hw
    · exact ih w hw
    · dsimp only at hw
      split at hw
      · cases mem_append.mp hw with
        | inl hhead =>
          cases mem_cons.mp hhead with
          | inl heq =>
            rintro h hh
            rw [heq] at hh
            cases hh
            rfl
          | inr hmem => exact hclear p w hmem
        | inr htail => exact ih w htail
      · cases mem_append.mp hw with
        | inl hmem => exact hclear p w hmem
        | inr htail => exact ih w htail

theorem mem_exportWrites_of_descriptor {w : CxlWrite} {h : BatchHeader} (hx : t.capacityExhausted = false)
    (hw : w ∈ Commit.writes P t f) (hd : w.descriptor? = some h) :
    w ∈ (Commit.exportWrites P t.globalSeq ⟨t.exportCursor, t.exportSequence⟩ (Commit.accepted t f)).1 := by
  have hguard : w ∉ (Commit.guardAll t f.ready).writes := by
    intro hmem
    rw [Commit.descriptor?_guardAll t f.ready w hmem] at hd
    cases hd
  have hregion : w.region = .ring := by
    by_contra hne
    rw [Commit.descriptor?_eq_none hne] at hd
    cases hd
  have hadvance : ∀ contiguous, w ∉ (Commit.advanceConsumedThrough P t.shards f contiguous).2 := by
    intro contiguous hmem
    have := Commit.region_advanceConsumedThrough P _ _ _ w hmem
    rw [hregion] at this
    cases this
  rw [Commit.writes] at hw
  cases ho : Commit.outcome t (Commit.guardAll t f.ready) with
  | stopped =>
    rw [ho] at hw
    exact absurd hw hguard
  | nothingReady =>
    rw [ho] at hw
    exact ((mem_append.mp hw).elim hguard (hadvance _)).elim
  | committed kept firstGoi n firstMessage msgs =>
    obtain ⟨-, -, rfl, rfl, -, -⟩ := Commit.outcome_committed ho
    have hacc : Commit.accepted t f = kept := by rw [Commit.accepted, hx, ho]; rfl
    rw [ho] at hw
    simp only [mem_append] at hw
    rw [hacc]
    rcases hw with ((((hw | hw) | hw) | hw) | hw) | hw
    · exact absurd hw hguard
    · rw [Commit.descriptor?_goiWrites _ _ _ _ _ w hw] at hd
      cases hd
    · exact hw
    · have := Commit.region_orderedWrites _ w hw
      rw [hregion] at this
      cases this
    · have := Commit.region_sessionWrites P _ w hw
      rw [hregion] at this
      cases this
    · exact absurd hw (hadvance _)

theorem fades_commitEpoch (P : Platform) (t : Topic) (f : EpochInFlight) : t.cxl.Fades (commitEpoch P t f).cxl := by
  cases hx : t.capacityExhausted with
  | true =>
    rw [commitEpoch_of_exhausted P t f hx]
    exact .refl _
  | false =>
    rw [commitEpoch_of_running P t f hx]
    apply CxlMemory.fades_writes
    intro w hw h hd
    exact readable_exportWrites _ w (mem_exportWrites_of_descriptor hx hw hd) h hd

theorem fades_rebuild (P : Platform) (c : CxlMemory) (n : Nat) : c.Fades (rebuildExportDescriptors P c n).1 := by
  rw [rebuildExportDescriptors]
  induction n with
  | zero => exact .refl _
  | succ n ih =>
    rw [range_succ, foldl_append, foldl_cons, foldl_nil]
    apply ih.trans
    rw [rebuildExportDescriptor]
    dsimp only
    split
    · exact .refl _
    · exact CxlMemory.fades_setSlot (.inl rfl)

theorem fades_sequencer5 (P : Platform) (c : CxlMemory) : c.Fades (sequencer5 P c).cxl :=
  fades_rebuild P (c.takeOver (recoverSequencer5State c).nextGoiIndex) _

end Embarcadero
