import Embarcadero.Lib.Reorder
import Embarcadero.SubscriberStream

namespace Embarcadero

open Function (update update_apply update_self)
open List
open Reorder (Buffer)
open Wire

namespace ReorderState

variable {r r' : ReorderState} {o : List OwnedMessage} {msg : OwnedMessage} {maxRetained : Nat}

def Aligned (r : ReorderState) : Prop := r.base = r.next

def buffer (r : ReorderState) (o : List OwnedMessage) : Buffer OwnedMessage where
  next := r.next
  slot p := if p < r.next then none else r.pending.getD (p - r.next) none
  out := o
  late p hp := if_pos hp
  bounded := by
    refine ⟨r.next + r.pending.length, fun p hp => ?_⟩
    rw [if_neg (by omega), List.getD_eq_getElem?_getD, List.getElem?_eq_none (by omega), Option.getD_none]

@[simp] theorem buffer_next : (r.buffer o).next = r.next := rfl

@[simp] theorem dropStale_next : r.dropStale.next = r.next := by
  rw [dropStale]
  split
  · rfl
  · split <;> rfl

@[simp] theorem dropStale_retentionExhausted : r.dropStale.retentionExhausted = r.retentionExhausted := by
  rw [dropStale]
  split
  · rfl
  · split <;> rfl

theorem dropStale_base (h : r.base ≤ r.next) : r.dropStale.base = r.next := by
  rw [dropStale]
  split
  · rfl
  · split
    · dsimp only
      split
      · rfl
      next hne =>
        rw [drop_eq_nil_iff] at hne
        omega
    · omega

theorem getD_dropStale (h : r.base ≤ r.next) (i : Nat) :
    r.dropStale.pending.getD i none = r.pending.getD (r.next - r.base + i) none := by
  rw [dropStale]
  split
  next hnil => rw [hnil, getD_nil, getD_nil]
  · split
    · dsimp only
      rw [List.getD_eq_getElem?_getD, List.getD_eq_getElem?_getD, List.getElem?_drop]
      by_cases hlen : r.next - r.base ≤ r.pending.length
      · rw [Nat.min_eq_left hlen]
      · rw [List.getElem?_eq_none (by omega), List.getElem?_eq_none (by omega)]
    · rw [Nat.sub_eq_zero_of_le (by omega), Nat.zero_add]

theorem dropStale_of_aligned (h : r.Aligned) : r.dropStale = r := by
  rw [Aligned] at h
  rw [dropStale]
  split
  · cases r
    cases h
    rfl
  · rw [if_neg (by rw [h]; exact Nat.lt_irrefl _)]

theorem reanchor_aligned (h : r.Aligned) (g : Nat) : (r.reanchor g).Aligned := by
  rw [reanchor]
  split
  · exact h
  next hg =>
    rw [Aligned] at h ⊢
    rw [dropStale_next]
    exact dropStale_base (by dsimp only; omega)

@[simp] theorem reanchor_retentionExhausted (g : Nat) : (r.reanchor g).retentionExhausted = r.retentionExhausted := by
  rw [reanchor]
  split
  · rfl
  · rw [dropStale_retentionExhausted]

theorem reanchor_buffer (h : r.Aligned) (g : Nat) : (r.reanchor g).buffer o = (r.buffer o).skip g := by
  rw [reanchor]
  split
  next hg => exact (Buffer.skip_of_le hg).symm
  next hg =>
    have hlt : (r.buffer o).next < g := Nat.not_le.mp hg
    rw [Aligned] at h
    refine Buffer.ext ?_ ?_ ?_
    · rw [Buffer.skip_next_of_lt hlt]
      exact dropStale_next
    · rw [Buffer.skip_slot_of_lt hlt]
      funext p
      dsimp only [buffer]
      rw [dropStale_next, getD_dropStale (by dsimp only; omega)]
      dsimp only
      split
      · rfl
      · rw [if_neg (by omega)]
        congr 1
        omega
    · rw [Buffer.skip_out]
      rfl

theorem getD_resize (pending : List (Option OwnedMessage)) (k i : Nat) :
    (pending ++ List.replicate k none).getD i none = pending.getD i none := by
  rw [List.getD_eq_getElem?_getD, List.getD_eq_getElem?_getD, List.getElem?_append]
  split
  · rfl
  next hlen =>
    rw [List.getElem?_replicate, List.getElem?_eq_none (Nat.not_lt.mp hlen)]
    split <;> rfl

theorem getD_set {pending : List (Option OwnedMessage)} {i : Nat} (h : i < pending.length) (x : Option OwnedMessage)
    (j : Nat) : (pending.set i x).getD j none = if j = i then x else pending.getD j none := by
  rw [List.getD_eq_getElem?_getD, List.getElem?_set]
  split
  next hij => rw [if_pos hij.symm, Option.getD_some]
  next hij => rw [if_neg (Ne.symm hij), List.getD_eq_getElem?_getD]

theorem stage_aligned (h : r.Aligned) (p : Nat) : (r.stage maxRetained p msg).Aligned := by
  rw [stage, dropStale_of_aligned h]
  split
  · exact h
  · split
    · exact h
    · dsimp only
      split
      · exact h
      · split
        · exact h
        · split <;> exact h

theorem stage_buffer (h : r.Aligned) {p : Nat} (hok : (r.stage maxRetained p msg).retentionExhausted = false) :
    (r.stage maxRetained p msg).buffer o = (r.buffer o).put p msg := by
  rw [stage, dropStale_of_aligned h] at hok ⊢
  rw [Aligned] at h
  split at hok
  next hex =>
    rw [hex] at hok
    cases hok
  next hex =>
    rw [if_neg hex]
    split at hok
    next hlate =>
      rw [if_pos hlate, Buffer.put_of_late hlate]
      rfl
    next hlate =>
      have hnext : (r.buffer o).next ≤ p := Nat.not_lt.mp hlate
      have hslot : (r.buffer o).slot p = r.pending.getD (p - r.next) none := if_neg hlate
      rw [if_neg hlate]
      dsimp only at hok ⊢
      rw [h, if_neg hlate] at hok ⊢
      split at hok
      · cases hok
      next hmax =>
        rw [if_neg hmax, getD_resize]
        cases hcur : r.pending.getD (p - r.next) none with
        | some old =>
          rw [Buffer.put_of_filled (by rw [hslot, hcur]; exact Option.some_ne_none old)]
          simp only [buffer, getD_resize]
        | none =>
          refine Buffer.ext ?_ ?_ ?_
          · rw [Buffer.put_next]
            rfl
          · rw [Buffer.put_slot_of_free hnext (hslot.trans hcur)]
            funext q
            have hlen : p - r.next <
                (r.pending ++ List.replicate (p - r.next + 1 - r.pending.length) none).length := by
              rw [length_append, length_replicate]
              omega
            dsimp only [buffer]
            rw [update_apply, getD_set hlen, getD_resize]
            have hq : q - r.next = p - r.next ∧ ¬q < r.next ↔ q = p := by omega
            by_cases heq : q = p
            · rw [if_pos heq, if_neg (hq.mpr heq).2, if_pos (hq.mpr heq).1]
            · rw [if_neg heq]
              split
              · rfl
              next hge => rw [if_neg fun hsub => heq (hq.mp ⟨hsub, hge⟩)]
          · rw [Buffer.put_out]
            rfl

theorem stage_retentionExhausted (h : r.retentionExhausted = true) (p : Nat) :
    (r.stage maxRetained p msg).retentionExhausted = true := by rwa [stage, if_pos h]

def toItems (items : List Parsed) : List (Reorder.Item OwnedMessage) :=
  items.filterMap fun
    | .gap start => some (.gap start)
    | .message order msg => some (.message order msg)
    | .error => none

theorem gaps_toItems (items : List Parsed) :
    Reorder.gaps (toItems items) = items.filterMap fun | .gap start => some start | _ => none := by
  rw [Reorder.gaps, toItems, filterMap_filterMap]
  congr 1
  funext item
  cases item <;> rfl

theorem messages_toItems (items : List Parsed) : Reorder.messages (toItems items) =
    items.filterMap fun | .message order msg => some (order, msg) | _ => none := by
  rw [Reorder.messages, toItems, filterMap_filterMap]
  congr 1
  funext item
  cases item <;> rfl

theorem foldl_reanchor (gs : List Nat) : ∀ {r : ReorderState}, r.Aligned →
    (gs.foldl reanchor r).Aligned ∧
      (gs.foldl reanchor r).retentionExhausted = r.retentionExhausted ∧
      (gs.foldl reanchor r).buffer o = gs.foldl (fun b g => b.skip g) (r.buffer o) := by
  induction gs with
  | nil => exact fun h => ⟨h, rfl, rfl⟩
  | cons g gs ih =>
    intro r h
    obtain ⟨haligned, hex, hbuf⟩ := ih (reanchor_aligned h g)
    rw [reanchor_retentionExhausted] at hex
    rw [reanchor_buffer h] at hbuf
    exact ⟨haligned, hex, hbuf⟩

theorem foldl_stage (ms : List (Nat × OwnedMessage)) : ∀ {r : ReorderState}, r.Aligned →
    (ms.foldl (fun r m => r.stage maxRetained m.1 m.2) r).retentionExhausted = false →
    (ms.foldl (fun r m => r.stage maxRetained m.1 m.2) r).Aligned ∧ r.retentionExhausted = false ∧
      (ms.foldl (fun r m => r.stage maxRetained m.1 m.2) r).buffer o =
        ms.foldl (fun b m => b.put m.1 m.2) (r.buffer o) := by
  induction ms with
  | nil => exact fun h hok => ⟨h, hok, rfl⟩
  | cons m ms ih =>
    intro r h hok
    obtain ⟨haligned, hex, hbuf⟩ := ih (stage_aligned h m.1) hok
    rw [stage_buffer h hex] at hbuf
    refine ⟨haligned, ?_, hbuf⟩
    cases hr : r.retentionExhausted with
    | false => rfl
    | true =>
      rw [stage_retentionExhausted hr] at hex
      cases hex

theorem stageOrderedMessages_buffer (h : r.Aligned) {items : List Parsed}
    (hok : (r.stageOrderedMessages maxRetained items).retentionExhausted = false) :
    r.retentionExhausted = false ∧ (r.stageOrderedMessages maxRetained items).Aligned ∧
      (r.stageOrderedMessages maxRetained items).buffer o = (r.buffer o).batch (toItems items) := by
  rw [stageOrderedMessages] at hok ⊢
  rw [Buffer.batch, gaps_toItems, messages_toItems]
  dsimp only at hok ⊢
  split at hok
  next hex =>
    rw [hex] at hok
    cases hok
  next hex =>
    rw [if_neg hex]
    generalize hms : (items.filterMap fun | .message order msg => some (order, msg) | _ => none) = ms at hok ⊢
    generalize hgs : (items.filterMap fun | .gap start => some start | _ => none) = gs at hok ⊢
    obtain ⟨hskip, hsame, hgaps⟩ := foldl_reanchor (o := o) gs (r := { r with received := r.received + ms.length }) h
    obtain ⟨hstage, -, hput⟩ := foldl_stage (o := o) ms hskip hok
    exact ⟨Bool.eq_false_iff.mpr hex, hstage, by rw [hput, hgaps]; rfl⟩

theorem pop_buffer_of_ready {rest : List (Option OwnedMessage)} (h : r.Aligned) (hp : r.pending = some msg :: rest) :
    Aligned { r with pending := rest, base := r.base + 1, next := r.next + 1 } ∧
      ({ r with pending := rest, base := r.base + 1, next := r.next + 1 } : ReorderState).buffer
        (o ++ [msg]) = (r.buffer o).pop := by
  have hslot : (r.buffer o).slot (r.buffer o).next = some msg := by
    dsimp only [buffer]
    rw [if_neg (Nat.lt_irrefl _), hp, Nat.sub_self]
    rfl
  refine ⟨congrArg Nat.succ h, Buffer.ext ?_ ?_ ?_⟩
  · rw [Buffer.pop_next_of_some hslot]
    rfl
  · rw [Buffer.pop_slot_of_some hslot, buffer_next]
    funext p
    rw [update_apply]
    dsimp only [buffer]
    rw [hp]
    by_cases heq : p = r.next
    · rw [if_pos heq, if_pos (by omega)]
    · rw [if_neg heq]
      by_cases hlt : p < r.next
      · rw [if_pos hlt, if_pos (by omega)]
      · rw [if_neg hlt, if_neg (by omega)]
        obtain ⟨i, hi⟩ : ∃ i, p - r.next = i + 1 := ⟨p - (r.next + 1), by omega⟩
        rw [hi, show p - (r.next + 1) = i by omega, getD_cons_succ]
  · rw [Buffer.pop_out_of_some hslot]
    rfl

theorem pop_buffer_of_stalled (hp : ∀ msg rest, r.pending ≠ some msg :: rest) : (r.buffer o).Stalled := by
  rw [Buffer.Stalled]
  dsimp only [buffer]
  rw [if_neg (Nat.lt_irrefl _), Nat.sub_self]
  cases hpend : r.pending with
  | nil => rfl
  | cons x rest =>
    cases x with
    | none => rfl
    | some msg => exact absurd hpend (hp msg rest)

theorem tryPop_buffer (h : r.Aligned) : r.tryPop.1.Aligned ∧
    r.tryPop.1.retentionExhausted = r.retentionExhausted ∧
    r.tryPop.1.buffer (o ++ r.tryPop.2.toList) = (r.buffer o).pop := by
  rw [tryPop, dropStale_of_aligned h]
  split
  next msg rest hp =>
    rw [if_pos (show r.base = r.next from h)]
    exact ⟨(pop_buffer_of_ready (o := o) h hp).1, rfl, (pop_buffer_of_ready h hp).2⟩
  next hp =>
    refine ⟨h, rfl, ?_⟩
    rw [Buffer.pop_of_stalled (pop_buffer_of_stalled fun msg rest => hp msg rest)]
    rw [Option.toList_none, append_nil]

theorem stalled_of_tryPop (h : r.Aligned) (hnone : r.tryPop.2 = none) : (r.buffer o).Stalled := by
  rw [tryPop, dropStale_of_aligned h] at hnone
  split at hnone
  · rw [if_pos (show r.base = r.next from h)] at hnone
    cases hnone
  next hp => exact pop_buffer_of_stalled fun msg rest => hp msg rest

theorem popLoop_buffer (o : List OwnedMessage) (n : Nat) :
    ∀ {r : ReorderState} (popped : List OwnedMessage), r.Aligned →
    (popLoop n r popped).1.Aligned ∧
      (popLoop n r popped).1.retentionExhausted = r.retentionExhausted ∧
      (popLoop n r popped).1.buffer (o ++ (popLoop n r popped).2) = Buffer.pop^[n] (r.buffer (o ++ popped)) := by
  induction n with
  | zero => exact fun _ h => ⟨h, rfl, rfl⟩
  | succ n ih =>
    intro r popped h
    rw [popLoop, Function.iterate_succ_apply]
    split
    next msg rest hp =>
      obtain ⟨haligned, hbuf⟩ := pop_buffer_of_ready (o := o ++ popped) h hp
      rw [if_pos (show r.base = r.next from h), ← hbuf, append_assoc]
      exact ih _ haligned
    next hp =>
      have hstalled := pop_buffer_of_stalled (o := o ++ popped) fun msg rest => hp msg rest
      rw [Buffer.pop_of_stalled hstalled]
      exact ⟨h, rfl, (Function.iterate_fixed (Buffer.pop_of_stalled hstalled) n).symm⟩

theorem tryPopMany_buffer (h : r.Aligned) (n : Nat) : (r.tryPopMany n).1.Aligned ∧
    (r.tryPopMany n).1.retentionExhausted = r.retentionExhausted ∧
    (r.tryPopMany n).1.buffer (o ++ (r.tryPopMany n).2) = Buffer.pop^[n] (r.buffer o) := by
  rw [tryPopMany]
  split
  next hn =>
    rw [hn, append_nil]
    exact ⟨h, rfl, rfl⟩
  · rw [dropStale_of_aligned h]
    obtain ⟨haligned, hex, hbuf⟩ := popLoop_buffer o n [] h
    rw [append_nil] at hbuf
    dsimp only
    split
    · exact ⟨rfl, hex, hbuf⟩
    · exact ⟨haligned, hex, hbuf⟩

end ReorderState

def SubscriberEvent.dataOn (c : Nat) : SubscriberEvent → List UInt8
  | .recv d data => if c = d then data else []
  | .consume => []
  | .consumeBatch _ => []

namespace Subscriber

variable {s s' : Subscriber} {c : Nat} {data : List UInt8} {maxRetained : Nat}

def buffer (s : Subscriber) : Buffer OwnedMessage := s.reorder.buffer s.delivered

def parsed (s : Subscriber) (c : Nat) : List Parsed :=
  (Decoder.decode parseNext {} (s.received c)).2.1

def chunkItems (s : Subscriber) (c : Nat) (data : List UInt8) : List Parsed :=
  (Decoder.decode parseNext (s.streams c).cursor ((s.streams c).carry ++ data)).2.1

structure InStep (s : Subscriber) : Prop where
  aligned : s.reorder.Aligned
  streams : ∀ c, s.streams c = ⟨(Decoder.decode parseNext {} (s.received c)).1,
    (Decoder.decode parseNext {} (s.received c)).2.2⟩

theorem inStep_empty : ({} : Subscriber).InStep := ⟨rfl, fun _ => rfl⟩

structure Received (s s' : Subscriber) (c : Nat) (data : List UInt8) : Prop where
  inStep : s'.InStep
  ok : s.reorder.retentionExhausted = false
  received : s'.received = update s.received c (s.received c ++ data)
  parsed : s'.parsed = update s.parsed c (s.parsed c ++ s.chunkItems c data)
  buffer : s'.buffer = s.buffer.batch (ReorderState.toItems (s.chunkItems c data))

theorem InStep.recv (h : s.InStep) (hstep : s.step maxRetained (.recv c data) = some s')
    (hok : s'.reorder.retentionExhausted = false) : Received s s' c data := by
  rw [step] at hstep
  split at hstep
  · cases hstep
  · cases hstep
    rw [receive, StreamParseState.parse_eq] at hok ⊢
    dsimp only at hok ⊢
    split at hok
    next hex =>
      rw [hex] at hok
      cases hok
    next hex =>
      rw [if_neg hex]
      obtain ⟨hex', haligned, hbuf⟩ := ReorderState.stageOrderedMessages_buffer (o := s.delivered) h.aligned hok
      have happ := Decoder.decode_append lawful_parseNext {} (s.received c) data
      have hs := h.streams c
      refine ⟨⟨haligned, fun d => ?_⟩, hex', rfl, funext fun d => ?_, hbuf⟩
      · dsimp only
        rw [update_apply, update_apply]
        split
        · rw [happ, hs]
        · exact h.streams d
      · dsimp only [Subscriber.parsed]
        rw [update_apply, update_apply]
        split
        · rw [happ, chunkItems, hs]
        · rfl

theorem InStep.consume (h : s.InStep) (hstep : s.step maxRetained .consume = some s') :
    s'.InStep ∧ s.reorder.retentionExhausted = false ∧ s'.received = s.received ∧ s'.buffer = s.buffer.pop := by
  rw [step] at hstep
  split at hstep
  · cases hstep
  next hex =>
    cases hstep
    obtain ⟨haligned, -, hbuf⟩ := ReorderState.tryPop_buffer (o := s.delivered) h.aligned
    exact ⟨⟨haligned, h.streams⟩, Bool.eq_false_iff.mpr hex, rfl, hbuf⟩

theorem InStep.consumeBatch (h : s.InStep) {n : Nat} (hstep : s.step maxRetained (.consumeBatch n) = some s') :
    s'.InStep ∧ s.reorder.retentionExhausted = false ∧ s'.received = s.received ∧
      s'.buffer = Buffer.pop^[min n maxRetained] s.buffer := by
  rw [step] at hstep
  split at hstep
  · cases hstep
  next hex =>
    cases hstep
    obtain ⟨haligned, -, hbuf⟩ := ReorderState.tryPopMany_buffer (o := s.delivered) h.aligned (min n maxRetained)
    exact ⟨⟨haligned, h.streams⟩, Bool.eq_false_iff.mpr hex, rfl, hbuf⟩

end Subscriber

namespace ExportedBatch

variable {b : ExportedBatch} {bs : List ExportedBatch} {sent : Nat → OwnedMessage} {p : Nat}

structure Exported (sent : Nat → OwnedMessage) (b : ExportedBatch) : Prop where
  encodable : b.metadata.Encodable
  version : isValidHeaderVersion b.metadata.headerVersion = true
  nonempty : 0 < b.metadata.numMessages
  count : b.frames.length = b.metadata.numMessages
  frame : ∀ f ∈ b.frames, frameStride b.metadata.headerVersion f = some f.length
  noGap : b.metadata.exportGap = false
  unstamped : ∀ f ∈ b.frames, readField f totalOrderOffset 8 = 0
  sent : ∀ i f, b.frames[i]? = some f → sent (b.metadata.batchTotalOrder + i) = ⟨b.metadata.headerVersion, f⟩

def WithinLimits (b : ExportedBatch) : Prop :=
  b.metadata.numMessages ≤ maxBatchMessages ∧ b.metadata.batchTotalOrder < maxBatchTotalOrder

structure Carries (sent : Nat → OwnedMessage) (b : ExportedBatch) : Prop extends b.Exported sent where
  limits : b.WithinLimits

theorem Carries.wellFormed (h : b.Carries sent) : b.WellFormed := by
  have hversion := h.version
  rw [isValidHeaderVersion, Bool.or_eq_true, decide_eq_true_eq, decide_eq_true_eq] at hversion
  exact ⟨accepted_iff.mpr ⟨hversion, h.nonempty, h.limits⟩, h.encodable.flags, h.count, h.frame⟩

def Covers (b : ExportedBatch) (p : Nat) : Prop :=
  b.metadata.batchTotalOrder ≤ p ∧ p < b.metadata.batchTotalOrder + b.metadata.numMessages

theorem Carries.frame_of_covers (h : b.Carries sent) (hp : b.Covers p) :
    ∃ i, ∃ hi : i < b.frames.length, b.metadata.batchTotalOrder + i = p ∧
      sent p = ⟨b.metadata.headerVersion, b.frames.get ⟨i, hi⟩⟩ := by
  obtain ⟨hle, hlt⟩ := hp
  rw [← h.wellFormed.count] at hlt
  have hp : b.metadata.batchTotalOrder + (p - b.metadata.batchTotalOrder) = p := by omega
  refine ⟨p - b.metadata.batchTotalOrder, by omega, hp, ?_⟩
  have hsent := h.sent (p - b.metadata.batchTotalOrder) _ (List.getElem?_eq_getElem (by omega))
  rwa [hp] at hsent

theorem Carries.mem_items (h : b.Carries sent) {item : Parsed} :
    item ∈ b.items ↔ ∃ p, b.Covers p ∧ item = .message p ((sent p).stamp p) := by
  rw [items, h.noGap, if_neg Bool.false_ne_true, nil_append, takeFrames_unstamped h.unstamped, mem_mapIdx]
  constructor
  · rintro ⟨i, hi, rfl⟩
    refine ⟨b.metadata.batchTotalOrder + i, ⟨Nat.le_add_right _ _, ?_⟩, ?_⟩
    · rw [← h.wellFormed.count]
      exact Nat.add_lt_add_left hi _
    · rw [h.sent i _ (List.getElem?_eq_getElem hi)]
  · rintro ⟨p, hp, rfl⟩
    obtain ⟨i, hi, horder, hsent⟩ := h.frame_of_covers hp
    refine ⟨i, hi, ?_⟩
    dsimp only
    rw [horder, hsent]
    rfl

theorem Carries.header_le (h : b.Carries sent) (hp : b.Covers p) : headerSize ≤ (sent p).bytes.length := by
  obtain ⟨i, hi, -, hsent⟩ := h.frame_of_covers hp
  rw [hsent]
  exact (frameStride_bounds (h.wellFormed.frame _ (getElem_mem hi))).1

theorem mem_flatMap_items (h : ∀ b ∈ bs, b.Carries sent) {item : Parsed} :
    item ∈ bs.flatMap items ↔ ∃ b ∈ bs, ∃ p, b.Covers p ∧ item = .message p ((sent p).stamp p) := by
  rw [mem_flatMap]
  exact exists_congr fun b => and_congr_right fun hb => (h b hb).mem_items

end ExportedBatch

def OwnedMessage.payload (m : OwnedMessage) : List UInt8 := m.bytes.drop headerSize

theorem OwnedMessage.payload_stamp {m : OwnedMessage} (h : headerSize ≤ m.bytes.length)
    (order : Nat) : (m.stamp order).payload = m.payload := by
  rw [headerSize] at h
  have hlen : (m.bytes.take 32 ++ LittleEndian.encode 8 order).length = 40 := by
    rw [length_append, length_take, LittleEndian.length_encode]
    omega
  dsimp only [stamp, payload, writeField, totalOrderOffset, headerSize]
  rw [drop_append, hlen, drop_drop, drop_of_length_le (by omega), nil_append]

namespace Subscriber

variable {s s' : Subscriber} {maxRetained N : Nat} {sent : Nat → OwnedMessage}
  {streams : Nat → List ExportedBatch}

structure Delivers (sent : Nat → OwnedMessage) (s : Subscriber) : Prop where
  inStep : s.InStep
  faithful : Buffer.Faithful (fun p => (sent p).stamp p) s.buffer
  has : ∀ p, s.buffer.Has p ↔ ∃ c msg, .message p msg ∈ s.parsed c

theorem delivers_empty : Delivers sent {} where
  inStep := inStep_empty
  faithful := ⟨rfl, fun {p m} h => by simp [buffer, ReorderState.buffer] at h⟩
  has p := by
    refine iff_of_false ?_ ?_
    · rintro (hlt | hne)
      · exact Nat.not_lt_zero p hlt
      · exact hne (by simp [buffer, ReorderState.buffer])
    · rintro ⟨c, msg, hmem⟩
      exact absurd hmem not_mem_nil

theorem mem_parsed (hstreams : ∀ c, ∀ b ∈ streams c, b.Carries sent) {c : Nat}
    (h : s.received c <+: ExportedBatch.encodeAll (streams c)) {item : Parsed} (hitem : item ∈ s.parsed c) :
    ∃ b ∈ streams c, ∃ p, b.Covers p ∧ item = .message p ((sent p).stamp p) := by
  obtain ⟨rest, hrest⟩ := h
  obtain ⟨c', -, hall⟩ := ExportedBatch.decode_encodeAll (c := {}) (fun b hb => (hstreams c b hb).wellFormed) rfl
  have happ := Decoder.decode_append lawful_parseNext {} (s.received c) rest
  rw [hrest, hall] at happ
  have hitems := congrArg (fun r => r.2.1) happ
  refine (ExportedBatch.mem_flatMap_items (hstreams c)).mp ?_
  rw [show (streams c).flatMap ExportedBatch.items = _ from hitems]
  exact mem_append_left _ hitem

theorem parsed_of_received (hstreams : ∀ c, ∀ b ∈ streams c, b.Carries sent) {c : Nat}
    (h : s.received c = ExportedBatch.encodeAll (streams c)) :
    s.parsed c = (streams c).flatMap ExportedBatch.items := by
  obtain ⟨c', -, hall⟩ := ExportedBatch.decode_encodeAll (c := {}) (fun b hb => (hstreams c b hb).wellFormed) rfl
  rw [parsed, h, hall]

variable {items : List Parsed} {e : SubscriberEvent}

theorem batch_of_messages {b : Buffer OwnedMessage} (h : ∀ item ∈ items, ∃ p, item = .message p ((sent p).stamp p)) :
    b.batch (ReorderState.toItems items) =
      (Reorder.messages (ReorderState.toItems items)).foldl (fun b m => b.put m.1 m.2) b := by
  have hnil : Reorder.gaps (ReorderState.toItems items) = [] := by
    rw [ReorderState.gaps_toItems, filterMap_eq_nil_iff]
    intro item hitem
    obtain ⟨p, rfl⟩ := h item hitem
    rfl
  rw [Buffer.batch, hnil, foldl_nil]

theorem mem_messages_toItems {m : Nat × OwnedMessage} :
    m ∈ Reorder.messages (ReorderState.toItems items) ↔ .message m.1 m.2 ∈ items := by
  rw [ReorderState.messages_toItems, mem_filterMap]
  constructor
  · rintro ⟨item, hitem, heq⟩
    cases item with
    | gap start => cases heq
    | message order msg =>
      cases heq
      exact hitem
    | error => cases heq
  · exact fun h => ⟨_, h, rfl⟩

theorem Delivers.recv (h : Delivers sent s) {c : Nat} {data : List UInt8}
    (hstep : s.step maxRetained (.recv c data) = some s') (hok : s'.reorder.retentionExhausted = false)
    (hitems : ∀ item ∈ s'.parsed c, ∃ p, item = .message p ((sent p).stamp p)) : Delivers sent s' := by
  obtain ⟨hinStep, -, -, hparsed, hbuf⟩ := h.inStep.recv hstep hok
  have hc : s'.parsed c = s.parsed c ++ s.chunkItems c data := by rw [hparsed, update_self]
  have hchunk : ∀ item ∈ s.chunkItems c data, ∃ p, item = .message p ((sent p).stamp p) :=
    fun item hitem => hitems item (hc ▸ mem_append_right _ hitem)
  rw [batch_of_messages hchunk] at hbuf
  refine ⟨hinStep, ?_, fun p => ?_⟩
  · rw [hbuf]
    refine h.faithful.foldl_put fun m hm => ?_
    obtain ⟨p, hp⟩ := hchunk _ (mem_messages_toItems.mp hm)
    injection hp with horder hmsg
    rw [hmsg, horder]
  · rw [hbuf, Buffer.has_foldl_put, h.has, hparsed]
    constructor
    · rintro (⟨d, msg, hold⟩ | ⟨m, hm, rfl⟩)
      · refine ⟨d, msg, ?_⟩
        rw [update_apply]
        split
        next hd => exact mem_append_left _ (hd ▸ hold)
        · exact hold
      · refine ⟨c, m.2, ?_⟩
        rw [update_self]
        exact mem_append_right _ (mem_messages_toItems.mp hm)
    · rintro ⟨d, msg, hmem⟩
      rw [update_apply] at hmem
      split at hmem
      · cases mem_append.mp hmem with
        | inl hold => exact .inl ⟨c, msg, hold⟩
        | inr hnew => exact .inr ⟨(p, msg), mem_messages_toItems.mpr hnew, rfl⟩
      · exact .inl ⟨d, msg, hmem⟩

theorem Delivers.pops (h : Delivers sent s) {k : Nat} (hinStep : s'.InStep)
    (hreceived : s'.received = s.received) (hbuf : s'.buffer = Buffer.pop^[k] s.buffer) :
    Delivers sent s' where
  inStep := hinStep
  faithful := hbuf ▸ h.faithful.iterate_pop k
  has p := by
    rw [hbuf, Buffer.has_iterate_pop, h.has]
    simp only [parsed, hreceived]

theorem received_step (h : s.step maxRetained e = some s') (c : Nat) : s'.received c = s.received c ++ e.dataOn c := by
  cases e with
  | recv d data =>
    rw [step] at h
    split at h
    · cases h
    · cases h
      have hreceived : (s.receive maxRetained d data).received = update s.received d (s.received d ++ data) := by
        rw [receive]
        split
        · rfl
        · split <;> rfl
      rw [hreceived, update_apply, SubscriberEvent.dataOn]
      split
      next heq => rw [heq]
      · rw [append_nil]
  | consume =>
    rw [step] at h
    split at h
    · cases h
    · cases h
      exact (append_nil _).symm
  | consumeBatch n =>
    rw [step] at h
    split at h
    · cases h
    · cases h
      exact (append_nil _).symm

theorem received_eq {K : Subscriber → SubscriberEvent → Prop} {es : List SubscriberEvent}
    (h : Runs.Along (Subscriber.step maxRetained) K {} es s) (c : Nat) :
    s.received c = es.flatMap (SubscriberEvent.dataOn c) := by
  have hstart : ({} : Subscriber).received c = [].flatMap (SubscriberEvent.dataOn c) := rfl
  refine h.history (I := fun done s => s.received c = done.flatMap (SubscriberEvent.dataOn c))
    (fun done s e s' _ hstep hs => ?_) hstart
  rw [received_step hstep, hs, flatMap_append, flatMap_singleton]

theorem retention_step (h : s.step maxRetained e = some s') (hok : s'.reorder.retentionExhausted = false) :
    s.reorder.retentionExhausted = false := by
  by_contra hex
  rw [Bool.not_eq_false] at hex
  cases e with
  | recv c data =>
    rw [Subscriber.step, receive, if_pos hex] at h
    split at h
    · cases h
    · cases h
      rw [hex] at hok
      cases hok
  | consume =>
    rw [Subscriber.step, if_pos hex] at h
    cases h
  | consumeBatch n =>
    rw [Subscriber.step, if_pos hex] at h
    cases h

theorem Delivers.step (hstreams : ∀ c, ∀ b ∈ streams c, b.Carries sent) (hstep : s.step maxRetained e = some s')
    (h : s.reorder.retentionExhausted = false →
      (∀ c, s.received c <+: ExportedBatch.encodeAll (streams c)) → Delivers sent s)
    (hok : s'.reorder.retentionExhausted = false)
    (hreceived : ∀ c, s'.received c <+: ExportedBatch.encodeAll (streams c)) : Delivers sent s' := by
  have hbefore : ∀ c, s.received c <+: ExportedBatch.encodeAll (streams c) := fun c =>
    (received_step hstep c ▸ prefix_append _ _ : _ <+: s'.received c).trans (hreceived c)
  have hd : Delivers sent s := h (retention_step hstep hok) hbefore
  cases e with
  | recv c data =>
    refine hd.recv hstep hok fun item hitem => ?_
    obtain ⟨b, -, p, -, heq⟩ := mem_parsed hstreams (hreceived c) hitem
    exact ⟨p, heq⟩
  | consume =>
    obtain ⟨hinStep, -, hrec, hbuf⟩ := hd.inStep.consume hstep
    exact hd.pops (k := 1) hinStep hrec hbuf
  | consumeBatch n =>
    obtain ⟨hinStep, -, hrec, hbuf⟩ := hd.inStep.consumeBatch hstep
    exact hd.pops hinStep hrec hbuf

theorem Delivers.delivered_pops (h : Delivers sent s) (hall : ∀ p, s.buffer.Has p ↔ p < N) {k : Nat}
    (hbuf : s'.buffer = Buffer.pop^[k] s.buffer) :
    s'.delivered = (List.range (min (s.buffer.next + k) N)).map fun p => (sent p).stamp p := by
  have hout := (h.faithful.iterate_pop k).out
  rw [Buffer.iterate_pop_next hall, ← hbuf] at hout
  exact hout

end Subscriber

def smallFrame (x : UInt8) : List UInt8 :=
  LittleEndian.encode 4 1 ++ List.replicate 60 0 ++ x :: List.replicate 63 0

def smallBatch (order flags : Nat) (xs : List UInt8) : ExportedBatch where
  metadata := ⟨order, xs.length, headerVersionV2, flags⟩
  frames := xs.map smallFrame

def twoStreams : Nat → List ExportedBatch
  | 0 => [smallBatch 0 0 [7], smallBatch 2 0 [9], smallBatch 0 0 [7]]
  | 1 => [smallBatch 1 0 [8]]
  | _ => []

def twoStreamsSent (p : Nat) : OwnedMessage := ⟨headerVersionV2, smallFrame (UInt8.ofNat (7 + p))⟩

@[simp] theorem length_smallFrame (x : UInt8) : (smallFrame x).length = 128 := by
  simp [smallFrame]

theorem size_smallFrame (x : UInt8) : readField (smallFrame x) 0 4 = 1 := by
  simp [smallFrame, readField, LittleEndian.encode, LittleEndian.decode]

theorem frameStride_smallFrame (x : UInt8) :
    frameStride headerVersionV2 (smallFrame x) = some (smallFrame x).length := by
  rw [frameStride, size_smallFrame, length_smallFrame]
  rfl

theorem totalOrder_smallFrame (x : UInt8) : readField (smallFrame x) totalOrderOffset 8 = 0 := by
  simp [smallFrame, readField, totalOrderOffset, LittleEndian.encode, LittleEndian.decode, List.replicate]

theorem wellFormed_smallBatch {order flags : Nat} {xs : List UInt8} (ho : order < maxBatchTotalOrder)
    (hf : flags < 2 ^ 16) (hpos : 0 < xs.length) (hlen : xs.length ≤ maxBatchMessages) :
    (smallBatch order flags xs).WellFormed where
  accepted := accepted_iff.mpr ⟨.inr rfl, hpos, hlen, ho⟩
  flags := hf
  count := length_map _
  frame f hmem := by
    obtain ⟨x, -, rfl⟩ := mem_map.mp hmem
    exact frameStride_smallFrame x

theorem exported_smallBatch {xs : List UInt8} (hpos : 0 < xs.length) (hlen : xs.length < 2 ^ 32) {p : Nat}
    (hp : p < 2 ^ 64) (hxs : ∀ i x, xs[i]? = some x → x = UInt8.ofNat (7 + (p + i))) :
    (smallBatch p 0 xs).Exported twoStreamsSent where
  encodable := ⟨hp, hlen, show headerVersionV2 < 2 ^ 16 by decide, Nat.two_pow_pos 16⟩
  version := rfl
  nonempty := hpos
  count := length_map _
  frame f hmem := by
    obtain ⟨x, -, rfl⟩ := mem_map.mp hmem
    exact frameStride_smallFrame x
  noGap := rfl
  unstamped f hmem := by
    obtain ⟨x, -, rfl⟩ := mem_map.mp hmem
    exact totalOrder_smallFrame x
  sent i f hi := by
    rw [smallBatch, List.getElem?_map, Option.map_eq_some_iff] at hi
    obtain ⟨x, hx, rfl⟩ := hi
    rw [hxs i x hx]
    rfl

theorem exported_single {p : Nat} (hp : p < 2 ^ 64) :
    (smallBatch p 0 [UInt8.ofNat (7 + p)]).Exported twoStreamsSent := by
  have hlength : [UInt8.ofNat (7 + p)].length = 1 := rfl
  refine exported_smallBatch (hlength ▸ Nat.one_pos) (hlength ▸ by decide) hp fun i x hx => ?_
  cases i with
  | zero =>
    cases hx
    rfl
  | succ i => cases hx

theorem exported_twoStreams : ∀ c, ∀ b ∈ twoStreams c, b.Exported twoStreamsSent ∧ b.WithinLimits := by
  have h : ∀ p < 3, (smallBatch p 0 [UInt8.ofNat (7 + p)]).Exported twoStreamsSent ∧
      (smallBatch p 0 [UInt8.ofNat (7 + p)]).WithinLimits := by
    intro p hp
    exact ⟨exported_single (by omega), show 1 ≤ maxBatchMessages by decide,
      show p < maxBatchTotalOrder by rw [maxBatchTotalOrder]; omega⟩
  intro c b hb
  rcases c with _ | _ | c
  · simp only [twoStreams, mem_cons, not_mem_nil, or_false] at hb
    rcases hb with rfl | rfl | rfl
    · exact h 0 (by decide)
    · exact h 2 (by decide)
    · exact h 0 (by decide)
  · simp only [twoStreams, mem_cons, not_mem_nil, or_false] at hb
    rw [hb]
    exact h 1 (by decide)
  · cases hb

theorem covers_twoStreams (p : Nat) : p < 3 ↔ ∃ c, ∃ b ∈ twoStreams c, b.Covers p := by
  constructor
  · intro hp
    match p, hp with
    | 0, _ => exact ⟨0, _, mem_cons_self, Nat.le_refl _, Nat.one_pos⟩
    | 1, _ => exact ⟨1, _, mem_cons_self, Nat.le_refl _, Nat.lt_succ_self 1⟩
    | 2, _ => exact ⟨0, _, mem_cons_of_mem _ mem_cons_self, Nat.le_refl _, Nat.lt_succ_self 2⟩
  · rintro ⟨c, b, hb, -, hlt⟩
    match c with
    | 0 =>
      simp only [twoStreams, mem_cons, not_mem_nil, or_false] at hb
      rcases hb with rfl | rfl | rfl
      · exact Nat.lt_of_lt_of_le hlt (by decide)
      · exact hlt
      · exact Nat.lt_of_lt_of_le hlt (by decide)
    | 1 =>
      simp only [twoStreams, mem_cons, not_mem_nil, or_false] at hb
      rw [hb] at hlt
      exact Nat.lt_of_lt_of_le hlt (by decide)
    | _ + 2 => cases hb

def twoStreamsRun : List SubscriberEvent :=
  [.recv 0 ((ExportedBatch.encodeAll (twoStreams 0)).take 10), .consume,
    .recv 0 (((ExportedBatch.encodeAll (twoStreams 0)).drop 10).take 190), .consume,
    .recv 1 (ExportedBatch.encodeAll (twoStreams 1)), .consumeBatch 5,
    .recv 0 ((ExportedBatch.encodeAll (twoStreams 0)).drop 200)]

section OverLimit

variable {m : BatchMetadata} {s : Subscriber} {maxRetained : Nat}

theorem parseNext_rejected (h : m.Encodable) (hm : m.accepted = false) (rest : List UInt8) :
    parseNext {} (m.encode ++ rest) = some ({}, [.error], 8) := by
  have hlen : batchMetadataSize ≤ m.encode.length := Nat.le_of_eq m.length_encode.symm
  rw [parseNext]
  dsimp only
  rw [if_neg (by rw [length_append]; omega), readBatchMetadata_append hlen, readBatchMetadata_encode h, if_neg (by
    rw [hm]; exact Bool.false_ne_true)]

theorem decode_words (words : List (List UInt8)) (h : ∀ w ∈ words, w.length = 8 ∧ readField w 4 2 = 0) :
    ∀ {first : List UInt8}, first.length = 8 →
      ∀ item ∈ (Decoder.decode parseNext {} (first ++ words.flatten)).2.1, item = .error := by
  induction words with
  | nil =>
    intro first hfirst item hitem
    have hnone : parseNext {} (first ++ [].flatten) = none := by
      rw [flatten_nil, append_nil, parseNext]
      exact if_pos (by rw [hfirst]; decide)
    rw [Decoder.decode_of_none hnone] at hitem
    cases hitem
  | cons w words ih =>
    intro first hfirst item hitem
    obtain ⟨hlen, hversion⟩ := h w (.head _)
    have hread : (readBatchMetadata (first ++ (w :: words).flatten)).headerVersion = 0 := by
      rw [flatten_cons, readBatchMetadata]
      dsimp only
      rw [readField, show (12 : Nat) = first.length + 4 by rw [hfirst], drop_length_add_append,
        drop_append_of_le_length (by omega), take_append_of_le_length (by rw [length_drop]; omega)]
      exact hversion
    have hsome : parseNext {} (first ++ (w :: words).flatten) = some ({}, [.error], 8) := by
      rw [parseNext]
      dsimp only
      rw [if_neg, if_neg]
      · rw [BatchMetadata.accepted, hread]
        exact Bool.false_ne_true
      · rw [flatten_cons, length_append, length_append, batchMetadataSize]
        omega
    rw [Decoder.decode_of_some lawful_parseNext hsome, drop_left' hfirst, flatten_cons] at hitem
    cases mem_cons.mp hitem with
    | inl heq => exact heq
    | inr hitem => exact ih (fun w hw => h w (.tail _ hw)) hlen item hitem

def smallFrameWords (x : UInt8) : List (List UInt8) :=
  [1, 0, 0, 0, 0, 0, 0, 0] :: List.replicate 7 (List.replicate 8 0) ++
    (x :: List.replicate 7 0) :: List.replicate 7 (List.replicate 8 0)

theorem flatten_smallFrames (xs : List UInt8) : (xs.map smallFrame).flatten = (xs.flatMap smallFrameWords).flatten := by
  induction xs with
  | nil => rfl
  | cons x xs ih =>
    rw [map_cons, flatten_cons, ih, flatMap_cons, flatten_append]
    rfl

theorem words_smallFrames (xs : List UInt8) :
    ∀ w ∈ xs.flatMap smallFrameWords, w.length = 8 ∧ readField w 4 2 = 0 := by
  intro w hw
  obtain ⟨x, -, hw⟩ := mem_flatMap.mp hw
  simp only [smallFrameWords, mem_cons, mem_append, mem_replicate] at hw
  rcases hw with (rfl | ⟨-, rfl⟩) | rfl | ⟨-, rfl⟩
  · decide
  · decide
  · exact ⟨rfl, rfl⟩
  · decide

theorem ReorderState.stageOrderedMessages_errors {items : List Parsed} (h : ∀ item ∈ items, item = .error)
    (r : ReorderState) : r.stageOrderedMessages maxRetained items = r := by
  rw [eq_replicate_of_mem h, stageOrderedMessages]
  simp

theorem Subscriber.receive_overLimit (maxRetained : Nat) {p c : Nat} {xs : List UInt8} (hc : s.streams c = {})
    (hencodable : (smallBatch p 0 xs).metadata.Encodable) (hover : ¬ (smallBatch p 0 xs).WithinLimits) :
    (s.receive maxRetained c (smallBatch p 0 xs).encode).reorder = s.reorder := by
  have hrejected : (smallBatch p 0 xs).metadata.accepted = false := by
    rw [Bool.eq_false_iff]
    intro haccepted
    exact hover (accepted_iff.mp haccepted).2.2
  have herrors : ∀ item ∈ (Decoder.decode parseNext {} (smallBatch p 0 xs).encode).2.1, item = .error := by
    intro item hitem
    have hfirst := parseNext_rejected hencodable hrejected (smallBatch p 0 xs).frames.flatten
    rw [ExportedBatch.encode, Decoder.decode_of_some lawful_parseNext hfirst] at hitem
    cases mem_cons.mp hitem with
    | inl heq => exact heq
    | inr hitem =>
      rw [drop_append_of_le_length (by rw [BatchMetadata.length_encode]; decide), smallBatch, flatten_smallFrames]
        at hitem
      refine decode_words _ (words_smallFrames xs) ?_ item hitem
      rw [length_drop, BatchMetadata.length_encode]
      rfl
  rw [receive, StreamParseState.parse_eq]
  dsimp only
  rw [hc]
  split
  · rfl
  · exact ReorderState.stageOrderedMessages_errors herrors s.reorder

theorem Subscriber.delivered_of_nothing_staged {es : List SubscriberEvent} {s' : Subscriber}
    (hrun : Runs.Along (Subscriber.step maxRetained) (fun _ e => ∀ c data, e ≠ .recv c data) s es s')
    (hs : s.reorder = {}) : s'.reorder = {} ∧ s'.delivered = s.delivered := by
  refine hrun.invariant (I := fun t => t.reorder = {} ∧ t.delivered = s.delivered)
    (fun t e t' hkind hstep ht => ?_) ⟨hs, rfl⟩
  cases e with
  | recv c data => exact absurd rfl (hkind c data)
  | consume =>
    rw [step, ht.1] at hstep
    cases hstep
    exact ⟨rfl, (append_nil _).trans ht.2⟩
  | consumeBatch n =>
    rw [step, ht.1] at hstep
    cases hstep
    have hpop : ({} : ReorderState).tryPopMany (min n maxRetained) = ({}, []) := by
      rw [ReorderState.tryPopMany]
      split
      · rfl
      · cases min n maxRetained <;> rfl
    dsimp only
    rw [hpop]
    exact ⟨rfl, (append_nil _).trans ht.2⟩

def orderedBatch (n : Nat) : ExportedBatch := smallBatch 0 0 ((List.range n).map fun p => UInt8.ofNat (7 + p))

theorem numMessages_orderedBatch (n : Nat) : (orderedBatch n).metadata.numMessages = n := by
  dsimp only [orderedBatch, smallBatch]
  rw [length_map, length_range]

theorem exported_orderedBatch {n : Nat} (hpos : 0 < n) (hn : n < 2 ^ 32) :
    (orderedBatch n).Exported twoStreamsSent := by
  have hlength : ((List.range n).map fun p => UInt8.ofNat (7 + p)).length = n := by rw [length_map, length_range]
  refine exported_smallBatch (hlength.symm ▸ hpos) (hlength.symm ▸ hn) (Nat.two_pow_pos 64) fun i x hx => ?_
  rw [List.getElem?_map, Option.map_eq_some_iff] at hx
  obtain ⟨j, hj, rfl⟩ := hx
  obtain ⟨hi, rfl⟩ := List.getElem?_eq_some_iff.mp hj
  rw [List.getElem_range, Nat.zero_add]

theorem covers_orderedBatch (n p : Nat) : p < n ↔ (orderedBatch n).Covers p := by
  rw [ExportedBatch.Covers, numMessages_orderedBatch]
  dsimp only [orderedBatch, smallBatch]
  rw [Nat.zero_add]
  exact ⟨fun hp => ⟨Nat.zero_le p, hp⟩, And.right⟩

theorem Subscriber.delivers_nothing {p : Nat} {xs : List UInt8}
    (hencodable : (smallBatch p 0 xs).metadata.Encodable) (hover : ¬ (smallBatch p 0 xs).WithinLimits) :
    ∃ s : Subscriber, ({} : Subscriber).step maxRetained (.recv 0 (smallBatch p 0 xs).encode) = some s ∧
      s.received 0 = (smallBatch p 0 xs).encode ∧ s.reorder.retentionExhausted = false ∧
      ∀ es s', Runs.Along (Subscriber.step maxRetained) (fun _ e => ∀ c data, e ≠ .recv c data) s es s' →
        s'.reorder.retentionExhausted = false ∧ s'.delivered = [] := by
  have hreorder := receive_overLimit (s := {}) (c := 0) maxRetained rfl hencodable hover
  have hnonempty : (smallBatch p 0 xs).encode ≠ [] := by
    intro hnil
    have := congrArg List.length hnil
    rw [ExportedBatch.encode, length_append, BatchMetadata.length_encode, length_nil, batchMetadataSize] at this
    omega
  have hstep : ({} : Subscriber).step maxRetained (.recv 0 (smallBatch p 0 xs).encode) =
      some (({} : Subscriber).receive maxRetained 0 (smallBatch p 0 xs).encode) := by
    rw [step]
    exact if_neg hnonempty
  have hdelivered : (({} : Subscriber).receive maxRetained 0 (smallBatch p 0 xs).encode).delivered = [] := by
    rw [receive, StreamParseState.parse_eq]
    split <;> rfl
  refine ⟨_, hstep, ?_, ?_, fun es s' hrun => ?_⟩
  · rw [received_step hstep]
    rfl
  · rw [hreorder]
  · obtain ⟨hr, hd⟩ := delivered_of_nothing_staged hrun hreorder
    exact ⟨by rw [hr], hd.trans hdelivered⟩

end OverLimit

end Embarcadero
