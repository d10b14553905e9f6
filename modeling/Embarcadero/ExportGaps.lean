import Embarcadero.SubscriberOrder

namespace Embarcadero

open List
open Reorder (Buffer)
open Wire

def SubscriberEvent.isPop : SubscriberEvent → Bool
  | .recv _ _ => false
  | .consume => true
  | .consumeBatch _ => true

namespace Subscriber

variable {s s' t : Subscriber} {c : Nat} {data : List UInt8} {maxRetained : Nat}

def skipsOnlyMissing (s : Subscriber) (c : Nat) (data : List UInt8) : Bool :=
  (s.chunkItems c data).all fun
    | .gap start =>
      start ≤ s.reorder.next || (s.reorder.pending.take (start - s.reorder.next)).all Option.isNone &&
          (s.chunkItems c data).all fun
            | .message order _ => order < s.reorder.next || start ≤ order
            | _ => true
    | _ => true

theorem careful_of_skipsOnlyMissing (h : s.skipsOnlyMissing c data = true) :
    s.buffer.Careful (ReorderState.toItems (s.chunkItems c data)) := by
  rw [skipsOnlyMissing, all_eq_true] at h
  have hgap : ∀ g ∈ Reorder.gaps (ReorderState.toItems (s.chunkItems c data)), s.buffer.next < g →
      (∀ x ∈ s.reorder.pending.take (g - s.reorder.next), x = none) ∧
        ∀ item ∈ s.chunkItems c data, ∀ order msg, item = .message order msg →
          order < s.reorder.next ∨ g ≤ order := by
    intro g hg hlt
    have hmem : .gap g ∈ s.chunkItems c data := by
      rw [ReorderState.gaps_toItems, mem_filterMap] at hg
      obtain ⟨item, hitem, heq⟩ := hg
      cases item with
      | gap start =>
        cases heq
        exact hitem
      | message order msg => cases heq
      | error => cases heq
    have hcase := h _ hmem
    dsimp only at hcase
    rw [Bool.or_eq_true, Bool.and_eq_true, all_eq_true, all_eq_true, decide_eq_true_eq] at hcase
    obtain ⟨hwait, hchunk⟩ := hcase.resolve_left (Nat.not_le.mpr hlt)
    refine ⟨fun x hx => Option.isNone_iff_eq_none.mp (hwait x hx), ?_⟩
    rintro item hitem order msg rfl
    simpa using hchunk _ hitem
  constructor
  · intro g hg hlt p hp hpg
    have hwait := (hgap g hg hlt).1
    dsimp only [buffer, ReorderState.buffer] at hp ⊢
    rw [if_neg (Nat.not_lt.mpr hp), List.getD_eq_getElem?_getD]
    cases hx : s.reorder.pending[p - s.reorder.next]? with
    | none => rfl
    | some x =>
      refine hwait x (mem_iff_getElem?.mpr ⟨p - s.reorder.next, ?_⟩)
      rw [List.getElem?_take, if_pos (by omega), hx]
  · intro m hm g hg hlt
    exact (hgap g hg hlt).2 _ (mem_messages_toItems.mp hm) _ _ rfl

inductive DrainedRun (maxRetained : Nat) (K : Subscriber → List UInt8 → Prop) :
    Subscriber → List (List UInt8) → Subscriber → Prop
  | nil (s : Subscriber) : DrainedRun maxRetained K s [] s
  | cons {s s₁ s₂ t : Subscriber} {data : List UInt8} {chunks : List (List UInt8)}
      {pops : List SubscriberEvent} : K s data → s.step maxRetained (.recv 0 data) = some s₁ →
      Runs.Along (Subscriber.step maxRetained) (fun _ e => e.isPop = true) s₁ pops s₂ →
      s₂.reorder.tryPop.2 = none → DrainedRun maxRetained K s₂ chunks t →
      DrainedRun maxRetained K s (data :: chunks) t

variable {chunks : List (List UInt8)} {es : List SubscriberEvent} {K : Subscriber → List UInt8 → Prop}
  {e : SubscriberEvent}

theorem InStep.pop (h : s.InStep) (he : e.isPop = true) (hstep : s.step maxRetained e = some s') :
    s'.InStep ∧ s'.received = s.received ∧ ∃ k, s'.buffer = Buffer.pop^[k] s.buffer := by
  cases e with
  | recv c data => cases he
  | consume =>
    obtain ⟨hinStep, -, hrec, hbuf⟩ := h.consume hstep
    exact ⟨hinStep, hrec, 1, hbuf⟩
  | consumeBatch n =>
    obtain ⟨hinStep, -, hrec, hbuf⟩ := h.consumeBatch hstep
    exact ⟨hinStep, hrec, _, hbuf⟩

theorem InStep.pops (h : s.InStep) {es : List SubscriberEvent}
    (hrun : Runs.Along (Subscriber.step maxRetained) (fun _ e => e.isPop = true) s es t) :
    t.InStep ∧ t.received = s.received ∧ ∃ k, t.buffer = Buffer.pop^[k] s.buffer := by
  refine hrun.invariant (I := fun t => t.InStep ∧ t.received = s.received ∧
    ∃ k, t.buffer = Buffer.pop^[k] s.buffer) ?_ ⟨h, rfl, 0, rfl⟩
  rintro u e u' he hstep ⟨hu, hrec, k, hbuf⟩
  obtain ⟨hu', hrec', l, hbuf'⟩ := hu.pop he hstep
  exact ⟨hu', hrec'.trans hrec, l + k, by rw [hbuf', hbuf, Function.iterate_add_apply]⟩

theorem retention_run {K : Subscriber → SubscriberEvent → Prop}
    (hrun : Runs.Along (Subscriber.step maxRetained) K s es t) (h : t.reorder.retentionExhausted = false) :
    s.reorder.retentionExhausted = false := by
  induction hrun with
  | nil => exact h
  | cons _ hstep _ ih => exact retention_step hstep (ih h)

theorem DrainedRun.retention (hrun : DrainedRun maxRetained K s chunks t) (h : t.reorder.retentionExhausted = false) :
    s.reorder.retentionExhausted = false := by
  induction hrun with
  | nil => exact h
  | cons _ hrecv hpops _ _ ih => exact retention_step hrecv (retention_run hpops (ih h))

theorem DrainedRun.mono {K' : Subscriber → List UInt8 → Prop} (hrun : DrainedRun maxRetained K s chunks t)
    (h : ∀ s data, K s data → K' s data) : DrainedRun maxRetained K' s chunks t := by
  induction hrun with
  | nil => exact .nil _
  | cons hK hrecv hpops hnone _ ih => exact .cons (h _ _ hK) hrecv hpops hnone ih

theorem DrainedRun.buffer_eq (hrun : DrainedRun maxRetained (fun s data => s.skipsOnlyMissing 0 data = true) s chunks t)
    (hok : t.reorder.retentionExhausted = false) (h : s.InStep) (hs : s.buffer.Stalled) :
    t.received 0 = s.received 0 ++ chunks.flatten ∧
      ∃ items, t.parsed 0 = s.parsed 0 ++ items ∧
        t.buffer = (ReorderState.toItems items).foldl Buffer.settle s.buffer := by
  induction hrun with
  | nil => exact ⟨(append_nil _).symm, [], (append_nil _).symm, rfl⟩
  | @cons s s₁ s₂ t data chunks pops hskips hrecv hpops hnone hrest ih =>
    have hok₁ := retention_run hpops (hrest.retention hok)
    obtain ⟨hin₁, -, hrec₁, hparsed₁, hbuf₁⟩ := h.recv hrecv hok₁
    obtain ⟨hin₂, hrec₂, k, hbuf₂⟩ := hin₁.pops hpops
    have hstalled : s₂.buffer.Stalled := ReorderState.stalled_of_tryPop hin₂.aligned hnone
    obtain ⟨hrec, items, hparsed, hbuf⟩ := ih hok hin₂ hstalled
    have hparsed₂ : s₂.parsed 0 = s.parsed 0 ++ s.chunkItems 0 data := by
      rw [parsed, hrec₂]
      exact (congrFun hparsed₁ 0).trans (Function.update_self _ _ _)
    -- the pops after the chunk drain it
    have hdrain : s₂.buffer = (ReorderState.toItems (s.chunkItems 0 data)).foldl Buffer.settle s.buffer := by
      rw [hbuf₂] at hstalled ⊢
      rw [Buffer.iterate_pop_eq_drain hstalled, hbuf₁, Buffer.drain_batch hs (careful_of_skipsOnlyMissing hskips)]
    refine ⟨?_, s.chunkItems 0 data ++ items, ?_, ?_⟩
    · rw [hrec, hrec₂, hrec₁, Function.update_self, flatten_cons, append_assoc]
    · rw [hparsed, hparsed₂, append_assoc]
    · rw [hbuf, hdrain, ReorderState.toItems, ReorderState.toItems, ReorderState.toItems,
        filterMap_append, foldl_append]

theorem stalled_empty : ({} : Subscriber).buffer.Stalled := rfl

theorem DrainedRun.delivered_eq {chunks₁ chunks₂ : List (List UInt8)} {s₁ s₂ : Subscriber}
    (h₁ : DrainedRun maxRetained (fun s data => s.skipsOnlyMissing 0 data = true) {} chunks₁ s₁)
    (h₂ : DrainedRun maxRetained (fun s data => s.skipsOnlyMissing 0 data = true) {} chunks₂ s₂)
    (hsame : chunks₁.flatten = chunks₂.flatten) (hok₁ : s₁.reorder.retentionExhausted = false)
    (hok₂ : s₂.reorder.retentionExhausted = false) : s₁.delivered = s₂.delivered := by
  obtain ⟨hrec₁, items₁, hparsed₁, hbuf₁⟩ := h₁.buffer_eq hok₁ inStep_empty stalled_empty
  obtain ⟨hrec₂, items₂, hparsed₂, hbuf₂⟩ := h₂.buffer_eq hok₂ inStep_empty stalled_empty
  have hitems : items₁ = items₂ := by
    have hrec : s₁.received 0 = s₂.received 0 := by rw [hrec₁, hrec₂, hsame]
    have hempty : ({} : Subscriber).parsed 0 = [] := rfl
    rw [hempty, nil_append] at hparsed₁ hparsed₂
    rw [← hparsed₁, ← hparsed₂, parsed, parsed, hrec]
  have hbuf : s₁.buffer = s₂.buffer := by rw [hbuf₁, hbuf₂, hitems]
  exact congrArg Buffer.out hbuf

def SkipsOnlyMissing (s : Subscriber) : SubscriberEvent → Prop
  | .recv c data => s.skipsOnlyMissing c data = true
  | .consume => True
  | .consumeBatch _ => True

instance (s : Subscriber) : DecidablePred s.SkipsOnlyMissing
  | .recv c data => inferInstanceAs (Decidable (s.skipsOnlyMissing c data = true))
  | .consume => .isTrue trivial
  | .consumeBatch _ => .isTrue trivial

theorem InStep.keeps (h : s.InStep) (hskips : s.SkipsOnlyMissing e) (hstep : s.step maxRetained e = some s')
    (hok : s'.reorder.retentionExhausted = false) : s'.InStep ∧ Buffer.Keeps s.buffer s'.buffer := by
  cases e with
  | recv c data =>
    have hr := h.recv hstep hok
    exact ⟨hr.inStep, hr.buffer ▸ (careful_of_skipsOnlyMissing hskips).keeps⟩
  | consume =>
    obtain ⟨hinStep, -, k, hbuf⟩ := h.pop rfl hstep
    exact ⟨hinStep, hbuf ▸ Buffer.keeps_iterate_pop _ k⟩
  | consumeBatch n =>
    obtain ⟨hinStep, -, k, hbuf⟩ := h.pop rfl hstep
    exact ⟨hinStep, hbuf ▸ Buffer.keeps_iterate_pop _ k⟩

theorem InStep.keeps_run (hrun : Runs.Along (Subscriber.step maxRetained) SkipsOnlyMissing s es t)
    (hok : t.reorder.retentionExhausted = false) (h : s.InStep) : t.InStep ∧ Buffer.Keeps s.buffer t.buffer := by
  induction hrun with
  | nil => exact ⟨h, .refl _⟩
  | cons hskips hstep hrest ih =>
    obtain ⟨hinStep, hkeeps⟩ := h.keeps hskips hstep (retention_run hrest hok)
    obtain ⟨hinStep', hkeeps'⟩ := ih hok hinStep
    exact ⟨hinStep', hkeeps.trans hkeeps'⟩

/-- If gap reports only skip positions for which nothing has been received, then the cutting of a
stream makes no difference, and what waits or arrives in time is returned or goes on waiting. -/
theorem gap_reports_lose_nothing_received :
    (∀ {chunks₁ chunks₂ : List (List UInt8)} {s₁ s₂ : Subscriber},
      DrainedRun maxRetained (fun s data => s.skipsOnlyMissing 0 data = true) {} chunks₁ s₁ →
      DrainedRun maxRetained (fun s data => s.skipsOnlyMissing 0 data = true) {} chunks₂ s₂ →
      chunks₁.flatten = chunks₂.flatten → s₁.reorder.retentionExhausted = false →
      s₂.reorder.retentionExhausted = false → s₁.delivered = s₂.delivered) ∧
    ∀ {es es' : List SubscriberEvent} {s s' t : Subscriber} {c : Nat} {data : List UInt8},
      Runs.Along (Subscriber.step maxRetained) SkipsOnlyMissing {} es s →
      s.SkipsOnlyMissing (.recv c data) → s.step maxRetained (.recv c data) = some s' →
      Runs.Along (Subscriber.step maxRetained) SkipsOnlyMissing s' es' t → t.reorder.retentionExhausted = false →
      ∀ {p : Nat} {m : OwnedMessage},
        (s.buffer.slot p = some m ∨ .message p m ∈ s.chunkItems c data ∧ s.reorder.next ≤ p) →
        ∃ m', s'.buffer.slot p = some m' ∧ (s.buffer.slot p = some m → m' = m) ∧
          (t.buffer.slot p = some m' ∨ m' ∈ t.delivered) := by
  refine ⟨fun h₁ h₂ hsame hok₁ hok₂ => h₁.delivered_eq h₂ hsame hok₁ hok₂, ?_⟩
  intro es es' s s' t c data hrun hskips hstep hrun' hok p m hm
  have hok' : s'.reorder.retentionExhausted = false := retention_run hrun' hok
  have hin : s.InStep := (InStep.keeps_run hrun (retention_step hstep hok') inStep_empty).1
  have hr := hin.recv hstep hok'
  have hcareful := careful_of_skipsOnlyMissing hskips
  have hkeeps := (InStep.keeps_run hrun' hok hr.inStep).2
  have hslot : ∃ m', s'.buffer.slot p = some m' ∧ (s.buffer.slot p = some m → m' = m) := by
    rw [hr.buffer]
    by_cases hold : s.buffer.slot p = some m
    · exact ⟨m, hcareful.slot_batch hold, fun _ => rfl⟩
    · obtain ⟨hmem, hnext⟩ := hm.resolve_left hold
      obtain ⟨m', hm'⟩ := Option.ne_none_iff_exists'.mp
        (hcareful.takes (m := m) (mem_messages_toItems.mpr hmem) hnext)
      exact ⟨m', hm', fun h => absurd h hold⟩
  obtain ⟨m', hm', hsame⟩ := hslot
  exact ⟨m', hm', hsame, hkeeps.slot hm'⟩

def drainedExec (maxRetained : Nat) (K : Subscriber → List UInt8 → Bool) :
    Subscriber → List (List UInt8) → Option Subscriber
  | s, [] => some s
  | s, data :: chunks =>
    if K s data then do
      let s₁ ← s.step maxRetained (.recv 0 data)
      let s₂ ← s₁.step maxRetained (.consumeBatch maxRetained)
      if s₂.reorder.tryPop.2 = none then drainedExec maxRetained K s₂ chunks else none
    else none

theorem drainedRun_of_exec {K : Subscriber → List UInt8 → Bool} (h : drainedExec maxRetained K s chunks = some t) :
    DrainedRun maxRetained (fun s data => K s data = true) s chunks t := by
  induction chunks generalizing s with
  | nil =>
    cases h
    exact .nil _
  | cons data chunks ih =>
    simp only [drainedExec, Option.bind_eq_bind, Option.ite_none_right_eq_some, Option.bind_eq_some_iff] at h
    obtain ⟨hK, s₁, hrecv, s₂, hpop, hnone, hrest⟩ := h
    exact .cons hK hrecv (.cons rfl hpop (.nil _)) hnone (ih hrest)

end Subscriber

def gapStream : List ExportedBatch := [smallBatch 0 0 [7, 8], smallBatch 5 1 [9]]

theorem wellFormed_gapStream : ∀ b ∈ gapStream, b.WellFormed := by
  intro b hb
  simp only [gapStream, mem_cons, not_mem_nil, or_false] at hb
  rcases hb with rfl | rfl
  · exact wellFormed_smallBatch (by decide) (by decide) (by decide) (by decide)
  · exact wellFormed_smallBatch (by decide) (by decide) (by decide) (by decide)

def gapStreamBatches : List (List UInt8) := gapStream.map ExportedBatch.encode

def gapStreamPieces : List (List UInt8) :=
  [(ExportedBatch.encodeAll gapStream).take 100, ((ExportedBatch.encodeAll gapStream).drop 100).take 172,
    ((ExportedBatch.encodeAll gapStream).drop 272).take 40, (ExportedBatch.encodeAll gapStream).drop 312]

theorem gap_reports_lose_nothing_received_gapStream : ∃ s₁ s₂ s t : Subscriber,
    Subscriber.DrainedRun 100 (fun s data => s.skipsOnlyMissing 0 data = true) {} gapStreamBatches s₁ ∧
    Subscriber.DrainedRun 100 (fun s data => s.skipsOnlyMissing 0 data = true) {} gapStreamPieces s₂ ∧
    s₁.delivered.length = 3 ∧ s₁.delivered = s₂.delivered ∧
    ∃ m, s.buffer.slot 1 = some m ∧ (t.buffer.slot 1 = some m ∨ m ∈ t.delivered) := by
  obtain ⟨s₁, hs₁, h₁⟩ := Option.map_eq_some_iff.mp
    (show (Subscriber.drainedExec 100 (fun s data => s.skipsOnlyMissing 0 data) {}
      gapStreamBatches).map (fun s => (s.delivered.length, s.reorder.retentionExhausted)) =
        some (3, false) by decide +kernel)
  obtain ⟨s₂, hs₂, h₂⟩ := Option.map_eq_some_iff.mp
    (show (Subscriber.drainedExec 100 (fun s data => s.skipsOnlyMissing 0 data) {}
      gapStreamPieces).map (fun s => s.reorder.retentionExhausted) = some false by decide +kernel)
  have hrun₁ := Subscriber.drainedRun_of_exec hs₁
  have hrun₂ := Subscriber.drainedRun_of_exec hs₂
  have hall := @Subscriber.gap_reports_lose_nothing_received 100
  have hsame := hall.1 hrun₁ hrun₂ (by decide +kernel) (congrArg Prod.snd h₁) h₂
  -- position 1 arrives with the first batch and is returned by the second pop
  obtain ⟨s, hs, hsok⟩ := Option.map_eq_some_iff.mp
    (show (({} : Subscriber).step 100 (.recv 0 (smallBatch 0 0 [7, 8]).encode)).map
      (fun s => s.reorder.retentionExhausted) = some false by decide +kernel)
  obtain ⟨t, ht, htok⟩ := Option.map_eq_some_iff.mp
    (show ((({} : Subscriber).step 100 (.recv 0 (smallBatch 0 0 [7, 8]).encode)).bind fun s =>
      Runs.exec (Subscriber.step 100) Subscriber.SkipsOnlyMissing s [.consume, .consume]).map
        (fun s => s.reorder.retentionExhausted) = some false by decide +kernel)
  rw [hs, Option.bind_some] at ht
  obtain ⟨m, hm, -, hkept⟩ := hall.2 (.nil _) (show Subscriber.skipsOnlyMissing {} 0 _ = true by
    decide +kernel) hs (Runs.along_of_exec ht) htok (p := 1)
    (m := (⟨headerVersionV2, smallFrame 8⟩ : OwnedMessage).stamp 1)
    (.inr ⟨by decide +kernel, Nat.zero_le 1⟩)
  exact ⟨s₁, s₂, s, t, hrun₁, hrun₂, congrArg Prod.fst h₁, hsame, m, hm, hkept⟩

/-- In one chunk the report discards positions 0 and 1, which came before it; cut between the batches,
they are delivered. -/
theorem gap_report_discards_received : (∀ b ∈ gapStream, b.WellFormed) ∧ ∃ s₁ s₂ : Subscriber,
    Subscriber.DrainedRun 100 (fun _ _ => True) {} [ExportedBatch.encodeAll gapStream] s₁ ∧
    Subscriber.DrainedRun 100 (fun _ _ => True) {} gapStreamBatches s₂ ∧
    [ExportedBatch.encodeAll gapStream].flatten = gapStreamBatches.flatten ∧
    s₁.reorder.retentionExhausted = false ∧ s₂.reorder.retentionExhausted = false ∧
    s₁.delivered ≠ s₂.delivered ∧
    ∃ m, .message 0 m ∈ Subscriber.chunkItems {} 0 (ExportedBatch.encodeAll gapStream) ∧
      m ∉ s₁.delivered ∧ s₁.buffer.slot 0 = none := by
  refine ⟨wellFormed_gapStream, ?_⟩
  obtain ⟨s₁, hs₁, h₁⟩ := Option.map_eq_some_iff.mp
    (show (Subscriber.drainedExec 100 (fun _ _ => true) {} [ExportedBatch.encodeAll gapStream]).map
      (fun s => (s.delivered, s.reorder)) = some ([(⟨headerVersionV2, smallFrame 9⟩ : OwnedMessage).stamp 5],
          { next := 6, base := 6, received := 3, duplicates := 2, gapsReported := 1 }) by
      decide +kernel)
  obtain ⟨s₂, hs₂, h₂⟩ := Option.map_eq_some_iff.mp
    (show (Subscriber.drainedExec 100 (fun _ _ => true) {} gapStreamBatches).map
      (fun s => (s.delivered.length, s.reorder.retentionExhausted)) = some (3, false) by
      decide +kernel)
  rw [Prod.mk.injEq] at h₁ h₂
  refine ⟨s₁, s₂, ?_, ?_, by decide +kernel, ?_, h₂.2, ?_, ?_⟩
  · exact (Subscriber.drainedRun_of_exec hs₁).mono fun _ _ _ => trivial
  · exact (Subscriber.drainedRun_of_exec hs₂).mono fun _ _ _ => trivial
  · rw [h₁.2]
  · intro heq
    rw [← heq, h₁.1] at h₂
    cases h₂.1
  · refine ⟨(⟨headerVersionV2, smallFrame 7⟩ : OwnedMessage).stamp 0, by decide +kernel, ?_, ?_⟩
    · rw [h₁.1]
      decide +kernel
    · rw [Subscriber.buffer, h₁.2]
      rfl

end Embarcadero
