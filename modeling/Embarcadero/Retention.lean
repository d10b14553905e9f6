import Embarcadero.Publisher

namespace Embarcadero

open List

variable {p p' : Publisher}

namespace Publisher

theorem wireBytes_append (l l' : List UnackedBatch) : wireBytes (l ++ l') = wireBytes l + wireBytes l' := by
  rw [wireBytes, map_append, sum_append]
  rfl

theorem wireBytes_perm {l l' : List UnackedBatch} (h : l.Perm l') : wireBytes l = wireBytes l' :=
  (h.map _).sum_eq

theorem insertUnacked_perm (r : UnackedBatch) (l : List UnackedBatch) : (insertUnacked r l).Perm (r :: l) := by
  induction l with
  | nil => exact .refl _
  | cons q rest ih =>
    rw [insertUnacked]
    split
    · exact .refl _
    · exact (ih.cons q).trans (.swap r q rest)

theorem insertUnacked_sorted {r : UnackedBatch} {l : List UnackedBatch}
    (h : l.Pairwise fun a b => a.currentBatchSeq ≤ b.currentBatchSeq) :
    (insertUnacked r l).Pairwise fun a b => a.currentBatchSeq ≤ b.currentBatchSeq := by
  induction l with
  | nil => exact pairwise_singleton _ _
  | cons q rest ih =>
    rw [pairwise_cons] at h
    rw [insertUnacked]
    split
    next hlt =>
      refine pairwise_cons.mpr ⟨?_, pairwise_cons.mpr h⟩
      intro a ha
      cases mem_cons.mp ha with
      | inl heq => exact heq ▸ Nat.le_of_lt hlt
      | inr hmem => exact Nat.le_trans (Nat.le_of_lt hlt) (h.1 a hmem)
    next hle =>
      refine pairwise_cons.mpr ⟨?_, ih h.2⟩
      intro a ha
      cases mem_cons.mp ((insertUnacked_perm r rest).mem_iff.mp ha) with
      | inl heq => exact heq ▸ Nat.le_of_not_lt hle
      | inr hmem => exact h.1 a hmem

structure Books (p : Publisher) : Prop where
  bytes : p.unackedBytes = wireBytes p.unackedBatches
  sorted : p.unackedBatches.Pairwise fun a b => a.currentBatchSeq ≤ b.currentBatchSeq

theorem Books.advance (h : p.Books) : p.advanceRetireThroughTrimmedHoles.Books := by
  rw [advanceRetireThroughTrimmedHoles]
  split
  · exact h
  · refine ⟨?_, h.sorted.sublist (dropWhile_sublist _)⟩
    dsimp only
    have hsplit := wireBytes_append (p.unackedBatches.takeWhile (·.currentBatchSeq < p.sessionNextRetireBatchSeq))
      (p.unackedBatches.dropWhile (·.currentBatchSeq < p.sessionNextRetireBatchSeq))
    rw [takeWhile_append_dropWhile, ← h.bytes] at hsplit
    omega

theorem Books.trim (h : p.Books) (hwm : Nat) : (p.trimUnackedThroughBatchSeq hwm).Books := by
  apply Books.advance
  refine ⟨?_, h.sorted.sublist filter_sublist⟩
  dsimp only
  have hsplit := wireBytes_perm (filter_append_perm (fun r => decide (r.originalBatchSeq ≤ hwm)) p.unackedBatches)
  rw [wireBytes_append, ← h.bytes] at hsplit
  simp only [← decide_not, Nat.not_le] at hsplit
  omega

theorem Books.record (h : p.Books) (b : SentBatch) : (p.recordUnackedBatch b).Books := by
  rw [recordUnackedBatch]
  split
  · exact h
  · split
    · exact h.advance
    · refine ⟨?_, insertUnacked_sorted h.sorted⟩
      dsimp only
      rw [wireBytes_perm (insertUnacked_perm _ _), h.bytes, Nat.add_comm]
      rfl

theorem Books.heal (h : p.Books) : p.heal.Books := by
  rw [Publisher.heal]
  split
  · exact h.advance
  · exact h

theorem Books.retireFront {ackHwm : Nat} (h : p.Books) (hr : p.retireFront ackHwm = some p') : p'.Books := by
  rw [Publisher.retireFront] at hr
  split at hr
  · cases hr
  next r rest hl =>
    dsimp only at hr
    split at hr
    · cases hr
    · cases hr
      have hbytes := h.bytes
      have hsorted := h.sorted
      rw [hl] at hbytes hsorted
      refine ⟨?_, hsorted.of_cons⟩
      rw [hbytes]
      exact Nat.add_sub_cancel_left _ _

theorem Books.completeLoop (ackHwm fuel : Nat) : ∀ {p : Publisher}, p.Books → (completeLoop ackHwm fuel p).Books := by
  induction fuel with
  | zero => exact id
  | succ fuel ih =>
    intro p h
    rw [Publisher.completeLoop]
    split
    · exact h.heal
    · exact ih (h.heal.retireFront ‹_›)

theorem Books.complete (h : p.Books) (ackHwm : Nat) : (p.completeUnackedThrough ackHwm).Books := by
  rw [completeUnackedThrough]
  split
  · exact h
  · exact h.completeLoop ackHwm _

def Reworked (p p' : Publisher) : Prop :=
  ∃ unacked bytes hwm next trimmed, List.Sublist unacked p.unackedBatches ∧ p' = { p with
    unackedBatches := unacked
    unackedBytes := bytes
    sessionRetirePrefixHwm := hwm
    sessionNextRetireBatchSeq := next
    sessionTrimCommittedHwm := trimmed }

theorem Reworked.refl (p : Publisher) : Reworked p p := ⟨_, _, _, _, _, .refl _, rfl⟩

theorem Reworked.trans {p₁ p₂ p₃ : Publisher} (h : Reworked p₁ p₂) (h' : Reworked p₂ p₃) : Reworked p₁ p₃ := by
  obtain ⟨u, b, x, n, t, hsub, rfl⟩ := h
  obtain ⟨u', b', x', n', t', hsub', rfl⟩ := h'
  exact ⟨u', b', x', n', t', hsub'.trans hsub, rfl⟩

theorem reworked_advance (p : Publisher) : Reworked p p.advanceRetireThroughTrimmedHoles := by
  rw [advanceRetireThroughTrimmedHoles]
  split
  · exact .refl p
  · exact ⟨_, _, _, _, _, dropWhile_sublist _, rfl⟩

theorem reworked_trim (p : Publisher) (hwm : Nat) : Reworked p (p.trimUnackedThroughBatchSeq hwm) :=
  Reworked.trans ⟨_, _, _, _, _, filter_sublist, rfl⟩ (reworked_advance _)

theorem reworked_heal (p : Publisher) : Reworked p p.heal := by
  rw [heal]
  split
  · exact reworked_advance p
  · exact .refl p

theorem reworked_retireFront {ackHwm : Nat} (h : p.retireFront ackHwm = some p') : Reworked p p' := by
  rw [retireFront] at h
  split at h
  · cases h
  next r rest hl =>
    dsimp only at h
    split at h
    · cases h
    · cases h
      exact ⟨_, _, _, _, _, hl ▸ sublist_cons_self r rest, rfl⟩

theorem reworked_completeLoop (ackHwm fuel : Nat) : ∀ p : Publisher, Reworked p (completeLoop ackHwm fuel p) := by
  induction fuel with
  | zero => exact Reworked.refl
  | succ fuel ih =>
    intro p
    rw [completeLoop]
    split
    · exact reworked_heal p
    · exact ((reworked_heal p).trans (reworked_retireFront ‹_›)).trans (ih _)

theorem reworked_complete (p : Publisher) (ackHwm : Nat) : Reworked p (p.completeUnackedThrough ackHwm) := by
  rw [completeUnackedThrough]
  split
  · exact .refl p
  · exact reworked_completeLoop _ _ p

end Publisher

def msgAt (sealed : List BatchBody) (seq : Nat) : Nat := (sealed[seq]?.map (·.numMsg)).getD 0

def ackEnd (base : Nat) (sealed : List BatchBody) (n : Nat) : Nat :=
  base + ((sealed.take n).map (·.numMsg)).sum

variable {base : Nat} {sealed : List BatchBody}

theorem ackEnd_succ (base : Nat) (sealed : List BatchBody) (n : Nat) :
    ackEnd base sealed (n + 1) = ackEnd base sealed n + msgAt sealed n := by
  rw [ackEnd, ackEnd, msgAt, take_add_one, map_append, sum_append]
  cases sealed[n]? with
  | none => rfl
  | some b => simp [Nat.add_assoc]

theorem ackEnd_add (base : Nat) (sealed : List BatchBody) (n k : Nat) :
    ackEnd base sealed (n + k) = ackEnd base sealed n + ((List.range' n k).map (msgAt sealed)).sum := by
  induction k with
  | zero => simp
  | succ k ih =>
    rw [← Nat.add_assoc, ackEnd_succ, ih, List.range'_concat, map_append, sum_append]
    simp [Nat.add_assoc]

theorem ackEnd_mono (base : Nat) (sealed : List BatchBody) {n m : Nat} (h : n ≤ m) :
    ackEnd base sealed n ≤ ackEnd base sealed m := by
  rw [← Nat.add_sub_cancel' h, ackEnd_add]
  exact Nat.le_add_right _ _

theorem ackEnd_append (base : Nat) (sealed : List BatchBody) (b : BatchBody) {n : Nat}
    (h : n ≤ sealed.length) : ackEnd base (sealed ++ [b]) n = ackEnd base sealed n := by
  rw [ackEnd, ackEnd, take_append_of_le_length h]

theorem numMsgs_eq {l : List UnackedBatch} (h : ∀ r ∈ l, sealed[r.currentBatchSeq]? = some r.body) :
    numMsgs l = ((l.map (·.currentBatchSeq)).map (msgAt sealed)).sum := by
  rw [numMsgs, map_map]
  congr 1
  apply map_congr_left
  intro r hr
  simp [msgAt, h r hr]

theorem range'_filter_lt (k a n : Nat) : (List.range' a n).filter (· < k) = List.range' a (min n (k - a)) := by
  induction n generalizing a with
  | zero => simp
  | succ n ih =>
    rw [List.range'_succ, filter_cons, ih]
    split
    next hlt =>
      have hlt : a < k := of_decide_eq_true hlt
      rw [show min (n + 1) (k - a) = min n (k - (a + 1)) + 1 by omega, List.range'_succ]
    next hge =>
      have hge : ¬a < k := fun h => hge (decide_eq_true h)
      rw [show min n (k - (a + 1)) = 0 by omega, show min (n + 1) (k - a) = 0 by omega]
      rfl

theorem range'_filter_ge (k a n : Nat) :
    (List.range' a n).filter (k ≤ ·) = List.range' (max a k) (a + n - max a k) := by
  induction n generalizing a with
  | zero => rw [show a + 0 - max a k = 0 by omega]; rfl
  | succ n ih =>
    rw [List.range'_succ, filter_cons, ih]
    split
    next hle =>
      have hle : k ≤ a := of_decide_eq_true hle
      rw [show max a k = a by omega, show max (a + 1) k = a + 1 by omega,
        show a + (n + 1) - a = (a + 1 + n - (a + 1)) + 1 by omega, List.range'_succ]
    next hlt =>
      have hlt : ¬k ≤ a := fun h => hlt (decide_eq_true h)
      rw [show max (a + 1) k = max a k by omega, show a + 1 + n = a + (n + 1) by omega]

theorem map_filter_seq (f : Nat → Bool) (l : List UnackedBatch) :
    (l.filter fun r => f r.currentBatchSeq).map (·.currentBatchSeq) = (l.map (·.currentBatchSeq)).filter f := by
  rw [filter_map]
  rfl

namespace Publisher

def pendingSeqs (p : Publisher) : List Nat :=
  p.unackedBatches.map (·.currentBatchSeq) ++ (p.sending.map (·.batchSeq) ++ p.queue.map (·.batchSeq))

structure Retains (sealed : List BatchBody) (base : Nat) (p : Publisher) : Prop where
  level : 1 ≤ p.ackLevel
  epoch : p.sessionEpoch ≠ 0
  seqs : p.nextBatchSeq = sealed.length
  cursor : p.sessionNextRetireBatchSeq ≤ sealed.length
  pending : p.pendingSeqs.Perm (List.range' p.sessionNextRetireBatchSeq (sealed.length - p.sessionNextRetireBatchSeq))
  unacked : ∀ r ∈ p.unackedBatches, sealed[r.currentBatchSeq]? = some r.body ∧ r.sessionEpoch = p.sessionEpoch
  sending : ∀ b ∈ p.sending, sealed[b.batchSeq]? = some b.body ∧ b.sessionEpoch32 = p.sessionEpoch
  queue : ∀ q ∈ p.queue, sealed[q.batchSeq]? = some q.body
  retired : p.sessionRetirePrefixHwm = ackEnd base sealed p.sessionNextRetireBatchSeq
  trimmed : ∀ hwm ∈ p.sessionTrimCommittedHwm, hwm < p.sessionNextRetireBatchSeq

/-- What `CompleteUnackedThrough` does: it passes only batches the mark covers, and stops where it
cannot retire. -/
structure Completed (sealed : List BatchBody) (base ackHwm : Nat) (p p' : Publisher) : Prop where
  retains : p'.Retains sealed base
  cursor : p.sessionNextRetireBatchSeq ≤ p'.sessionNextRetireBatchSeq
  covered : ∀ k, p.sessionNextRetireBatchSeq ≤ k → k < p'.sessionNextRetireBatchSeq →
    ackEnd base sealed (k + 1) ≤ ackHwm
  stuck : p'.retireFront ackHwm = none
  trimmed : p'.sessionTrimCommittedHwm = p.sessionTrimCommittedHwm

theorem mem_pendingSeqs {k : Nat} : k ∈ p.pendingSeqs ↔
    (∃ r ∈ p.unackedBatches, r.currentBatchSeq = k) ∨ (∃ b ∈ p.sending, b.batchSeq = k) ∨
      ∃ q ∈ p.queue, q.batchSeq = k := by
  simp only [pendingSeqs, mem_append, mem_map]

namespace Retains

theorem mem_iff {k : Nat} (h : p.Retains sealed base) :
    k ∈ p.pendingSeqs ↔ p.sessionNextRetireBatchSeq ≤ k ∧ k < sealed.length := by
  have hc := h.cursor
  rw [h.pending.mem_iff, List.mem_range'_1]
  omega

theorem queue_nodup (h : p.Retains sealed base) : (p.queue.map (·.batchSeq)).Nodup := by
  have hnodup := h.pending.nodup_iff.mpr (nodup_range' 1)
  exact hnodup.of_append_right.of_append_right

theorem cursor_le {r : UnackedBatch} (h : p.Retains sealed base) (hr : r ∈ p.unackedBatches) :
    p.sessionNextRetireBatchSeq ≤ r.currentBatchSeq :=
  (h.mem_iff.mp (mem_pendingSeqs.mpr (.inl ⟨r, hr, rfl⟩))).1

theorem sealBatch (h : p.Retains sealed base) (b : BatchBody) (n : Nat) :
    Retains (sealed ++ [b]) base { p with
      queue := p.queue ++ [⟨b, p.nextBatchSeq⟩]
      nextBatchSeq := p.nextBatchSeq + 1
      publishedMessages := n } := by
  have hlen : (sealed ++ [b]).length = sealed.length + 1 := length_append
  have hget : ∀ {k : Nat} {b' : BatchBody}, sealed[k]? = some b' → (sealed ++ [b])[k]? = some b' := by
    intro k b' hk
    rw [List.getElem?_append_left (List.getElem?_eq_some_iff.mp hk).1, hk]
  exact {
    level := h.level
    epoch := h.epoch
    seqs := by rw [h.seqs, hlen]
    cursor := by rw [hlen]; exact Nat.le_succ_of_le h.cursor
    pending := by
      have hpending := h.pending.append_right [p.nextBatchSeq]
      rw [hlen, Nat.succ_sub h.cursor, List.range'_concat, Nat.one_mul, Nat.add_sub_cancel' h.cursor, ← h.seqs]
      rw [← h.seqs] at hpending
      simpa [pendingSeqs] using hpending
    unacked := fun r hr => ⟨hget (h.unacked r hr).1, (h.unacked r hr).2⟩
    sending := fun b hb => ⟨hget (h.sending b hb).1, (h.sending b hb).2⟩
    queue := by
      intro q hq
      cases mem_append.mp hq with
      | inl hmem => exact hget (h.queue q hmem)
      | inr hmem =>
        cases mem_singleton.mp hmem
        simp [h.seqs]
    retired := by rw [ackEnd_append _ _ _ h.cursor]; exact h.retired
    trimmed := h.trimmed }

variable {ackHwm i : Nat} {b : SentBatch}

theorem send {q : QueuedBatch} (h : p.Retains sealed base) (hi : p.queue[i]? = some q) :
    Retains sealed base { p with
      queue := p.queue.eraseIdx i
      sending := p.sending ++ [⟨q.body, q.batchSeq, p.stampEpoch⟩] } := by
  obtain ⟨hlt, rfl⟩ := List.getElem?_eq_some_iff.mp hi
  have hperm := getElem_cons_eraseIdx_perm hlt
  exact { h with
    pending := by
      refine List.Perm.trans (List.Perm.append_left _ ?_) h.pending
      have hmap := (hperm.map (·.batchSeq)).append_left (p.sending.map (·.batchSeq))
      simpa using hmap
    sending := by
      intro b hb
      cases mem_append.mp hb with
      | inl hmem => exact h.sending b hmem
      | inr hmem =>
        cases mem_singleton.mp hmem
        exact ⟨h.queue _ (getElem_mem hlt), if_neg h.epoch⟩
    queue := fun q hq => h.queue q (mem_of_mem_eraseIdx hq) }

theorem record_eq (h : p.Retains sealed base) (hb : b ∈ p.sending) :
    p.recordUnackedBatch b = { p with
      sessionSentHwm := p.sessionSentHwm + b.body.numMsg
      unackedBytes := p.unackedBytes + b.body.wireBytes
      unackedBatches := insertUnacked
        ⟨b.body, b.batchSeq, b.batchSeq, b.sessionEpoch32, !p.ownedRtoCopy⟩ p.unackedBatches } := by
  have hepoch := (h.sending b hb).2
  have hlevel := h.level
  have hne := h.epoch
  have hseq := (h.mem_iff.mp (mem_pendingSeqs.mpr (.inr (.inl ⟨b, hb, rfl⟩)))).1
  rw [recordUnackedBatch, if_neg (by omega), if_neg]
  rw [Option.any_eq_true]
  rintro ⟨hwm, hmem, hle⟩
  have hlt := h.trimmed hwm hmem
  have hle := of_decide_eq_true hle
  omega

theorem record (h : p.Retains sealed base) (hi : p.sending[i]? = some b) :
    Retains sealed base { p.recordUnackedBatch b with sending := p.sending.eraseIdx i } := by
  obtain ⟨hlt, rfl⟩ := List.getElem?_eq_some_iff.mp hi
  rw [h.record_eq (getElem_mem hlt)]
  exact { h with
    pending := by
      refine List.Perm.trans ?_ h.pending
      have hins := (insertUnacked_perm ⟨p.sending[i].body, p.sending[i].batchSeq,
        p.sending[i].batchSeq, p.sending[i].sessionEpoch32, !p.ownedRtoCopy⟩ p.unackedBatches).map (·.currentBatchSeq)
      have hrest := ((getElem_cons_eraseIdx_perm hlt).map (·.batchSeq)).append_right (p.queue.map (·.batchSeq))
      refine (hins.append_right _).trans (List.Perm.trans ?_ (hrest.append_left _))
      have hmiddle := @perm_middle _ p.sending[i].batchSeq (p.unackedBatches.map (·.currentBatchSeq))
      simpa using hmiddle.symm
    unacked := by
      intro r hr
      cases mem_cons.mp ((insertUnacked_perm _ _).mem_iff.mp hr) with
      | inl heq =>
        rw [heq]
        exact h.sending _ (getElem_mem hlt)
      | inr hmem => exact h.unacked r hmem
    sending := fun b hb => h.sending b (mem_of_mem_eraseIdx hb) }

theorem heal_eq (h : p.Retains sealed base) : p.heal = p := by
  rw [heal, if_neg]
  rw [Option.any_eq_true]
  rintro ⟨r, hr, hheal⟩
  have hge := h.cursor_le (mem_of_mem_head? hr)
  rw [needsHeal, Option.any_eq_true] at hheal
  obtain ⟨hwm, hmem, hcase⟩ := hheal
  have hlt := h.trimmed hwm hmem
  simp only [Bool.or_eq_true, Bool.and_eq_true, decide_eq_true_eq] at hcase
  omega

theorem retireFront (h : p.Retains sealed base) (hr : p.retireFront ackHwm = some p') :
    p'.Retains sealed base ∧
      p'.sessionNextRetireBatchSeq = p.sessionNextRetireBatchSeq + 1 ∧
      p'.unackedBatches.length + 1 = p.unackedBatches.length ∧
      p'.sessionTrimCommittedHwm = p.sessionTrimCommittedHwm ∧
      ackEnd base sealed (p.sessionNextRetireBatchSeq + 1) ≤ ackHwm := by
  rw [Publisher.retireFront] at hr
  split at hr
  · cases hr
  next r rest hl =>
    dsimp only at hr
    split at hr
    · cases hr
    next hcond =>
      cases hr
      have hmem : r ∈ p.unackedBatches := hl ▸ mem_cons_self
      have hseq : r.currentBatchSeq = p.sessionNextRetireBatchSeq := by omega
      have hget := (h.unacked r hmem).1
      rw [hseq] at hget
      have hlt := (List.getElem?_eq_some_iff.mp hget).1
      have hend : ackEnd base sealed (p.sessionNextRetireBatchSeq + 1) =
          p.sessionRetirePrefixHwm + r.body.numMsg := by
        rw [ackEnd_succ, h.retired, msgAt, hget]
        rfl
      refine ⟨{ h with
        cursor := hlt
        pending := ?_
        unacked := fun r' hr' => h.unacked r' (hl ▸ mem_cons_of_mem _ hr')
        retired := hend.symm
        trimmed := fun hwm hmem => Nat.lt_succ_of_lt (h.trimmed hwm hmem) }, rfl, ?_, rfl, ?_⟩
      · have hpending := h.pending
        rw [pendingSeqs, hl, map_cons, hseq, cons_append,
          show sealed.length - p.sessionNextRetireBatchSeq =
            sealed.length - (p.sessionNextRetireBatchSeq + 1) + 1 by omega,
          List.range'_succ] at hpending
        exact hpending.cons_inv
      · rw [hl]
        rfl
      · omega

theorem completeLoop (fuel : Nat) :
    ∀ {p : Publisher}, p.Retains sealed base → p.unackedBatches.length ≤ fuel →
      Completed sealed base ackHwm p (completeLoop ackHwm fuel p) := by
  induction fuel with
  | zero =>
    intro p h hlen
    have hnil : p.unackedBatches = [] := length_eq_zero_iff.mp (Nat.le_zero.mp hlen)
    refine ⟨h, Nat.le_refl _, fun k hk hk' => absurd hk (Nat.not_le_of_lt hk'), ?_, rfl⟩
    rw [Publisher.completeLoop, Publisher.retireFront, hnil]
  | succ fuel ih =>
    intro p h hlen
    rw [Publisher.completeLoop, h.heal_eq]
    split
    · exact ⟨h, Nat.le_refl _, fun k hk hk' => absurd hk (Nat.not_le_of_lt hk'), ‹_›, rfl⟩
    next q hq =>
      obtain ⟨hok, hnext, hlen', htrim, hend⟩ := h.retireFront hq
      have hrest := ih hok (by omega)
      have hcursor := hrest.cursor
      refine ⟨hrest.retains, by omega, ?_, hrest.stuck, hrest.trimmed.trans htrim⟩
      intro k hk hk'
      by_cases heq : k = p.sessionNextRetireBatchSeq
      · rw [heq]
        exact hend
      · exact hrest.covered k (by omega) hk'

theorem complete (h : p.Retains sealed base) (ackHwm : Nat) :
    Completed sealed base ackHwm p (p.completeUnackedThrough ackHwm) := by
  rw [completeUnackedThrough, if_neg (Nat.not_lt_of_le h.level)]
  exact h.completeLoop _ (Nat.le_refl _)

theorem stuck (h : p.Retains sealed base) (hbooks : p.Books) (hstuck : p.retireFront ackHwm = none)
    (hlt : p.sessionNextRetireBatchSeq < sealed.length) :
    ackHwm < ackEnd base sealed (p.sessionNextRetireBatchSeq + 1) ∨
      (∃ b ∈ p.sending, b.batchSeq = p.sessionNextRetireBatchSeq) ∨
      ∃ q ∈ p.queue, q.batchSeq = p.sessionNextRetireBatchSeq := by
  cases mem_pendingSeqs.mp (h.mem_iff.mpr ⟨Nat.le_refl _, hlt⟩) with
  | inr hrest => exact .inr hrest
  | inl hretained =>
    obtain ⟨r, hr, hseq⟩ := hretained
    left
    rw [Publisher.retireFront] at hstuck
    split at hstuck
    next hnil =>
      rw [hnil] at hr
      cases hr
    next front rest hl =>
      have hfront : front ∈ p.unackedBatches := hl ▸ mem_cons_self
      have hge := h.cursor_le hfront
      have hle : front.currentBatchSeq ≤ r.currentBatchSeq := by
        have hsorted := hbooks.sorted
        rw [hl] at hsorted hr
        cases mem_cons.mp hr with
        | inl heq => exact heq ▸ Nat.le_refl _
        | inr hmem => exact (pairwise_cons.mp hsorted).1 r hmem
      have heq : front.currentBatchSeq = p.sessionNextRetireBatchSeq := by omega
      have hget := (h.unacked front hfront).1
      rw [heq] at hget
      dsimp only at hstuck
      split at hstuck
      next hcond =>
        rw [ackEnd_succ, ← h.retired, msgAt, hget]
        exact hcond.resolve_left fun hne => hne heq
      · cases hstuck

end Retains

theorem skipHoles_eq {front : Option Nat} {hwm : Nat} :
    ∀ {fuel next : Nat}, hwm + 1 - next ≤ fuel →
      (∀ k, next ≤ k → k ≤ hwm → front ≠ some k) →
      skipHoles front hwm fuel next = max next (hwm + 1) := by
  intro fuel
  induction fuel with
  | zero =>
    intro next hfuel _
    rw [skipHoles]
    omega
  | succ fuel ih =>
    intro next hfuel hclear
    rw [skipHoles]
    split
    next hcase =>
      cases hcase with
      | inl hlt => omega
      | inr hfront =>
        by_cases hle : next ≤ hwm
        · exact absurd hfront (hclear next (Nat.le_refl _) hle)
        · omega
    next hcase =>
      have hle : next ≤ hwm := Nat.le_of_not_lt fun hlt => hcase (.inl hlt)
      rw [ih (by omega) fun k hk => hclear k (by omega)]
      omega

theorem advance_eq {hwm : Nat} (ht : p.sessionTrimCommittedHwm = some hwm)
    (hge : ∀ r ∈ p.unackedBatches, p.sessionNextRetireBatchSeq ≤ r.currentBatchSeq)
    (hgt : ∀ r ∈ p.unackedBatches, hwm < r.currentBatchSeq) :
    p.advanceRetireThroughTrimmedHoles =
      { p with sessionNextRetireBatchSeq := max p.sessionNextRetireBatchSeq (hwm + 1) } := by
  have hnone : ∀ r ∈ p.unackedBatches, ¬decide (r.currentBatchSeq < p.sessionNextRetireBatchSeq) = true :=
    fun r hr hlt => absurd (hge r hr) (Nat.not_le_of_lt (of_decide_eq_true hlt))
  have htake : p.unackedBatches.takeWhile (·.currentBatchSeq < p.sessionNextRetireBatchSeq) = [] := by
    cases hl : p.unackedBatches with
    | nil => rfl
    | cons r rest => exact takeWhile_cons_of_neg (hnone r (hl ▸ mem_cons_self))
  have hdrop : p.unackedBatches.dropWhile (·.currentBatchSeq < p.sessionNextRetireBatchSeq) = p.unackedBatches := by
    have happend := takeWhile_append_dropWhile
      (p := fun r => decide (r.currentBatchSeq < p.sessionNextRetireBatchSeq)) (l := p.unackedBatches)
    rwa [htake, nil_append] at happend
  have hskip : skipHoles (p.unackedBatches.head?.map (·.currentBatchSeq)) hwm
      (hwm + 1 - p.sessionNextRetireBatchSeq) p.sessionNextRetireBatchSeq =
      max p.sessionNextRetireBatchSeq (hwm + 1) := by
    apply skipHoles_eq (Nat.le_refl _)
    intro k _ hk hfront
    obtain ⟨r, hr, hseq⟩ := Option.map_eq_some_iff.mp hfront
    have hlt := hgt r (mem_of_mem_head? hr)
    omega
  rw [advanceRetireThroughTrimmedHoles, ht]
  dsimp only
  rw [htake, hdrop, hskip]
  rfl

namespace Retains

theorem trimmed_lt (h : p.Retains sealed base) (hwm : Nat) :
    max hwm (p.sessionTrimCommittedHwm.getD hwm) < max p.sessionNextRetireBatchSeq (hwm + 1) := by
  cases ht : p.sessionTrimCommittedHwm with
  | none =>
    rw [Option.getD_none]
    omega
  | some old =>
    have hlt := h.trimmed old ht
    rw [Option.getD_some]
    omega

theorem trim_eq {hwm : Nat} (h : p.Retains sealed base)
    (horiginal : ∀ r ∈ p.unackedBatches, r.originalBatchSeq = r.currentBatchSeq) :
    p.trimUnackedThroughBatchSeq hwm = { p with
      unackedBatches := p.unackedBatches.filter (hwm < ·.currentBatchSeq)
      unackedBytes :=
        p.unackedBytes - wireBytes (p.unackedBatches.filter (·.currentBatchSeq ≤ hwm))
      sessionTrimCommittedHwm := some (max hwm (p.sessionTrimCommittedHwm.getD hwm))
      sessionRetirePrefixHwm := p.sessionRetirePrefixHwm + numMsgs (p.unackedBatches.filter (·.currentBatchSeq ≤ hwm))
      sessionNextRetireBatchSeq := max p.sessionNextRetireBatchSeq (hwm + 1) } := by
  have hold := h.trimmed_lt hwm
  have hkept : p.unackedBatches.filter (hwm < ·.originalBatchSeq) =
      p.unackedBatches.filter (hwm < ·.currentBatchSeq) :=
    filter_congr fun r hr => by rw [horiginal r hr]
  have herased : p.unackedBatches.filter (·.originalBatchSeq ≤ hwm) =
      p.unackedBatches.filter (·.currentBatchSeq ≤ hwm) :=
    filter_congr fun r hr => by rw [horiginal r hr]
  have hcredit : p.trimCredit hwm = p.unackedBatches.filter (·.currentBatchSeq ≤ hwm) := by
    apply filter_congr
    intro r hr
    rw [horiginal r hr, decide_eq_true (h.cursor_le hr), Bool.and_true]
  rw [trimUnackedThroughBatchSeq, hkept, herased, hcredit, advance_eq rfl]
  · congr 1
    dsimp only
    omega
  · exact fun r hr => h.cursor_le (mem_of_mem_filter hr)
  · intro r hr
    have hlt : hwm < r.currentBatchSeq := of_decide_eq_true (mem_filter.mp hr).2
    have hge := h.cursor_le (mem_of_mem_filter hr)
    omega

theorem trim {hwm : Nat} (h : p.Retains sealed base)
    (horiginal : ∀ r ∈ p.unackedBatches, r.originalBatchSeq = r.currentBatchSeq) (hlen : hwm < sealed.length)
    (hsending : ∀ b ∈ p.sending, hwm < b.batchSeq) (hqueue : ∀ q ∈ p.queue, hwm < q.batchSeq) :
    (p.trimUnackedThroughBatchSeq hwm).Retains sealed base := by
  have hcursor := h.cursor
  have hkeep : ∀ k ∈ p.sending.map (·.batchSeq) ++ p.queue.map (·.batchSeq), hwm + 1 ≤ k := by
    intro k hk
    cases mem_append.mp hk with
    | inl hmem =>
      obtain ⟨b, hb, rfl⟩ := mem_map.mp hmem
      exact hsending b hb
    | inr hmem =>
      obtain ⟨q, hq, rfl⟩ := mem_map.mp hmem
      exact hqueue q hq
  rw [h.trim_eq horiginal]
  refine { h with cursor := ?_, pending := ?_, unacked := ?_, retired := ?_, trimmed := ?_ }
  · exact Nat.max_le.mpr ⟨hcursor, hlen⟩
  · have hpending := h.pending.filter (hwm + 1 ≤ ·)
    rw [pendingSeqs, filter_append, range'_filter_ge, filter_eq_self.mpr fun k hk => decide_eq_true (hkeep k hk),
      Nat.add_sub_cancel' hcursor, ← map_filter_seq] at hpending
    exact hpending
  · exact fun r hr => h.unacked r (mem_of_mem_filter hr)
  · have hpending := h.pending.filter (· < hwm + 1)
    rw [pendingSeqs, filter_append, range'_filter_lt, filter_eq_nil_iff.mpr fun k hk hle =>
        absurd (hkeep k hk) (Nat.not_le_of_lt (of_decide_eq_true hle)),
      append_nil, ← map_filter_seq] at hpending
    simp only [Nat.lt_succ_iff] at hpending
    have hsum := (hpending.map (msgAt sealed)).sum_eq
    rw [← numMsgs_eq fun r hr => (h.unacked r (mem_of_mem_filter hr)).1] at hsum
    dsimp only
    rw [hsum, h.retired, ← ackEnd_add]
    congr 1
    omega
  · intro old hmem
    cases hmem
    exact h.trimmed_lt hwm

end Retains

end Publisher

structure Retention where
  pub : Publisher
  sealed : List BatchBody := []
  mark : Nat

inductive RetentionEvent
  | sealBatch (b : BatchBody)
  | send (i : Nat)
  | record (i : Nat)
  | complete (ackHwm : Nat)
  | trim (hwm : Nat)
  deriving DecidableEq

namespace Retention

def start (ackLevel : Nat) (ownedRtoCopy : Bool) (epoch base : Nat) : Retention where
  pub := { ackLevel, ownedRtoCopy, sessionEpoch := epoch, sessionRetirePrefixHwm := base }
  mark := base

def step (r : Retention) : RetentionEvent → Option Retention
  | .sealBatch b => (r.pub.step (.sealBatch b)).map fun p =>
      { r with pub := p, sealed := r.sealed ++ [b] }
  | .send i => (r.pub.step (.send i)).map fun p => { r with pub := p }
  | .record i => (r.pub.step (.record i)).map fun p => { r with pub := p }
  | .complete ackHwm =>
    if r.mark ≤ ackHwm then
      some { r with pub := r.pub.completeUnackedThrough ackHwm, mark := ackHwm }
    else none
  | .trim hwm => some { r with pub := r.pub.trimUnackedThroughBatchSeq hwm }

def TrimsRecorded (r : Retention) : RetentionEvent → Prop
  | .trim hwm => hwm < r.sealed.length ∧ (∀ b ∈ r.pub.sending, hwm < b.batchSeq) ∧
      ∀ q ∈ r.pub.queue, hwm < q.batchSeq
  | _ => True

instance (r : Retention) : (e : RetentionEvent) → Decidable (TrimsRecorded r e)
  | .trim _ => inferInstanceAs (Decidable (_ ∧ _ ∧ _))
  | .sealBatch _ | .send _ | .record _ | .complete _ => isTrue trivial

def AcksRecorded (base : Nat) (r : Retention) : RetentionEvent → Prop
  | .record i => ∀ b ∈ r.pub.sending[i]?, r.mark < ackEnd base r.sealed (b.batchSeq + 1)
  | .complete ackHwm =>
    (∀ b ∈ r.pub.sending, ackHwm < ackEnd base r.sealed (b.batchSeq + 1)) ∧
      ∀ q ∈ r.pub.queue, ackHwm < ackEnd base r.sealed (q.batchSeq + 1)
  | _ => True

variable {r r' : Retention} {e : RetentionEvent}

structure Ok (base : Nat) (r : Retention) : Prop where
  books : r.pub.Books
  retains : r.pub.Retains r.sealed base
  original : ∀ b ∈ r.pub.unackedBatches, b.originalBatchSeq = b.currentBatchSeq
  released : ∀ k < r.pub.sessionNextRetireBatchSeq, ackEnd base r.sealed (k + 1) ≤ r.mark ∨
    ∃ hwm ∈ r.pub.sessionTrimCommittedHwm, k ≤ hwm

theorem ok_start {ackLevel epoch : Nat} (owned : Bool) (hlevel : 1 ≤ ackLevel)
    (hepoch : epoch ≠ 0) : Ok base (start ackLevel owned epoch base) where
  books := ⟨rfl, .nil⟩
  retains := {
    level := hlevel
    epoch := hepoch
    seqs := rfl
    cursor := Nat.le_refl _
    pending := .refl _
    unacked := nofun
    sending := nofun
    queue := nofun
    retired := rfl
    trimmed := nofun }
  original := nofun
  released := nofun

theorem books_record {i : Nat} {b : SentBatch} (h : p.Books) :
    ({ p.recordUnackedBatch b with sending := p.sending.eraseIdx i } : Publisher).Books :=
  ⟨(h.record b).bytes, (h.record b).sorted⟩

theorem Ok.complete {ackHwm : Nat} (h : Ok base r) (hmark : r.mark ≤ ackHwm) :
    Ok base { r with pub := r.pub.completeUnackedThrough ackHwm, mark := ackHwm } := by
  have hcomplete := h.retains.complete ackHwm
  obtain ⟨unacked, _, _, _, _, hsub, heq⟩ := Publisher.reworked_complete r.pub ackHwm
  refine ⟨h.books.complete ackHwm, hcomplete.retains, ?_, ?_⟩
  · intro b hb
    rw [heq] at hb
    exact h.original b (hsub.subset hb)
  · intro k hk
    dsimp only
    rw [hcomplete.trimmed]
    cases Nat.lt_or_ge k r.pub.sessionNextRetireBatchSeq with
    | inl hlt => exact (h.released k hlt).imp_left fun hle => Nat.le_trans hle hmark
    | inr hge => exact .inl (hcomplete.covered k hge hk)

theorem Ok.trim {hwm : Nat} (h : Ok base r) (hrecorded : TrimsRecorded r (.trim hwm)) :
    Ok base { r with pub := r.pub.trimUnackedThroughBatchSeq hwm } := by
  refine ⟨h.books.trim hwm, h.retains.trim h.original hrecorded.1 hrecorded.2.1 hrecorded.2.2, ?_, ?_⟩
  · intro b hb
    dsimp only at hb
    rw [h.retains.trim_eq h.original] at hb
    exact h.original b (mem_of_mem_filter hb)
  · intro k hk
    dsimp only at hk ⊢
    rw [h.retains.trim_eq h.original] at hk ⊢
    cases Nat.lt_or_ge k r.pub.sessionNextRetireBatchSeq with
    | inl hlt =>
      refine (h.released k hlt).imp_right ?_
      rintro ⟨old, hold, hle⟩
      refine ⟨_, rfl, ?_⟩
      rw [hold, Option.getD_some]
      exact Nat.le_trans hle (Nat.le_max_right _ _)
    | inr hge =>
      refine .inr ⟨_, rfl, ?_⟩
      dsimp only at hk
      omega

theorem books_step (h : r.pub.Books) (hstep : r.step e = some r') : r'.pub.Books := by
  cases e with
  | sealBatch b =>
    cases hstep
    exact ⟨h.bytes, h.sorted⟩
  | send i =>
    obtain ⟨p, hp, rfl⟩ := Option.map_eq_some_iff.mp hstep
    obtain ⟨q, -, rfl⟩ := Option.map_eq_some_iff.mp hp
    exact ⟨h.bytes, h.sorted⟩
  | record i =>
    obtain ⟨p, hp, rfl⟩ := Option.map_eq_some_iff.mp hstep
    obtain ⟨b, -, rfl⟩ := Option.map_eq_some_iff.mp hp
    exact books_record h
  | complete ackHwm =>
    obtain ⟨-, rfl⟩ := Runs.of_guard hstep
    exact h.complete ackHwm
  | trim hwm =>
    cases hstep
    exact h.trim hwm

theorem Ok.step (h : Ok base r) (hk : TrimsRecorded r e) (hstep : r.step e = some r') : Ok base r' := by
  have hbooks := books_step h.books hstep
  cases e with
  | sealBatch b =>
    cases hstep
    refine ⟨hbooks, h.retains.sealBatch b _, h.original, ?_⟩
    intro k hk
    have hcursor := h.retains.cursor
    dsimp only at hk ⊢
    rw [ackEnd_append _ _ _ (by omega)]
    exact h.released k hk
  | send i =>
    obtain ⟨p, hp, rfl⟩ := Option.map_eq_some_iff.mp hstep
    obtain ⟨q, hq, rfl⟩ := Option.map_eq_some_iff.mp hp
    exact ⟨hbooks, h.retains.send hq, h.original, h.released⟩
  | record i =>
    obtain ⟨p, hp, rfl⟩ := Option.map_eq_some_iff.mp hstep
    obtain ⟨b, hb, rfl⟩ := Option.map_eq_some_iff.mp hp
    have heq := h.retains.record_eq (mem_of_getElem? hb)
    refine ⟨hbooks, h.retains.record hb, ?_, ?_⟩
    · intro b' hb'
      dsimp only at hb'
      rw [heq] at hb'
      cases mem_cons.mp ((Publisher.insertUnacked_perm _ _).mem_iff.mp hb') with
      | inl hnew => rw [hnew]
      | inr hmem => exact h.original b' hmem
    · dsimp only
      rw [heq]
      exact h.released
  | complete ackHwm =>
    obtain ⟨hguard, rfl⟩ := Runs.of_guard hstep
    exact h.complete hguard
  | trim hwm =>
    cases hstep
    exact h.trim hk

def Prompt (base : Nat) (r : Retention) : Prop :=
  ∀ b ∈ r.pub.unackedBatches, r.mark < ackEnd base r.sealed (b.currentBatchSeq + 1)

theorem Prompt.step (h : Prompt base r) (hok : Ok base r) (hack : AcksRecorded base r e)
    (hstep : r.step e = some r') : Prompt base r' := by
  cases e with
  | sealBatch b =>
    cases hstep
    intro b' hb'
    have hget := (hok.retains.unacked b' hb').1
    have hlt := (List.getElem?_eq_some_iff.mp hget).1
    dsimp only
    rw [ackEnd_append _ _ _ hlt]
    exact h b' hb'
  | send i =>
    obtain ⟨p, hp, rfl⟩ := Option.map_eq_some_iff.mp hstep
    obtain ⟨q, hq, rfl⟩ := Option.map_eq_some_iff.mp hp
    exact h
  | record i =>
    obtain ⟨p, hp, rfl⟩ := Option.map_eq_some_iff.mp hstep
    obtain ⟨b, hb, rfl⟩ := Option.map_eq_some_iff.mp hp
    intro b' hb'
    dsimp only at hb'
    rw [hok.retains.record_eq (mem_of_getElem? hb)] at hb'
    cases mem_cons.mp ((Publisher.insertUnacked_perm _ _).mem_iff.mp hb') with
    | inl hnew =>
      rw [hnew]
      exact hack b hb
    | inr hmem => exact h b' hmem
  | complete ackHwm =>
    obtain ⟨hmark, rfl⟩ := Runs.of_guard hstep
    have hcomplete := hok.retains.complete ackHwm
    have hafter := hok.complete hmark
    obtain ⟨unacked, _, _, _, _, hsub, heq⟩ := Publisher.reworked_complete r.pub ackHwm
    intro b hb
    have hge := hcomplete.retains.cursor_le hb
    have hlt := (List.getElem?_eq_some_iff.mp (hcomplete.retains.unacked b hb).1).1
    apply Nat.lt_of_lt_of_le _ (ackEnd_mono base r.sealed (Nat.succ_le_succ hge))
    cases hcomplete.retains.stuck hafter.books hcomplete.stuck (Nat.lt_of_le_of_lt hge hlt) with
    | inl huncovered => exact huncovered
    | inr hunrecorded =>
      rw [heq] at hunrecorded
      rw [heq]
      cases hunrecorded with
      | inl hsending =>
        obtain ⟨b, hb, hseq⟩ := hsending
        dsimp only at hseq ⊢
        rw [← hseq]
        exact hack.1 b hb
      | inr hqueue =>
        obtain ⟨q, hq, hseq⟩ := hqueue
        dsimp only at hseq ⊢
        rw [← hseq]
        exact hack.2 q hq
  | trim hwm =>
    cases hstep
    intro b hb
    dsimp only at hb
    rw [hok.retains.trim_eq hok.original] at hb
    exact h b (mem_of_mem_filter hb)

end Retention

/-- In every run of a session publisher the byte counter counts what is retained, and that is kept in order.  If every
trim finds the batches below it recorded, a batch is let go only if the mark has reached the messages of all batches up
to it or a trimmed prefix includes it; if ACK marks find their batches recorded as well, every batch a mark has reached is
gone. -/
theorem retention_released_when_acknowledged (ackLevel epoch base : Nat) (owned : Bool) (events : List RetentionEvent)
    (r : Retention) (hlevel : 1 ≤ ackLevel) (hepoch : epoch ≠ 0)
    (hrun : Runs.Along Retention.step (fun _ _ => True) (.start ackLevel owned epoch base) events r) :
    r.pub.unackedBytes = wireBytes r.pub.unackedBatches ∧
    (r.pub.unackedBatches.Pairwise fun a b => a.currentBatchSeq ≤ b.currentBatchSeq) ∧
    (Runs.Along Retention.step Retention.TrimsRecorded (.start ackLevel owned epoch base) events r →
      (∀ k < r.sealed.length, k ∉ r.pub.pendingSeqs →
        ackEnd base r.sealed (k + 1) ≤ r.mark ∨ ∃ hwm ∈ r.pub.sessionTrimCommittedHwm, k ≤ hwm) ∧
      (Runs.Along Retention.step (Retention.AcksRecorded base) (.start ackLevel owned epoch base) events r →
        ∀ b ∈ r.pub.unackedBatches, r.mark < ackEnd base r.sealed (b.currentBatchSeq + 1))) := by
  have hstart : Retention.Ok base (.start ackLevel owned epoch base) :=
    Retention.ok_start owned hlevel hepoch
  have hbooks : r.pub.Books := hrun.invariant (I := fun r : Retention => r.pub.Books)
    (fun _ _ _ _ hstep h => Retention.books_step h hstep) hstart.books
  refine ⟨hbooks.bytes, hbooks.sorted, fun htrims => ?_⟩
  have h : Retention.Ok base r := htrims.invariant (fun _ _ _ hk hstep h => h.step hk hstep) hstart
  refine ⟨?_, ?_⟩
  · intro k hk hgone
    apply h.released k
    exact Nat.lt_of_not_le fun hge => hgone (h.retains.mem_iff.mpr ⟨hge, hk⟩)
  · intro hacks
    have hboth := (htrims.and hacks).invariant (I := fun r => Retention.Ok base r ∧ Retention.Prompt base r)
      (fun _ _ _ hk hstep h => ⟨h.1.step hk.1 hstep, h.2.step h.1 hk.2 hstep⟩) ⟨hstart, nofun⟩
    exact hboth.2

def recordedLate : List RetentionEvent :=
  [.sealBatch ⟨0, 10, 64⟩, .sealBatch ⟨1, 10, 64⟩, .sealBatch ⟨2, 10, 64⟩, .send 0, .send 0,
    .send 0, .record 1, .record 1, .record 0, .trim 0, .complete 25, .complete 29]

theorem retention_released_when_acknowledged_recordedLate :
    ∃ r, Runs.Along Retention.step Retention.TrimsRecorded (.start 1 false 1 5) recordedLate r ∧
      r.pub.unackedBatches.map (·.currentBatchSeq) = [2] ∧ r.pub.unackedBytes = 64 ∧
      r.sealed.length = 3 ∧ (ackEnd 5 r.sealed 2 ≤ r.mark ∨ ∃ hwm ∈ r.pub.sessionTrimCommittedHwm, 1 ≤ hwm) := by
  have hrun := Runs.exists_along_of_exec (f := fun r : Retention =>
      (r.pub.unackedBatches.map (·.currentBatchSeq), r.pub.unackedBytes, r.sealed.length,
        decide (1 ∈ r.pub.pendingSeqs)))
    (show (Runs.exec Retention.step Retention.TrimsRecorded (.start 1 false 1 5)
      recordedLate).map _ = some ([2], 64, 3, false) by decide +kernel)
  cases hrun with
  | intro r hr =>
    have h := retention_released_when_acknowledged 1 1 5 false recordedLate r (by decide) (by decide)
      (hr.1.mono fun _ _ _ => trivial)
    simp only [Prod.mk.injEq] at hr
    refine ⟨r, hr.1, hr.2.1, hr.2.2.1, hr.2.2.2.1, ?_⟩
    exact (h.2.2 hr.1).1 1 (by rw [hr.2.2.2.1]; decide) (of_decide_eq_false hr.2.2.2.2)

def trimmedHole : List RetentionEvent :=
  [.sealBatch ⟨0, 10, 64⟩, .sealBatch ⟨1, 10, 64⟩, .send 0, .send 0, .record 1, .trim 0, .record 0, .complete 10]

def recordedAfterAck : List RetentionEvent :=
  [.sealBatch ⟨0, 10, 64⟩, .send 0, .complete 10, .record 0]

theorem retention_misreleased :
    (∃ r, Runs.Along Retention.step (fun _ _ => True) (.start 1 false 1 0) trimmedHole r ∧
      1 < r.sealed.length ∧ 1 ∉ r.pub.pendingSeqs ∧
      ¬(ackEnd 0 r.sealed 2 ≤ r.mark ∨ ∃ hwm ∈ r.pub.sessionTrimCommittedHwm, 1 ≤ hwm)) ∧
    ∃ r, Runs.Along Retention.step (fun _ _ => True) (.start 1 false 1 0) recordedAfterAck r ∧
      ∃ b ∈ r.pub.unackedBatches, ackEnd 0 r.sealed (b.currentBatchSeq + 1) ≤ r.mark := by
  have hhole := Runs.exists_along_of_exec
    (f := fun r : Retention => (decide (1 < r.sealed.length), decide (1 ∈ r.pub.pendingSeqs),
      decide (ackEnd 0 r.sealed 2 ≤ r.mark), r.pub.sessionTrimCommittedHwm))
    (show (Runs.exec Retention.step (fun _ _ => True) (.start 1 false 1 0) trimmedHole).map _ =
      some (true, false, false, some 0) by decide +kernel)
  have hafter := Runs.exists_along_of_exec (f := fun r : Retention => r.pub.unackedBatches.any fun b =>
      decide (ackEnd 0 r.sealed (b.currentBatchSeq + 1) ≤ r.mark))
    (show (Runs.exec Retention.step (fun _ _ => True) (.start 1 false 1 0)
      recordedAfterAck).map _ = some true by decide +kernel)
  constructor
  · cases hhole with
    | intro r hr =>
      simp only [Prod.mk.injEq, decide_eq_true_eq, decide_eq_false_iff_not] at hr
      refine ⟨r, hr.1, hr.2.1, hr.2.2.1, ?_⟩
      rintro (hcovered | ⟨hwm, hmem, hle⟩)
      · exact hr.2.2.2.1 hcovered
      · rw [hr.2.2.2.2] at hmem
        cases hmem
        exact absurd hle (by decide)
  · cases hafter with
    | intro r hr =>
      refine ⟨r, hr.1, ?_⟩
      simpa using hr.2

end Embarcadero
