import Embarcadero.Lib.Pointwise
import Embarcadero.Retention

namespace Embarcadero

open List
open Pointwise (forall_concat)

def messages (l : List BatchBody) : Nat := (l.map (·.numMsg)).sum

structure Client where
  pub : Publisher
  sealed : List BatchBody := []
  wire : List (Nat × BatchBody) := []
  log : List BatchBody := []
  settled : Nat := 0
  closed : Bool := false

inductive ClientEvent
  | sealBatch (numMsg wireBytes : Nat)
  | send (i : Nat)
  | record (i : Nat)
  | commit
  | wireAck (sock n : Nat)
  | opened (hwm : Nat)
  | fence
  | drained (accepted : Option Nat)
  | drainTimeout
  | finishPublishing
  deriving DecidableEq

namespace Client

def start (ackLevel : Nat) (ownedRtoCopy : Bool) : Client where
  pub := { ackLevel, ownedRtoCopy, sessionEpoch := 1 }

def committed (c : Client) : Nat := c.log.length - c.settled

def signal (c : Client) : FenceSignal :=
  ⟨c.pub.sessionEpoch, c.committed - 1, decide (0 < c.committed)⟩

def step (c : Client) : ClientEvent → Option Client
  | .sealBatch numMsg wireBytes =>
    let b : BatchBody := ⟨c.sealed.length, numMsg, wireBytes⟩
    if 0 < numMsg then
      (c.pub.step (.sealBatch b)).map fun p => { c with pub := p, sealed := c.sealed ++ [b] }
    else none
  | .send i => c.pub.queue[i]?.bind fun q =>
      (c.pub.step (.send i)).map fun p =>
        { c with pub := p, wire := c.wire ++ [(q.batchSeq, q.body)] }
  | .record i => (c.pub.step (.record i)).map fun p => { c with pub := p }
  | .commit =>
    if c.closed then none
    else (c.wire.find? (·.1 = c.committed)).map fun w => { c with log := c.log ++ [w.2] }
  | .wireAck sock n =>
    if n ≤ c.log.length then
      (c.pub.step (.wireAck sock (messages (c.log.take n)))).map fun p => { c with pub := p }
    else none
  | .opened hwm =>
    if hwm < c.committed then
      (c.pub.step (.sessionOpenAck ⟨hwm, .ok, c.pub.sessionEpoch, true⟩ false)).map fun p =>
        { c with pub := p }
    else none
  | .fence => (c.pub.step (.fence c.signal)).map fun p => { c with pub := p, closed := true }
  | .drained accepted => (c.pub.step (.drained accepted)).map fun p =>
      { c with
        pub := p
        wire := p.unackedBatches.map fun r => (r.currentBatchSeq, r.body)
        settled := c.log.length
        closed := false }
  | .drainTimeout => (c.pub.step .drainTimeout).map fun p => { c with pub := p }
  | .finishPublishing => (c.pub.step .finishPublishing).map fun p => { c with pub := p }

def kept (c : Client) : List UnackedBatch :=
  c.pub.unackedBatches.filter (c.committed ≤ ·.currentBatchSeq)

def submitted (c : Client) : List (BatchBody × Nat) :=
  c.pub.queue.map (fun q => (q.body, q.batchSeq)) ++ c.pub.unackedBatches.map fun r => (r.body, r.currentBatchSeq)

def Draining (c : Client) : Prop :=
  c.pub.publishFinished = true ∧ 2 ≤ c.pub.ackLevel ∧ c.pub.ackDrainActive = true ∧ 0 < c.committed

instance (c : Client) : Decidable c.Draining := inferInstanceAs (Decidable (_ ∧ _ ∧ _ ∧ _))

def Trimmable (c : Client) (hwm : Nat) : Prop :=
  (∀ r ∈ c.pub.unackedBatches, r.originalBatchSeq = r.currentBatchSeq) ∧ ∀ b ∈ c.pub.sending, hwm < b.batchSeq

instance (c : Client) (hwm : Nat) : Decidable (c.Trimmable hwm) :=
  inferInstanceAs (Decidable (_ ∧ _))

def Orderly (c : Client) : ClientEvent → Prop
  | .wireAck _ n => ∀ b ∈ c.pub.sending, n ≤ c.settled + b.batchSeq
  | .opened hwm => c.Trimmable hwm
  | .fence => c.Draining → c.Trimmable (c.committed - 1) ∧
      c.pub.trimCredit (c.committed - 1) = [] ∧
      c.pub.lastAckDrainFenceHwm ≠ some (c.committed - 1)
  | .drained accepted =>
    (∀ r ∈ c.pub.unackedBatches, r.originalBatchSeq = r.currentBatchSeq) ∧
      c.pub.ackReceived = c.pub.sessionRetirePrefixHwm ∧ accepted.any (c.pub.unackedBatches.length ≤ ·) = true
  | _ => True

instance (c : Client) (e : ClientEvent) : Decidable (Orderly c e) := by
  cases e <;> dsimp only [Orderly] <;> infer_instance

end Client

theorem messages_append (l l' : List BatchBody) : messages (l ++ l') = messages l + messages l' := by
  rw [messages, map_append, sum_append]
  rfl

variable {l : List BatchBody} {m n : Nat}

theorem messages_perm {l' : List BatchBody} (h : l.Perm l') : messages l = messages l' :=
  (h.map _).sum_eq

theorem messages_erase {α : Type} (body : α → BatchBody) {l : List α} {i : Nat} (hi : i < l.length) :
    messages (l.map body) = (body l[i]).numMsg + messages ((l.eraseIdx i).map body) :=
  (messages_perm ((getElem_cons_eraseIdx_perm hi).map body)).symm

theorem messages_take_add (l : List BatchBody) (n k : Nat) :
    messages (l.take (n + k)) = messages (l.take n) + messages ((l.drop n).take k) := by
  rw [take_add, messages_append]

theorem messages_take_le (l : List BatchBody) (h : n ≤ m) : messages (l.take n) ≤ messages (l.take m) := by
  rw [← Nat.add_sub_cancel' h, messages_take_add]
  exact Nat.le_add_right _ _

theorem le_of_messages_take_le (hpos : ∀ b ∈ l, 0 < b.numMsg) (hm : m ≤ l.length)
    (h : messages (l.take m) ≤ messages (l.take n)) : m ≤ n := by
  apply Nat.le_of_not_lt
  intro hlt
  have hget : n < l.length := Nat.lt_of_lt_of_le hlt hm
  have hsucc : messages (l.take (n + 1)) = messages (l.take n) + l[n].numMsg := by
    rw [messages_take_add, take_one, List.head?_drop, List.getElem?_eq_getElem hget]
    simp [messages]
  have hbatch := hpos _ (getElem_mem hget)
  have hmono := messages_take_le l (show n + 1 ≤ m from hlt)
  omega

theorem eq_nil_of_messages (hpos : ∀ b ∈ l, 0 < b.numMsg) (h : messages l = 0) : l = [] := by
  cases l with
  | nil => rfl
  | cons b l =>
    have hb := hpos b mem_cons_self
    have hsum : messages (b :: l) = b.numMsg + messages l := rfl
    omega

theorem ackEnd_drop (l : List BatchBody) (settled n : Nat) :
    ackEnd (messages (l.take settled)) (l.drop settled) n = messages (l.take (settled + n)) :=
  (messages_take_add l settled n).symm

namespace Publisher

theorem resubmit_eq {owned : Bool} {l : List UnackedBatch} (h : ∀ r ∈ l, r.pooled = !owned) (newEpoch : Nat) :
    (requeue l.zipIdx).map (fun q => (q.body, q.batchSeq)) ++
      (resend newEpoch l.zipIdx).map (fun r => (r.body, r.currentBatchSeq)) =
      (l.map (·.body)).zipIdx := by
  have hpooled : ∀ x ∈ l.zipIdx, x.1.pooled = !owned :=
    fun x hx => h x.1 (mem_of_getElem? (mem_zipIdx_iff_getElem?.mp hx))
  have hnumber : (l.map (·.body)).zipIdx = l.zipIdx.map fun x => (x.1.body, x.2) :=
    zipIdx_map
  rw [hnumber, requeue, resend]
  cases owned with
  | false =>
    rw [filter_eq_self.mpr hpooled, filter_eq_nil_iff.mpr fun x hx => by
      rw [hpooled x hx]; decide]
    simp
  | true =>
    rw [filter_eq_nil_iff.mpr fun x hx => by rw [hpooled x hx]; decide,
      filter_eq_self.mpr fun x hx => by rw [hpooled x hx]; rfl]
    simp

def reopened (p : Publisher) (newEpoch base : Nat) (resent : List UnackedBatch)
    (requeued : List QueuedBatch) (shutdown : Bool) : Publisher :=
  { p with
    requestedSessionEpoch := newEpoch
    sessionEpoch := newEpoch
    unackedBatches := resent
    unackedBytes := wireBytes resent
    sessionSentHwm := numMsgs resent
    sessionRetirePrefixHwm := base
    sessionNextRetireBatchSeq := 0
    sessionTrimCommittedHwm := none
    ackReceived := base
    ackMessageBase := base
    order5LastAckHwm := base
    queue := requeued
    nextBatchSeq := requeued.length + resent.length
    shutdown := shutdown
    rollover := none }

theorem resend_sorted (newEpoch : Nat) (l : List UnackedBatch) :
    (resend newEpoch l.zipIdx).Pairwise fun a b => a.currentBatchSeq ≤ b.currentBatchSeq := by
  rw [resend, pairwise_map]
  have hsorted : l.zipIdx.Pairwise fun a b => a.2 ≤ b.2 := by
    rw [← pairwise_map (f := Prod.snd) (R := (· ≤ ·)), zipIdx_map_snd]
    exact pairwise_le_range' 1
  exact hsorted.sublist filter_sublist

end Publisher

namespace Client

variable {c c' : Client} {e : ClientEvent}

structure Ok (c : Client) : Prop where
  books : c.pub.Books
  retains : c.pub.Retains (c.sealed.drop c.settled) (messages (c.sealed.take c.settled))
  payloads : c.sealed.map (·.payload) = List.range c.sealed.length
  positive : ∀ b ∈ c.sealed, 0 < b.numMsg
  log : c.log = c.sealed.take c.log.length
  settled : c.settled ≤ c.log.length
  wire : ∀ w ∈ c.wire, c.sealed[c.settled + w.1]? = some w.2
  unsent : ∀ q ∈ c.pub.queue, c.log.length ≤ c.settled + q.batchSeq ∧ ∀ w ∈ c.wire, w.1 ≠ q.batchSeq
  retired : c.settled + c.pub.sessionNextRetireBatchSeq ≤ c.log.length
  base : c.pub.ackMessageBase = messages (c.sealed.take c.settled)
  mark : c.pub.order5LastAckHwm = c.pub.ackReceived
  credit : ∃ n, c.settled ≤ n ∧ n ≤ c.settled + c.pub.sessionNextRetireBatchSeq ∧
    c.pub.ackReceived = messages (c.sealed.take n)
  published : c.pub.publishedMessages = messages c.sealed
  sent : c.pub.sessionSentHwm + messages (c.pub.sending.map (·.body)) +
    messages (c.pub.queue.map (·.body)) = messages (c.sealed.drop c.settled)
  rollover : ∀ r ∈ c.pub.rollover, r.oldEpoch = c.pub.sessionEpoch ∧ c.closed = true ∧ r.signal = c.signal
  pooled : ∀ r ∈ c.pub.unackedBatches, r.pooled = !c.pub.ownedRtoCopy

theorem ok_start {ackLevel : Nat} (owned : Bool) (hlevel : 1 ≤ ackLevel) :
    Ok (start ackLevel owned) where
  books := ⟨rfl, .nil⟩
  retains := {
    level := hlevel
    epoch := Nat.one_ne_zero
    seqs := rfl
    cursor := Nat.le_refl _
    pending := .refl _
    unacked := nofun
    sending := nofun
    queue := nofun
    retired := rfl
    trimmed := nofun }
  payloads := rfl
  positive := nofun
  log := rfl
  settled := Nat.le_refl _
  wire := nofun
  unsent := nofun
  retired := Nat.le_refl _
  base := rfl
  mark := rfl
  credit := ⟨0, Nat.le_refl _, Nat.le_refl _, rfl⟩
  published := rfl
  sent := rfl
  rollover := nofun
  pooled := nofun

theorem draining_iff : c.Draining ↔ (c.pub.publishFinished && decide (2 ≤ c.pub.ackLevel) &&
    c.pub.ackDrainActive && c.signal.hasCommittedPrefix) = true := by
  simp only [Draining, signal, Bool.and_eq_true, decide_eq_true_eq, and_assoc]

namespace Ok

variable (h : c.Ok)

include h

theorem log_le : c.log.length ≤ c.sealed.length := by
  have hlog := congrArg List.length h.log
  rw [length_take] at hlog
  omega

theorem sealed_length : c.settled + c.pub.nextBatchSeq = c.sealed.length := by
  have hseqs := h.retains.seqs
  have hlog := h.log_le
  have hsettled := h.settled
  rw [length_drop] at hseqs
  omega

theorem log_nodup : c.log.Nodup := by
  apply List.Nodup.of_map (·.payload)
  rw [h.log, map_take, h.payloads, take_range]
  exact nodup_range

theorem sealBatch {numMsg wireBytes : Nat} (hpos : 0 < numMsg) :
    Ok { c with
      pub := { c.pub with
        queue := c.pub.queue ++ [⟨⟨c.sealed.length, numMsg, wireBytes⟩, c.pub.nextBatchSeq⟩]
        nextBatchSeq := c.pub.nextBatchSeq + 1
        publishedMessages := c.pub.publishedMessages + numMsg }
      sealed := c.sealed ++ [⟨c.sealed.length, numMsg, wireBytes⟩] } := by
  have hlog := h.log_le
  have hsettled := h.settled
  have hlength := h.sealed_length
  have htake : ∀ n, n ≤ c.sealed.length → ∀ b : BatchBody,
      (c.sealed ++ [b]).take n = c.sealed.take n := fun n hn b => take_append_of_le_length hn
  have hdrop : ∀ b : BatchBody, (c.sealed ++ [b]).drop c.settled = c.sealed.drop c.settled ++ [b] :=
    fun b => drop_append_of_le_length (by omega)
  exact { h with
    books := ⟨h.books.bytes, h.books.sorted⟩
    retains := by
      dsimp only
      rw [hdrop, htake _ (by omega)]
      exact h.retains.sealBatch _ _
    payloads := by simp [h.payloads, range_succ]
    positive := forall_concat h.positive hpos
    log := h.log.trans (htake _ hlog _).symm
    wire := by
      intro w hw
      have hget := h.wire w hw
      rw [← hget]
      exact List.getElem?_append_left (List.getElem?_eq_some_iff.mp hget).1
    unsent := forall_concat h.unsent ⟨by dsimp only; omega, fun w hw heq => by
      have hlt := (List.getElem?_eq_some_iff.mp (h.wire w hw)).1
      rw [heq] at hlt
      dsimp only at hlt
      omega⟩
    base := h.base.trans (congrArg messages (htake _ (by omega) _).symm)
    credit := by
      obtain ⟨n, hn, hle, heq⟩ := h.credit
      have hretired := h.retired
      exact ⟨n, hn, hle, heq.trans (congrArg messages (htake _ (by omega) _).symm)⟩
    published := by
      dsimp only
      rw [h.published, messages_append]
      rfl
    sent := by
      have hsent := h.sent
      dsimp only
      rw [hdrop, map_append, messages_append, messages_append]
      simp only [messages, map_cons, map_nil, sum_cons, sum_nil] at hsent ⊢
      omega }

variable {hwm i n : Nat} {r : Rollover}

theorem send {q : QueuedBatch} (hi : c.pub.queue[i]? = some q) :
    Ok { c with
      pub := { c.pub with
        queue := c.pub.queue.eraseIdx i
        sending := c.pub.sending ++ [⟨q.body, q.batchSeq, c.pub.stampEpoch⟩] }
      wire := c.wire ++ [(q.batchSeq, q.body)] } := by
  obtain ⟨hlt, rfl⟩ := List.getElem?_eq_some_iff.mp hi
  have hget : c.sealed[c.settled + c.pub.queue[i].batchSeq]? = some c.pub.queue[i].body := by
    rw [← List.getElem?_drop]
    exact h.retains.queue _ (getElem_mem hlt)
  exact { h with
    books := ⟨h.books.bytes, h.books.sorted⟩
    retains := h.retains.send hi
    wire := forall_concat h.wire hget
    unsent := by
      intro q hq
      have hold := h.unsent q (mem_of_mem_eraseIdx hq)
      refine ⟨hold.1, forall_concat hold.2 fun heq => ?_⟩
      -- the numbers on the queue are distinct
      have hnodup := ((getElem_cons_eraseIdx_perm hlt).map (·.batchSeq)).nodup_iff.mpr h.retains.queue_nodup
      exact (nodup_cons.mp hnodup).1 (mem_map.mpr ⟨q, hq, heq.symm⟩)
    sent := by
      have hsent := h.sent
      have hqueue := messages_erase (·.body) hlt
      dsimp only
      rw [map_append, messages_append]
      have hone : messages (List.map (·.body) [(⟨c.pub.queue[i].body, c.pub.queue[i].batchSeq,
        c.pub.stampEpoch⟩ : SentBatch)]) = c.pub.queue[i].body.numMsg := rfl
      omega }

theorem record {b : SentBatch} (hi : c.pub.sending[i]? = some b) :
    Ok { c with pub := { c.pub.recordUnackedBatch b with
      sending := c.pub.sending.eraseIdx i } } := by
  have hretains := h.retains.record hi
  have hbooks : ({ c.pub.recordUnackedBatch b with
    sending := c.pub.sending.eraseIdx i } : Publisher).Books := Retention.books_record h.books
  obtain ⟨hlt, rfl⟩ := List.getElem?_eq_some_iff.mp hi
  rw [h.retains.record_eq (getElem_mem hlt)] at hretains hbooks ⊢
  exact { h with
    books := hbooks
    retains := hretains
    sent := by
      have hsent := h.sent
      have hsending := messages_erase (·.body) hlt
      dsimp only
      omega
    pooled := by
      intro r hr
      cases mem_cons.mp ((Publisher.insertUnacked_perm _ _).mem_iff.mp hr) with
      | inl heq => rw [heq]
      | inr hmem => exact h.pooled r hmem }

theorem commit {w : Nat × BatchBody} (hclosed : c.closed = false)
    (hw : c.wire.find? (·.1 = c.committed) = some w) : Ok { c with log := c.log ++ [w.2] } := by
  have hmem := List.mem_of_find?_eq_some hw
  have hfound := List.find?_some hw
  have hnumber : w.1 = c.committed := of_decide_eq_true hfound
  have hsettled := h.settled
  have hget := h.wire w hmem
  rw [hnumber, committed, Nat.add_sub_cancel' hsettled] at hget
  have hlength : (c.log ++ [w.2]).length = c.log.length + 1 := length_append
  have hretired := h.retired
  exact { h with
    log := by
      dsimp only
      rw [hlength, take_add_one, ← h.log, hget]
      rfl
    settled := by
      dsimp only
      omega
    unsent := by
      intro q hq
      obtain ⟨hle, hne⟩ := h.unsent q hq
      refine ⟨?_, hne⟩
      have hother := hne w hmem
      rw [hnumber, committed] at hother
      dsimp only
      omega
    retired := by
      dsimp only
      omega
    rollover := by
      intro r hr
      have hold := (h.rollover r hr).2.1
      rw [hclosed] at hold
      cases hold }

theorem rework {p : Publisher} (hre : Publisher.Reworked c.pub p) (hbooks : p.Books)
    (hretains : p.Retains (c.sealed.drop c.settled) (messages (c.sealed.take c.settled)))
    (hcursor : c.pub.sessionNextRetireBatchSeq ≤ p.sessionNextRetireBatchSeq)
    (hretired : c.settled + p.sessionNextRetireBatchSeq ≤ c.log.length) : Ok { c with pub := p } := by
  obtain ⟨unacked, bytes, hwm, next, trimmed, hsub, rfl⟩ := hre
  obtain ⟨n, hn, hle, hcredit⟩ := h.credit
  exact { h with
    books := hbooks
    retains := hretains
    retired := hretired
    credit := ⟨n, hn, Nat.le_trans hle (Nat.add_le_add_left hcursor _), hcredit⟩
    pooled := fun r hr => h.pooled r (hsub.subset hr) }

theorem wireAck {sock : Nat} (hn : n ≤ c.log.length)
    (hrecorded : ∀ b ∈ c.pub.sending, n ≤ c.settled + b.batchSeq) :
    Ok { c with pub := c.pub.wireAck sock (messages (c.log.take n)) } := by
  have hacked : messages (c.log.take n) = messages (c.sealed.take n) := by
    rw [h.log, take_take, Nat.min_eq_left hn]
  obtain ⟨m, hm, hle, hcredit⟩ := h.credit
  rw [hacked, Publisher.wireAck]
  dsimp only
  split
  · exact h
  next hnew =>
    have hlog := h.log_le
    have hmark := h.mark
    have hbase := messages_take_le c.sealed hm
    have hglobal : max c.pub.ackMessageBase (messages (c.sealed.take n)) = messages (c.sealed.take n) := by
      rw [h.base] at hnew ⊢
      omega
    rw [hglobal] at hnew ⊢
    have hsettled : c.settled ≤ n := by
      apply Nat.le_of_not_lt
      intro hlt
      have hmono := messages_take_le c.sealed (Nat.le_of_lt hlt)
      omega
    -- the mark is stored before the batches it covers are retired
    generalize hq : ({ c.pub with
      order5LastAckHwm := messages (c.sealed.take n)
      prevAckPerSock := Function.update c.pub.prevAckPerSock sock
        (some (messages (c.sealed.take n))) } : Publisher) = q
    have hbooks : q.Books := by
      rw [← hq]
      exact ⟨h.books.bytes, h.books.sorted⟩
    have hretains : q.Retains (c.sealed.drop c.settled) (messages (c.sealed.take c.settled)) := by
      rw [← hq]
      exact { h.retains with }
    have hcomplete := hretains.complete (messages (c.sealed.take n))
    have hbooks' := hbooks.complete (messages (c.sealed.take n))
    have hcursor := hcomplete.retains.cursor
    rw [length_drop] at hcursor
    have hretired : c.settled + (q.completeUnackedThrough
        (messages (c.sealed.take n))).sessionNextRetireBatchSeq ≤ n ∨
        (q.completeUnackedThrough (messages (c.sealed.take n))).sessionNextRetireBatchSeq =
          c.pub.sessionNextRetireBatchSeq := by
      cases Nat.eq_or_lt_of_le hcomplete.cursor with
      | inl heq =>
        right
        rw [← heq, ← hq]
      | inr hlt =>
        left
        have hcovered := hcomplete.covered _ (Nat.le_sub_one_of_lt hlt) (Nat.sub_one_lt_of_lt hlt)
        rw [Nat.sub_one_add_one (Nat.ne_zero_of_lt hlt), ackEnd_drop] at hcovered
        exact le_of_messages_take_le h.positive (by omega) hcovered
    have hreached : n ≤ c.settled + (q.completeUnackedThrough
        (messages (c.sealed.take n))).sessionNextRetireBatchSeq := by
      cases Nat.eq_or_lt_of_le hcomplete.retains.cursor with
      | inl heq =>
        rw [heq, length_drop]
        omega
      | inr hlt =>
        have hstuck := hcomplete.retains.stuck hbooks' hcomplete.stuck hlt
        obtain ⟨unacked, _, _, _, _, -, heq⟩ := Publisher.reworked_complete q (messages (c.sealed.take n))
        rcases hstuck with huncovered | ⟨b, hb, hseq⟩ | ⟨b, hb, hseq⟩
        · rw [ackEnd_drop] at huncovered
          apply Nat.le_of_not_lt
          intro hgt
          exact Nat.not_le_of_lt huncovered (messages_take_le _ hgt)
        · rw [← hseq]
          rw [heq, ← hq] at hb
          exact hrecorded b hb
        · rw [← hseq]
          rw [heq, ← hq] at hb
          exact Nat.le_trans hn (h.unsent b hb).1
    have hmono := hcomplete.cursor
    obtain ⟨unacked, bytes, hwm, next, trimmed, hsub, heq⟩ := Publisher.reworked_complete q
      (messages (c.sealed.take n))
    have hretains' := hcomplete.retains
    have hold := h.retired
    rw [heq, ← hq] at hretired hreached hbooks' hretains' ⊢
    rw [← hq] at hsub
    dsimp only at hretired hreached
    exact { h with
      books := ⟨hbooks'.bytes, hbooks'.sorted⟩
      retains := { hretains' with }
      retired := by
        dsimp only
        omega
      mark := by
        dsimp only
        omega
      credit := by
        refine ⟨n, hsettled, hreached, ?_⟩
        dsimp only
        omega
      pooled := fun r hr => h.pooled r (hsub.subset hr) }

theorem trim (htrim : c.Trimmable hwm) (hlt : hwm < c.committed) :
    Ok { c with pub := c.pub.trimUnackedThroughBatchSeq hwm } := by
  have hlog := h.log_le
  have hsettled := h.settled
  have hretired := h.retired
  rw [committed] at hlt
  have hlen : hwm < (c.sealed.drop c.settled).length := by
    rw [length_drop]
    omega
  have hretains := h.retains.trim htrim.1 hlen htrim.2 (fun q hq => by have hle := (h.unsent q hq).1; omega)
  apply h.rework (Publisher.reworked_trim _ _) (h.books.trim hwm) hretains
  · rw [h.retains.trim_eq htrim.1]
    exact Nat.le_max_left _ _
  · rw [h.retains.trim_eq htrim.1]
    dsimp only
    omega

theorem opened (htrim : c.Trimmable hwm) (hlt : hwm < c.committed) :
    Ok { c with pub := c.pub.sessionOpened ⟨hwm, .ok, c.pub.sessionEpoch, true⟩ } := by
  have hadopt : Ok { c with pub := c.pub.adoptEpoch c.pub.sessionEpoch } :=
    { h with
      books := ⟨h.books.bytes, h.books.sorted⟩
      retains := { h.retains with } }
  rw [Publisher.sessionOpened, if_pos ⟨rfl, h.retains.level⟩]
  exact hadopt.trim htrim hlt

theorem beginRollover (last : Option Nat) :
    Ok { c with
      pub := { c.pub with
        lastAckDrainFenceHwm := last
        rollover := some ⟨c.signal, c.pub.sessionEpoch⟩ }
      closed := true } :=
  { h with
    books := ⟨h.books.bytes, h.books.sorted⟩
    retains := { h.retains with }
    rollover := by
      intro r hr
      cases hr
      exact ⟨rfl, rfl, rfl⟩ }

theorem close : Ok { c with closed := true } :=
  { h with rollover := fun r hr => ⟨(h.rollover r hr).1, rfl, (h.rollover r hr).2.2⟩ }

theorem drainTrim (htrim : c.Trimmable (c.committed - 1)) (hpos : 0 < c.committed)
    (hnone : c.pub.trimCredit (c.committed - 1) = []) :
    Ok { c with pub := { c.pub.trimUnackedThroughBatchSeq (c.committed - 1) with
      ackReceived := (c.pub.trimUnackedThroughBatchSeq (c.committed - 1)).ackReceived +
        numMsgs (c.pub.trimCredit (c.committed - 1)) } } := by
  rw [hnone]
  exact h.trim htrim (by omega)

theorem fence (hk : c.Orderly .fence) : Ok { c with pub := c.pub.beginFence c.signal, closed := true } := by
  rw [Publisher.beginFence]
  split
  · exact h.close
  · split
    next hdrain =>
      have hdrain := draining_iff.mpr hdrain
      obtain ⟨htrim, hnone, -⟩ := hk hdrain
      have htrimmed := h.drainTrim htrim hdrain.2.2.2 hnone
      have hsession := Publisher.reworked_trim c.pub (c.committed - 1)
      dsimp only
      split
      · exact htrimmed.close
      · have hroll := htrimmed.beginRollover (some (c.committed - 1))
        obtain ⟨unacked, bytes, hwm, next, trimmed, -, heq⟩ := hsession
        rw [show c.signal.committedBatchSeq = c.committed - 1 from rfl]
        rw [heq] at hroll ⊢
        exact hroll
    · exact h.beginRollover c.pub.lastAckDrainFenceHwm

theorem drained_empty (hdrained : c.pub.Drained) : c.pub.sending = [] ∧ c.pub.queue = [] := by
  have hsplit := messages_append (c.sealed.take c.settled) (c.sealed.drop c.settled)
  rw [take_append_drop] at hsplit
  have hsent := h.sent
  rw [Publisher.Drained, h.published, h.base] at hdrained
  have hpos : ∀ {k : Nat} {b : BatchBody}, (c.sealed.drop c.settled)[k]? = some b → 0 < b.numMsg :=
    fun hk => h.positive _ (mem_of_mem_drop (mem_of_getElem? hk))
  constructor
  · refine map_eq_nil_iff.mp (eq_nil_of_messages (l := c.pub.sending.map (·.body)) ?_ (by omega))
    intro b hb
    obtain ⟨s, hs, rfl⟩ := mem_map.mp hb
    exact hpos (h.retains.sending s hs).1
  · refine map_eq_nil_iff.mp (eq_nil_of_messages (l := c.pub.queue.map (·.body)) ?_ (by omega))
    intro b hb
    obtain ⟨q, hq, rfl⟩ := mem_map.mp hb
    exact hpos (h.retains.queue q hq)

theorem unacked_seqs (hdrained : c.pub.Drained) :
    c.pub.unackedBatches.map (·.currentBatchSeq) = List.range' c.pub.sessionNextRetireBatchSeq
      ((c.sealed.drop c.settled).length - c.pub.sessionNextRetireBatchSeq) := by
  obtain ⟨hsending, hqueue⟩ := h.drained_empty hdrained
  have hpending := h.retains.pending
  rw [Publisher.pendingSeqs, hsending, hqueue, map_nil, map_nil, append_nil, append_nil] at hpending
  exact hpending.eq_of_pairwise' (r := (· ≤ ·)) (pairwise_map.mpr h.books.sorted) (pairwise_le_range' 1)

theorem kept_seqs (hdrained : c.pub.Drained) :
    c.kept.map (·.currentBatchSeq) = List.range' c.committed (c.sealed.length - c.log.length) := by
  have hlog := h.log_le
  have hsettled := h.settled
  have hretired := h.retired
  rw [kept, map_filter_seq (c.committed ≤ ·), h.unacked_seqs hdrained, range'_filter_ge, length_drop, committed]
  congr 1
  · omega
  · omega

theorem kept_bodies (hdrained : c.pub.Drained) : c.kept.map (·.body) = c.sealed.drop c.log.length := by
  have hsettled := h.settled
  have hseqs := h.kept_seqs hdrained
  have hlength : c.kept.length = c.sealed.length - c.log.length := by
    have hlen := congrArg List.length hseqs
    rwa [length_map, length_range'] at hlen
  apply ext_getElem?
  intro i
  rw [List.getElem?_map, List.getElem?_drop]
  cases hi : c.kept[i]? with
  | none =>
    have hge := List.getElem?_eq_none_iff.mp hi
    symm
    apply List.getElem?_eq_none
    omega
  | some r =>
    have hmem := mem_of_mem_filter (mem_of_getElem? hi)
    have hlt := (List.getElem?_eq_some_iff.mp hi).1
    have hseq := congrArg (fun l => l[i]?) hseqs
    simp only [List.getElem?_map, hi, Option.map_some] at hseq
    rw [List.getElem?_range' (by omega), Nat.one_mul] at hseq
    have hget := (h.retains.unacked r hmem).1
    rw [Option.some.inj hseq, List.getElem?_drop, committed] at hget
    rw [Option.map_some, ← hget]
    congr 1
    omega

section

variable (hr : r ∈ c.pub.rollover) (hown : ∀ b ∈ c.pub.unackedBatches, b.originalBatchSeq = b.currentBatchSeq)

include hr hown

theorem covers_eq {b : UnackedBatch} (hb : b ∈ c.pub.unackedBatches) :
    (b.sessionEpoch == r.oldEpoch) = true ∧ r.signal.covers b = decide (b.currentBatchSeq < c.committed) := by
  obtain ⟨hepoch, -, hsignal⟩ := h.rollover r hr
  refine ⟨by rw [hepoch, (h.retains.unacked b hb).2, BEq.rfl], ?_⟩
  rw [hsignal, FenceSignal.covers, signal, hown b hb, Bool.eq_iff_iff]
  simp only [Bool.and_eq_true, decide_eq_true_eq]
  omega

theorem fencedCommitted_eq :
    c.pub.fencedCommitted r = c.pub.unackedBatches.filter fun b => decide (b.currentBatchSeq < c.committed) := by
  apply filter_congr
  intro b hb
  obtain ⟨hepoch, hcovers⟩ := h.covers_eq hr hown hb
  rw [hepoch, hcovers, Bool.true_and]

theorem fencedSuffix_eq : c.pub.fencedSuffix r = c.kept := by
  have hfilter : (c.pub.unackedBatches.filter fun b =>
      b.sessionEpoch == r.oldEpoch && !r.signal.covers b) = c.kept := by
    apply filter_congr
    intro b hb
    obtain ⟨hepoch, hcovers⟩ := h.covers_eq hr hown hb
    rw [hepoch, hcovers, Bool.true_and, ← decide_not]
    simp only [Nat.not_lt]
  rw [Publisher.fencedSuffix, hfilter]
  apply List.Pairwise.insertionSort_eq
  apply (h.books.sorted.sublist (filter_sublist (p := fun b =>
    decide (c.committed ≤ b.currentBatchSeq)))).imp_of_mem
  intro a b ha hb hle
  rw [hown a (mem_of_mem_filter ha), hown b (mem_of_mem_filter hb)]
  exact hle

theorem credit_eq (hdrained : c.pub.Drained) (hcredited : c.pub.ackReceived = c.pub.sessionRetirePrefixHwm) :
    c.pub.ackReceived + numMsgs (c.pub.fencedCommitted r) = messages (c.sealed.take c.log.length) := by
  have hlog := h.log_le
  have hsettled := h.settled
  have hretired := h.retired
  have hbodies : ∀ b ∈ c.pub.unackedBatches.filter (·.currentBatchSeq < c.committed),
      (c.sealed.drop c.settled)[b.currentBatchSeq]? = some b.body :=
    fun b hb => (h.retains.unacked b (mem_of_mem_filter hb)).1
  have hseqs : (c.pub.unackedBatches.filter (·.currentBatchSeq < c.committed)).map
      (·.currentBatchSeq) = List.range' c.pub.sessionNextRetireBatchSeq
        (c.committed - c.pub.sessionNextRetireBatchSeq) := by
    rw [map_filter_seq (· < c.committed), h.unacked_seqs hdrained, range'_filter_lt, length_drop, committed]
    congr 1
    omega
  rw [h.fencedCommitted_eq hr hown, numMsgs_eq hbodies, hseqs, hcredited, h.retains.retired,
    ← ackEnd_add, ackEnd_drop, committed]
  congr 2
  omega

theorem finishFence_eq (hdrained : c.pub.Drained) (hcredited : c.pub.ackReceived = c.pub.sessionRetirePrefixHwm)
    (hn : c.pub.unackedBatches.length ≤ n) :
    c.pub.finishFence r (some n) =
      c.pub.reopened (nextSessionEpochAfterFence c.pub.sessionEpoch) (messages (c.sealed.take c.log.length))
        (Publisher.resend (nextSessionEpochAfterFence c.pub.sessionEpoch) c.kept.zipIdx)
        (Publisher.requeue c.kept.zipIdx) (c.pub.shutdown || decide (n < c.kept.length)) := by
  have hlength : c.kept.length ≤ n := Nat.le_trans (length_filter_le _ _) hn
  have htaken : c.kept.take (Publisher.resubmitted (some n) c.kept) = c.kept :=
    take_of_length_le (Nat.min_eq_right hlength).ge
  have hnumbered : Publisher.renumbered (some n) c.kept = c.kept.length :=
    Nat.min_eq_right (Nat.le_succ_of_le hlength)
  have hcount := congrArg List.length (Publisher.resubmit_eq
    (fun b hb => h.pooled b (mem_of_mem_filter (l := c.pub.unackedBatches) hb))
    (l := c.kept) (nextSessionEpochAfterFence c.pub.sessionEpoch))
  simp only [length_append, length_map, length_zipIdx] at hcount
  rw [Publisher.finishFence, h.fencedSuffix_eq hr hown, h.credit_eq hr hown hdrained hcredited,
    (h.rollover r hr).1, htaken, hnumbered, (h.drained_empty hdrained).2, Publisher.reopened, hcount]
  rfl

end

theorem reopened {newEpoch : Nat} {resent : List UnackedBatch} {requeued : List QueuedBatch}
    {shutdown : Bool} (hsending : c.pub.sending = []) (hepoch : newEpoch ≠ 0)
    (hnumbers : requeued.map (fun q => (q.body, q.batchSeq)) ++
      resent.map (fun r => (r.body, r.currentBatchSeq)) = (c.sealed.drop c.log.length).zipIdx)
    (hsorted : resent.Pairwise fun a b => a.currentBatchSeq ≤ b.currentBatchSeq)
    (hresent : ∀ r ∈ resent, r.sessionEpoch = newEpoch ∧ r.pooled = !c.pub.ownedRtoCopy) :
    Ok { c with
      pub := c.pub.reopened newEpoch (messages (c.sealed.take c.log.length)) resent requeued shutdown
      wire := resent.map fun r => (r.currentBatchSeq, r.body)
      settled := c.log.length
      closed := false } := by
  have hlog := h.log_le
  have hget : ∀ {b : BatchBody} {k : Nat}, (b, k) ∈ (c.sealed.drop c.log.length).zipIdx →
      (c.sealed.drop c.log.length)[k]? = some b := fun hmem => mem_zipIdx_iff_getElem?.mp hmem
  have hqueued : ∀ q ∈ requeued, (c.sealed.drop c.log.length)[q.batchSeq]? = some q.body :=
    fun q hq => hget (hnumbers ▸ mem_append_left _ (mem_map_of_mem hq))
  have hretained : ∀ r ∈ resent, (c.sealed.drop c.log.length)[r.currentBatchSeq]? = some r.body :=
    fun r hr => hget (hnumbers ▸ mem_append_right _ (mem_map_of_mem hr))
  have hseqs : requeued.map (·.batchSeq) ++ resent.map (·.currentBatchSeq) =
      List.range' 0 (c.sealed.drop c.log.length).length := by
    have hsnd := congrArg (List.map Prod.snd) hnumbers
    rw [map_append, map_map, map_map, zipIdx_map_snd] at hsnd
    exact hsnd
  have hbodies : requeued.map (·.body) ++ resent.map (·.body) = c.sealed.drop c.log.length := by
    have hfst := congrArg (List.map Prod.fst) hnumbers
    rw [map_append, map_map, map_map, zipIdx_map_fst] at hfst
    exact hfst
  have hcount := congrArg List.length hbodies
  rw [length_append, length_map, length_map] at hcount
  exact { h with
    books := ⟨rfl, hsorted⟩
    retains := {
      level := h.retains.level
      epoch := hepoch
      seqs := hcount
      cursor := Nat.zero_le _
      pending := by
        rw [Publisher.pendingSeqs, Publisher.reopened]
        dsimp only
        rw [hsending, map_nil, nil_append, Nat.sub_zero, ← hseqs]
        exact perm_append_comm
      unacked := fun r hr => ⟨hretained r hr, (hresent r hr).1⟩
      sending := by
        rw [Publisher.reopened]
        dsimp only
        rw [hsending]
        exact forall_mem_nil _
      queue := hqueued
      retired := rfl
      trimmed := by rintro _ ⟨⟩ }
    settled := Nat.le_refl _
    wire := by
      intro w hw
      obtain ⟨r, hr, rfl⟩ := mem_map.mp hw
      rw [← List.getElem?_drop]
      exact hretained r hr
    unsent := by
      intro q hq
      refine ⟨Nat.le_add_right _ _, ?_⟩
      intro w hw heq
      obtain ⟨r, hr, rfl⟩ := mem_map.mp hw
      -- the numbers of the new session are distinct
      have hnodup := nodup_range' (s := 0) (n := (c.sealed.drop c.log.length).length) 1
      rw [← hseqs] at hnodup
      exact (nodup_append.mp hnodup).2.2 _ (mem_map_of_mem hq) _ (mem_map_of_mem hr) heq.symm
    retired := Nat.le_refl _
    base := rfl
    mark := rfl
    credit := ⟨_, Nat.le_refl _, Nat.le_refl _, rfl⟩
    sent := by
      have hsum := messages_append (requeued.map (·.body)) (resent.map (·.body))
      have hmsgs : numMsgs resent = messages (resent.map (·.body)) := by
        rw [numMsgs, messages, map_map]
        rfl
      rw [Publisher.reopened]
      dsimp only
      rw [hsending, ← hbodies, hsum, hmsgs]
      exact Nat.add_comm _ _
    rollover := by rintro _ ⟨⟩
    pooled := fun r hr => (hresent r hr).2 }

theorem drained {accepted : Option Nat} (hr : r ∈ c.pub.rollover)
    (hdrained : c.pub.Drained) (hk : c.Orderly (.drained accepted)) :
    let p := c.pub.finishFence r accepted
    let c' : Client := { c with
      pub := p
      wire := p.unackedBatches.map fun r => (r.currentBatchSeq, r.body)
      settled := c.log.length
      closed := false }
    c'.Ok ∧ c'.submitted = (c.kept.map (·.body)).zipIdx := by
  obtain ⟨hown, hcredited, hn⟩ := hk
  cases accepted with
  | none => cases hn
  | some n =>
    have hn : c.pub.unackedBatches.length ≤ n := of_decide_eq_true hn
    have hpooled : ∀ b ∈ c.kept, b.pooled = !c.pub.ownedRtoCopy :=
      fun b hb => h.pooled b (mem_of_mem_filter hb)
    have hnumbers := Publisher.resubmit_eq hpooled (nextSessionEpochAfterFence c.pub.sessionEpoch)
    have hepoch : nextSessionEpochAfterFence c.pub.sessionEpoch ≠ 0 := by
      rw [nextSessionEpochAfterFence, if_neg h.retains.epoch]
      exact Nat.succ_ne_zero _
    rw [h.finishFence_eq hr hown hdrained hcredited hn]
    refine ⟨?_, hnumbers⟩
    rw [h.kept_bodies hdrained] at hnumbers
    apply h.reopened (h.drained_empty hdrained).1 hepoch hnumbers (Publisher.resend_sorted _ _)
    intro b hb
    obtain ⟨x, hx, rfl⟩ := mem_map.mp hb
    have hmem := mem_zipIdx_iff_getElem?.mp (mem_of_mem_filter hx)
    exact ⟨rfl, hpooled x.1 (mem_of_getElem? hmem)⟩

theorem step (hk : c.Orderly e) (hstep : c.step e = some c') : c'.Ok := by
  cases e with
  | sealBatch numMsg wireBytes =>
    simp only [Client.step] at hstep
    obtain ⟨hguard, rfl⟩ := Runs.of_guard hstep
    exact h.sealBatch hguard
  | send i =>
    obtain ⟨q, hq, hstep⟩ := Option.bind_eq_some_iff.mp hstep
    rw [Publisher.step, hq] at hstep
    cases hstep
    exact h.send hq
  | record i =>
    obtain ⟨p, hp, rfl⟩ := Option.map_eq_some_iff.mp hstep
    obtain ⟨b, hb, rfl⟩ := Option.map_eq_some_iff.mp hp
    exact h.record hb
  | commit =>
    rw [Client.step] at hstep
    split at hstep
    · cases hstep
    next hclosed =>
      obtain ⟨w, hw, rfl⟩ := Option.map_eq_some_iff.mp hstep
      exact h.commit (Bool.eq_false_of_not_eq_true hclosed) hw
  | wireAck sock n =>
    obtain ⟨hguard, rfl⟩ := Runs.of_guard hstep
    exact h.wireAck hguard hk
  | opened hwm =>
    rw [Client.step] at hstep
    split at hstep
    next hlt =>
      simp only [Publisher.step, PublisherEvent.fence?, Bool.false_eq_true, false_and, if_false,
        ne_eq, h.retains.epoch, not_false_eq_true, and_self, if_true, Option.map_some, Option.some.injEq] at hstep
      rw [← hstep]
      exact h.opened hk hlt
    · cases hstep
  | fence =>
    obtain ⟨p, hp, rfl⟩ := Option.map_eq_some_iff.mp hstep
    obtain ⟨-, rfl⟩ := Runs.of_guard hp
    exact h.fence hk
  | drained accepted =>
    obtain ⟨p, hp, rfl⟩ := Option.map_eq_some_iff.mp hstep
    obtain ⟨r, hr, hp⟩ := Option.bind_eq_some_iff.mp hp
    obtain ⟨hguard, rfl⟩ := Runs.of_guard hp
    exact (h.drained hr hguard hk).1
  | drainTimeout =>
    obtain ⟨p, hp, rfl⟩ := Option.map_eq_some_iff.mp hstep
    obtain ⟨r, -, rfl⟩ := Option.map_eq_some_iff.mp hp
    exact { h with
      books := ⟨h.books.bytes, h.books.sorted⟩
      retains := { h.retains with }
      rollover := nofun }
  | finishPublishing =>
    cases hstep
    exact { h with
      books := ⟨h.books.bytes, h.books.sorted⟩
      retains := { h.retains with } }

theorem pending {k : Nat} (hlog : c.log.length ≤ k) (hk : k < c.sealed.length) :
    k - c.settled ∈ c.pub.pendingSeqs := by
  have hretired := h.retired
  rw [h.retains.mem_iff, length_drop]
  omega

theorem fence_handled (hk : c.Orderly .fence) (hstep : c.step .fence = some c') :
    c.pub.shutdown = true ∨ c'.pub.rollover.isSome = true ∨ c.kept = [] := by
  obtain ⟨p, hp, rfl⟩ := Option.map_eq_some_iff.mp hstep
  rw [Publisher.step] at hp
  split at hp
  · cases hp
    dsimp only
    rw [Publisher.beginFence]
    split
    · exact .inl ‹_›
    · right
      split
      next hdrain =>
        have hdrain := draining_iff.mpr hdrain
        obtain ⟨htrim, -, hlast⟩ := hk hdrain
        dsimp only
        rw [show c.signal.committedBatchSeq = c.committed - 1 from rfl, h.retains.trim_eq htrim.1]
        split
        next hignored =>
          right
          have hnil := hignored.resolve_right hlast
          rw [kept, ← hnil]
          apply filter_congr
          intro r _
          have hpos := hdrain.2.2.2
          rw [decide_eq_decide]
          omega
        · exact .inl rfl
      · exact .inl rfl
  · cases hp

end Ok

end Client

/-- In every run whose steps are orderly, whatever the fences and rollovers: the head's log is a prefix
of the application's batches, each once; every other batch is on its way in the current session; a
fence is followed by a rollover unless there is nothing to resubmit; and the rollover resubmits exactly
the retained batches outside the committed prefix, in their order, numbered from 0. -/
theorem rollover_exactly_once (ackLevel : Nat) (owned : Bool) (events : List ClientEvent) (c : Client)
    (hlevel : 1 ≤ ackLevel) (hrun : Runs.Along Client.step Client.Orderly (.start ackLevel owned) events c) :
    c.log = c.sealed.take c.log.length ∧ c.log.Nodup ∧
    (∀ k, c.log.length ≤ k → k < c.sealed.length → k - c.settled ∈ c.pub.pendingSeqs) ∧
    (∀ c', c.Orderly .fence → c.step .fence = some c' →
      c.pub.shutdown = true ∨ c'.pub.rollover.isSome = true ∨ c.kept = []) ∧
    ∀ accepted c', c.Orderly (.drained accepted) → c.step (.drained accepted) = some c' →
      c'.submitted = (c.kept.map (·.body)).zipIdx ∧ c.kept.map (·.body) = c.sealed.drop c.log.length := by
  have h : c.Ok := hrun.invariant (fun _ _ _ hk hstep h => h.step hk hstep) (Client.ok_start owned hlevel)
  refine ⟨h.log, h.log_nodup, fun k => h.pending, fun c' => h.fence_handled, ?_⟩
  intro accepted c' hk hstep
  obtain ⟨p, hp, rfl⟩ := Option.map_eq_some_iff.mp hstep
  obtain ⟨r, hr, hp⟩ := Option.bind_eq_some_iff.mp hp
  obtain ⟨hdrained, rfl⟩ := Runs.of_guard hp
  exact ⟨(h.drained hr hdrained hk).2, h.kept_bodies hdrained⟩

def publishOne : List ClientEvent := [.sealBatch 10 64, .send 0, .record 0]

def fencedTwice : List ClientEvent :=
  List.flatten [publishOne, publishOne, publishOne,
    [.commit, .commit, .wireAck 0 1, .fence, .drained (some 3), .send 0, .record 0], publishOne, [.commit, .fence]]

theorem rollover_exactly_once_fencedTwice :
    ∃ c c', Runs.Along Client.step Client.Orderly (.start 1 false) fencedTwice c ∧
      c.step (.drained (some 3)) = some c' ∧
      c.log.map (·.payload) = [0, 1, 2] ∧ c.log.Nodup ∧
      c'.submitted = [(⟨3, 10, 64⟩, 0)] := by
  obtain ⟨c, hrun, hc⟩ := Runs.exists_along_of_exec (f := fun c : Client => (c.log.map (·.payload), c.kept.map (·.body),
      decide (c.Orderly (.drained (some 3))), (c.step (.drained (some 3))).isSome))
    (show (Runs.exec Client.step Client.Orderly (.start 1 false) fencedTwice).map _ =
      some ([0, 1, 2], [⟨3, 10, 64⟩], true, true) by decide +kernel)
  have h := rollover_exactly_once 1 false fencedTwice c (by decide) hrun
  simp only [Prod.mk.injEq] at hc
  obtain ⟨hlog, hkept, horderly, hsome⟩ := hc
  obtain ⟨c', hc'⟩ := Option.isSome_iff_exists.mp hsome
  have hsubmitted := (h.2.2.2.2 (some 3) c' (of_decide_eq_true horderly) hc').1
  rw [hkept] at hsubmitted
  exact ⟨c, c', hrun, hc', hlog, h.2.1, hsubmitted⟩

def fencedOwnedCopies : List ClientEvent :=
  List.flatten [publishOne, publishOne, publishOne,
    [.commit, .fence, .drained (some 3), .commit, .fence, .drained (some 3), .commit]]

theorem rollover_commits_twice :
    ∃ c, Runs.Along Client.step (fun _ _ => True) (.start 2 true) fencedOwnedCopies c ∧
      c.log.map (·.payload) = [0, 1, 1] ∧ ¬c.log.Nodup := by
  refine Runs.exists_of_exec (fun c : Client => (c.log.map (·.payload), decide c.log.Nodup)) ([0, 1, 1], false)
    (by decide +kernel) fun c _ hc => ?_
  exact (Prod.mk.inj hc).imp_right of_decide_eq_false

/-- In such a run no message is credited twice. -/
theorem ack_ledger_counts_once (ackLevel : Nat) (owned : Bool) (events : List ClientEvent) (c : Client)
    (hlevel : 1 ≤ ackLevel) (hrun : Runs.Along Client.step Client.Orderly (.start ackLevel owned) events c) :
    c.pub.ackReceived ≤ messages c.log.dedup := by
  have h : c.Ok := hrun.invariant (fun _ _ _ hk hstep h => h.step hk hstep) (Client.ok_start owned hlevel)
  obtain ⟨n, -, hle, hcredit⟩ := h.credit
  have hretired := h.retired
  rw [h.log_nodup.dedup, hcredit, h.log]
  exact messages_take_le _ (by omega)

theorem ack_ledger_counts_once_fencedTwice :
    ∃ c, Runs.Along Client.step Client.Orderly (.start 1 false)
        (fencedTwice ++ [.drained (some 3), .wireAck 1 3]) c ∧
      c.pub.ackReceived = 30 ∧ c.pub.ackReceived ≤ messages c.log.dedup := by
  exact Runs.exists_of_exec (·.pub.ackReceived) 30 (by decide +kernel) fun c hrun hc =>
    ⟨hc, ack_ledger_counts_once 1 false _ c (by decide) hrun⟩

def drainedThenAcked : List ClientEvent :=
  publishOne ++ [.commit, .finishPublishing, .fence, .wireAck 0 1]

def ackedThenRecorded : List ClientEvent :=
  [.sealBatch 10 64, .send 0, .commit, .wireAck 0 1, .record 0, .fence, .drained (some 1)]

theorem ack_ledger_counts_twice :
    (∃ c, Runs.Along Client.step (fun _ _ => True) (.start 2 false) drainedThenAcked c ∧
      messages c.log.dedup < c.pub.ackReceived) ∧
    ∃ c, Runs.Along Client.step (fun _ _ => True) (.start 1 false) ackedThenRecorded c ∧
      messages c.log.dedup < c.pub.ackReceived := by
  constructor
  · exact Runs.exists_of_exec (fun c : Client => decide (messages c.log.dedup < c.pub.ackReceived)) true
      (by decide +kernel) fun c _ hc => of_decide_eq_true hc
  · exact Runs.exists_of_exec (fun c : Client => decide (messages c.log.dedup < c.pub.ackReceived)) true
      (by decide +kernel) fun c _ hc => of_decide_eq_true hc

end Embarcadero
