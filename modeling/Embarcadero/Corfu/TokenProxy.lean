import Embarcadero.Lib.Assoc
import Embarcadero.Lib.Runs

namespace Embarcadero.Corfu

open Function (update update_apply update_of_ne)
open List

abbrev CacheKey := Nat × Nat × Nat

structure ProxyRequest where
  clientId : Nat
  batchseq : Nat
  numMsg : Nat
  totalSize : Nat
  brokerId : Nat
  deriving DecidableEq

def ProxyRequest.key (r : ProxyRequest) : CacheKey := (r.clientId, r.brokerId, r.batchseq)

structure CorfuTokenRequest where
  clientId : Nat
  batchSeq : Nat
  numMsg : Nat
  totalSize : Nat
  sessionId : Nat
  correlationId : Nat
  brokerId : Nat
  deriving DecidableEq

structure CorfuTokenGrant where
  totalOrder : Nat
  logIdx : Nat
  brokerBatchSeq : Nat
  clientId : Nat
  batchSeq : Nat
  sessionId : Nat
  correlationId : Nat
  brokerId : Nat
  status : Nat
  deriving DecidableEq

structure PendingGrant where
  numMsg : Nat
  totalSize : Nat
  clientId : Nat
  batchSeq : Nat
  brokerId : Nat
  sessionId : Nat
  terminal : Bool := false
  poisoned : Bool := false
  waiters : Nat := 0
  status : Nat := 0
  totalOrder : Nat := 0
  logIdx : Nat := 0
  brokerBatchSeq : Nat := 0
  created : Nat
  lastAccess : Nat
  deriving DecidableEq

def CorfuTokenRequest.context (q : CorfuTokenRequest) := (q.sessionId, q.clientId, q.batchSeq, q.brokerId)

def CorfuTokenGrant.context (g : CorfuTokenGrant) := (g.sessionId, g.clientId, g.batchSeq, g.brokerId)

def PendingGrant.context (p : PendingGrant) := (p.sessionId, p.clientId, p.batchSeq, p.brokerId)

def CorfuTokenRequest.key (q : CorfuTokenRequest) : CacheKey := (q.clientId, q.brokerId, q.batchSeq)

def CorfuTokenGrant.key (g : CorfuTokenGrant) : CacheKey := (g.clientId, g.brokerId, g.batchSeq)

def PendingGrant.key (p : PendingGrant) : CacheKey := (p.clientId, p.brokerId, p.batchSeq)

def PendingGrant.failed (p : PendingGrant) : Bool := p.terminal && !p.poisoned && p.status != 0

def CorfuTokenGrant.token (g : CorfuTokenGrant) := (g.totalOrder, g.logIdx, g.brokerBatchSeq)

def PendingGrant.token (p : PendingGrant) := (p.totalOrder, p.logIdx, p.brokerBatchSeq)

def ProxyRequest.grant (r : ProxyRequest) (sessionId now : Nat) : PendingGrant where
  numMsg := r.numMsg
  totalSize := r.totalSize
  clientId := r.clientId
  batchSeq := r.batchseq
  brokerId := r.brokerId
  sessionId := sessionId
  created := now
  lastAccess := now

inductive StatusCode
  | invalidArgument
  | unavailable
  | dataLoss
  | resourceExhausted
  | deadlineExceeded
  deriving DecidableEq

inductive Reply
  | ok (token : Nat × Nat × Nat)
  | error (code : StatusCode) (message : String)
  deriving DecidableEq

def grantStatus : Nat → Reply
  | 1 => .error .invalidArgument "global Corfu sequencer rejected token request"
  | 2 => .error .invalidArgument "Batch sequence already processed"
  | 3 => .error .unavailable "Out of order batch sequence, please retry"
  | _ => .error .dataLoss "invalid Corfu mailbox grant status"

def kMaxMailboxPending : Nat := 65536

def poisonStatus : Nat := 2 ^ 32 - 1

inductive CallState
  | waiting (key : CacheKey) (entry : Nat)
  | returned (key : CacheKey) (entry : Option Nat) (reply : Reply)
  deriving DecidableEq

def CallState.waiting? : CallState → Option (CacheKey × Nat)
  | .waiting key entry => some (key, entry)
  | .returned .. => none

/-- The dispatcher between two requests, with one that it sends, or ended by the exception of `pending_.at`. -/
inductive Dispatcher
  | idle
  | sending (wire : CorfuTokenRequest)
  | dead
  deriving DecidableEq

def Dispatcher.wire? : Dispatcher → Option CorfuTokenRequest
  | .sending wire => some wire
  | _ => none

structure TokenProxy where
  expectedBrokerId : Nat
  sessionId : Nat
  entries : Nat → Option PendingGrant := fun _ => none
  pending : List (CacheKey × Nat) := []
  byCorrelation : List Nat := []
  requests : List (CacheKey × ProxyRequest) := []
  nextCorrelation : Nat := 1
  dispatcher : Dispatcher := .idle
  up : List CorfuTokenRequest := []
  down : List CorfuTokenGrant := []
  calls : Nat → Option CallState := fun _ => none
  issued : List CorfuTokenGrant := []

namespace TokenProxy

def completed (w : TokenProxy) (entry : Nat) : Bool :=
  match w.entries entry with
  | some p => p.terminal && p.status == 0 && p.waiters == 0
  | none => false

def created (w : TokenProxy) (entry : Nat) : Nat := ((w.entries entry).map (·.created)).getD 0

def lastAccess (w : TokenProxy) (entry : Nat) : Nat := ((w.entries entry).map (·.lastAccess)).getD 0

def remove (w : TokenProxy) (dead : CacheKey × Nat → Bool) : TokenProxy :=
  { w with
    pending := w.pending.filter (!dead ·)
    byCorrelation := w.byCorrelation.filter fun c => !(w.pending.filter dead).any (·.2 == c) }

def expire (w : TokenProxy) (now : Nat) : TokenProxy :=
  w.remove fun e => w.completed e.2 && decide (60 * 10 ^ 9 < now - w.created e.2)

def older (w : TokenProxy) (best : Option (CacheKey × Nat)) (e : CacheKey × Nat) : Option (CacheKey × Nat) :=
  match best with
  | none => some e
  | some b => if w.lastAccess e.2 < w.lastAccess b.2 then some e else some b

def victim? (w : TokenProxy) : Option (CacheKey × Nat) :=
  (w.pending.filter (w.completed ·.2)).foldl w.older none

def create (w : TokenProxy) (now : Nat) (r : ProxyRequest) : TokenProxy :=
  { w with
    entries := update w.entries w.nextCorrelation (some (r.grant w.sessionId now))
    pending := w.pending ++ [(r.key, w.nextCorrelation)]
    byCorrelation := w.byCorrelation ++ [w.nextCorrelation]
    requests := w.requests ++ [(r.key, r)]
    nextCorrelation := w.nextCorrelation + 1 }

def tryEmplace (w : TokenProxy) (now : Nat) (r : ProxyRequest) : Except Reply (TokenProxy × Nat) :=
  match w.pending.lookup r.key with
  | some entry => .ok (w, entry)
  | none =>
    if kMaxMailboxPending < w.pending.length + 1 then
      match w.victim? with
      | none => .error (.error .resourceExhausted "Corfu mailbox proxy pending-grant limit reached")
      | some v => .ok ((w.remove (· == v)).create now r, w.nextCorrelation)
    else .ok (w.create now r, w.nextCorrelation)

def reply (w : TokenProxy) (t : Nat) (key : CacheKey) (entry : Option Nat) (r : Reply) : TokenProxy :=
  { w with calls := update w.calls t (some (.returned key entry r)) }

def setEntry (w : TokenProxy) (entry : Nat) (p : PendingGrant) : TokenProxy :=
  { w with entries := update w.entries entry (some p) }

def leave (w : TokenProxy) (t : Nat) (key : CacheKey) (entry : Nat) (p : PendingGrant) : TokenProxy :=
  let w := w.setEntry entry { p with waiters := p.waiters - 1 }
  if !p.terminal then
    w.reply t key (some entry) (.error .deadlineExceeded "Corfu mailbox token grant timed out after submission")
  else if p.poisoned then
    w.reply t key (some entry) (.error .dataLoss "Corfu mailbox grant context mismatch; retry is unsafe")
  else if p.status ≠ 0 then
    { w with
      byCorrelation := w.byCorrelation.filter (· != entry)
      pending := w.pending.filter (·.1 != key) }.reply t key (some entry) (grantStatus p.status)
  else w.reply t key (some entry) (.ok p.token)

def join (w : TokenProxy) (t now : Nat) (r : ProxyRequest) (entry : Nat) : TokenProxy :=
  match w.entries entry with
  | none => w
  | some p =>
    if p.numMsg ≠ r.numMsg ∨ p.totalSize ≠ r.totalSize then
      w.reply t r.key none (.error .invalidArgument "conflicting retry for an already submitted token request")
    else
      let p := { p with lastAccess := now, waiters := p.waiters + 1 }
      if p.terminal then w.leave t r.key entry p
      else { w.setEntry entry p with calls := update w.calls t (some (.waiting r.key entry)) }

/-- A call of `GetTotalOrder`, up to its wait or, if the entry is complete, to its end. -/
def getTotalOrder (w : TokenProxy) (t now : Nat) (r : ProxyRequest) : TokenProxy :=
  if r.brokerId ≠ w.expectedBrokerId then
    w.reply t r.key none (.error .invalidArgument "token request routed to non-owner Corfu ingress")
  else
    match (w.expire now).tryEmplace now r with
    | .error e => (w.expire now).reply t r.key none e
    | .ok (w, entry) => w.join t now r entry

def dispatch (w : TokenProxy) : Option TokenProxy :=
  match w.dispatcher, w.requests with
  | .idle, (key, r) :: rest =>
    let w := { w with requests := rest }
    match w.pending.lookup key with
    | none => some { w with dispatcher := .dead }
    | some entry =>
      (w.entries entry).map fun p =>
        { w with
          dispatcher := .sending ⟨r.clientId, r.batchseq, r.numMsg, r.totalSize, p.sessionId, entry, r.brokerId⟩ }
  | _, _ => none

def receive (w : TokenProxy) (g : CorfuTokenGrant) : TokenProxy :=
  if w.byCorrelation.contains g.correlationId then
    match w.entries g.correlationId with
    | none => w
    | some p =>
      if g.context ≠ p.context then
        w.setEntry g.correlationId { p with poisoned := true, terminal := true, status := poisonStatus }
      else
        w.setEntry g.correlationId { p with
          terminal := true, status := g.status, totalOrder := g.totalOrder, logIdx := g.logIdx,
          brokerBatchSeq := g.brokerBatchSeq }
  else w

def answer (q : CorfuTokenRequest) (status totalOrder logIdx brokerBatchSeq : Nat) : CorfuTokenGrant where
  totalOrder := if status = 0 then totalOrder else 0
  logIdx := if status = 0 then logIdx else 0
  brokerBatchSeq := if status = 0 then brokerBatchSeq else 0
  clientId := q.clientId
  batchSeq := q.batchSeq
  sessionId := q.sessionId
  correlationId := q.correlationId
  brokerId := q.brokerId
  status := status

inductive Event
  | call (t now : Nat) (r : ProxyRequest)
  /-- A waiting call wakes up; `expired` if its deadline has passed or it has been cancelled. -/
  | resume (t : Nat) (expired : Bool)
  | dispatch
  | produce
  | answer (status totalOrder logIdx brokerBatchSeq : Nat)
  | receive

def step (w : TokenProxy) : Event → Option TokenProxy
  | .call t now r => if (w.calls t).isNone then some (w.getTotalOrder t now r) else none
  | .resume t expired =>
    match w.calls t with
    | some (.waiting key entry) =>
      match w.entries entry with
      | some p => if p.terminal || expired then some (w.leave t key entry p) else none
      | none => none
    | _ => none
  | .dispatch => w.dispatch
  | .produce =>
    match w.dispatcher with
    | .sending wire => some { w with dispatcher := .idle, up := w.up ++ [wire] }
    | _ => none
  | .answer status totalOrder logIdx brokerBatchSeq =>
    match w.up with
    | [] => none
    | q :: rest =>
      let g := answer q status totalOrder logIdx brokerBatchSeq
      some { w with up := rest, down := w.down ++ [g], issued := w.issued ++ [g] }
  | .receive =>
    match w.down with
    | [] => none
    | g :: rest => some (receive { w with down := rest } g)

def outstanding (w : TokenProxy) : List CorfuTokenRequest := w.up ++ w.dispatcher.wire?.toList

def OwnEntry (w : TokenProxy) : Event → Prop
  | .resume t _ => ∀ c ∈ (w.calls t).bind CallState.waiting?, ∀ p ∈ w.entries c.2, p.failed →
    ∀ other ∈ w.pending.lookup c.1, other = c.2
  | _ => True

instance (w : TokenProxy) (e : Event) : Decidable (w.OwnEntry e) := by
  cases e <;> dsimp only [OwnEntry] <;> infer_instance

structure SingleFlight (w : TokenProxy) : Prop where
  queued : ∀ q ∈ w.requests, ∃ entry, w.pending.lookup q.1 = some entry
  running : w.dispatcher ≠ .dead
  single : (w.outstanding.map (·.key)).Nodup
  truthful : ∀ t key entry token, w.calls t = some (.returned key entry (.ok token)) →
    ∃ g ∈ w.issued, g.key = key ∧ g.status = 0 ∧ g.token = token
  idempotent : ∀ t t' key key' entry token token', w.calls t = some (.returned key (some entry) (.ok token)) →
    w.calls t' = some (.returned key' (some entry) (.ok token')) → token = token'
  /-- Whoever may still get a token waits for the entry that is retained under the key. -/
  current : ∀ t key entry, w.calls t = some (.waiting key entry) → (∃ p, w.entries entry = some p ∧ p.failed) ∨
    w.pending.lookup key = some entry

def busy (w : TokenProxy) : List CacheKey :=
  w.down.map (·.key) ++ w.outstanding.map (·.key) ++ w.requests.map (·.1)

def Waiters (calls : Nat → Option CallState) (entry n : Nat) : Prop :=
  ∃ ts : List Nat, ts.Nodup ∧ ts.length = n ∧ ∀ t, t ∈ ts ↔ ∃ key, calls t = some (.waiting key entry)

def CallOk (w : TokenProxy) : CallState → Prop
  | .waiting key entry =>
    ∃ p, w.entries entry = some p ∧ p.key = key ∧ (p.failed ∨ (key, entry) ∈ w.pending)
  | .returned key entry (.ok token) =>
    ∃ c p, entry = some c ∧ w.entries c = some p ∧ p.key = key ∧ p.terminal ∧ p.status = 0 ∧ p.token = token
  | .returned _ _ (.error ..) => True

structure Ok (w : TokenProxy) : Prop where
  keys : (w.pending.map (·.1)).Nodup
  filed : ∀ e ∈ w.pending,
    ∃ p, w.entries e.2 = some p ∧ p.key = e.1 ∧ p.sessionId = w.sessionId ∧ e.2 ∈ w.byCorrelation
  fresh : ∀ c, w.nextCorrelation ≤ c → w.entries c = none
  sound : ∀ c p, w.entries c = some p → p.poisoned = false ∧
    (p.terminal → p.status = 0 → ∃ g ∈ w.issued, g.key = p.key ∧ g.status = 0 ∧ g.token = p.token)
  waiters : ∀ c p, w.entries c = some p → Waiters w.calls c p.waiters
  calls : ∀ t s, w.calls t = some s → w.CallOk s
  running : w.dispatcher ≠ .dead
  busy : w.busy.Nodup
  unanswered : ∀ k ∈ w.busy, ∃ c p, (k, c) ∈ w.pending ∧ w.entries c = some p ∧ p.terminal = false
  queued : ∀ q ∈ w.requests, q.2.key = q.1
  sent : ∀ q ∈ w.outstanding, (q.key, q.correlationId) ∈ w.pending ∧ q.sessionId = w.sessionId
  answered : ∀ g ∈ w.down, (g.key, g.correlationId) ∈ w.pending ∧ g.sessionId = w.sessionId ∧ g ∈ w.issued

theorem Ok.singleFlight {w : TokenProxy} (h : w.Ok) : w.SingleFlight where
  queued q hq := by
    obtain ⟨c, p, hmem, -, -⟩ := h.unanswered q.1 (mem_append_right _ (mem_map_of_mem hq))
    exact ⟨c, Assoc.lookup_of_mem h.keys hmem⟩
  running := h.running
  single := (nodup_append.mp (nodup_append.mp h.busy).1).2.1
  truthful t key entry token ht := by
    obtain ⟨c, p, -, hp, hkey, hterminal, hstatus, htoken⟩ := h.calls t _ ht
    obtain ⟨g, hg, hgkey, hgstatus, hgtoken⟩ := (h.sound c p hp).2 hterminal hstatus
    exact ⟨g, hg, hgkey.trans hkey, hgstatus, hgtoken.trans htoken⟩
  idempotent t t' key key' entry token token' ht ht' := by
    obtain ⟨c, p, hc, hp, -, -, -, htoken⟩ := h.calls t _ ht
    obtain ⟨c', p', hc', hp', -, -, -, htoken'⟩ := h.calls t' _ ht'
    cases hc
    cases hc'
    cases hp.symm.trans hp'
    exact htoken.symm.trans htoken'
  current t key entry ht := by
    obtain ⟨p, hp, -, hfailed | hmem⟩ := h.calls t _ ht
    · exact .inl ⟨p, hp, hfailed⟩
    · exact .inr (Assoc.lookup_of_mem h.keys hmem)

structure Extends (p p' : PendingGrant) : Prop where
  key : p'.key = p.key
  session : p'.sessionId = p.sessionId
  failed : p.failed → p'.failed
  granted : p.terminal → p.status = 0 → p'.terminal ∧ p'.status = 0 ∧ p'.token = p.token

theorem Extends.refl (p : PendingGrant) : Extends p p := ⟨rfl, rfl, id, fun h h' => ⟨h, h', rfl⟩⟩

section Steps

variable {w w' : TokenProxy} {s : CallState} {c t : Nat} {p p' : PendingGrant}

theorem CallOk.mono (hs : w.CallOk s) (he : ∀ c p, w.entries c = some p → ∃ p', w'.entries c = some p' ∧ Extends p p')
    (hpending : ∀ key c, s = .waiting key c → ∀ p, w.entries c = some p → p.failed = false → (key, c) ∈ w.pending →
      (key, c) ∈ w'.pending) : w'.CallOk s := by
  cases s with
  | waiting key c =>
    obtain ⟨p, hp, hkey, hor⟩ := hs
    obtain ⟨p', hp', hext⟩ := he c p hp
    refine ⟨p', hp', hext.key.trans hkey, ?_⟩
    cases hf : p.failed with
    | true => exact .inl (hext.failed hf)
    | false =>
      rw [hf] at hor
      exact .inr (hpending key c rfl p hp hf (hor.resolve_left Bool.false_ne_true))
  | returned key entry r =>
    cases r with
    | error code message => trivial
    | ok token =>
      obtain ⟨c, p, hc, hp, hkey, hterminal, hstatus, htoken⟩ := hs
      obtain ⟨p', hp', hext⟩ := he c p hp
      obtain ⟨hterminal', hstatus', htoken'⟩ := hext.granted hterminal hstatus
      exact ⟨c, p', hc, hp', hext.key.trans hkey, hterminal', hstatus', htoken'.trans htoken⟩

theorem Ok.retain (h : w.Ok) {l : List (CacheKey × Nat)} {b : List Nat} (hsub : l.Sublist w.pending)
    (hcorr : ∀ e ∈ l, e.2 ∈ b) (hkeep : ∀ e ∈ w.pending, ∀ p, w.entries e.2 = some p →
      p.terminal = false ∨ p.failed = false ∧ p.waiters ≠ 0 → e ∈ l) :
    Ok { w with pending := l, byCorrelation := b } := by
  have hbusy : ∀ k ∈ w.busy, ∀ c, (k, c) ∈ w.pending → (k, c) ∈ l := by
    intro k hk c hmem
    obtain ⟨c', p, hmem', hp, hopen⟩ := h.unanswered k hk
    rw [Assoc.mem_unique h.keys hmem hmem']
    exact hkeep _ hmem' p hp (.inl hopen)
  refine { h with
    keys := h.keys.sublist (hsub.map _)
    filed := fun e he => ?_
    calls := fun t s ht => ?_
    unanswered := fun k hk => ?_
    sent := fun q hq => ?_
    answered := fun g hg => ?_ }
  · obtain ⟨p, hp, hkey, hsession, -⟩ := h.filed e (hsub.subset he)
    exact ⟨p, hp, hkey, hsession, hcorr e he⟩
  · refine (h.calls t s ht).mono (fun c p hp => ⟨p, hp, .refl p⟩) ?_
    intro key c hs p hp hfailed hmem
    refine hkeep _ hmem p hp (.inr ⟨hfailed, fun hzero => ?_⟩)
    obtain ⟨ts, -, hlen, hts⟩ := h.waiters c p hp
    rw [length_eq_zero_iff.mp (hlen.trans hzero)] at hts
    exact not_mem_nil ((hts t).mpr ⟨key, hs ▸ ht⟩)
  · obtain ⟨c, p, hmem, hp, hopen⟩ := h.unanswered k hk
    exact ⟨c, p, hbusy k hk c hmem, hp, hopen⟩
  · obtain ⟨hmem, hsession⟩ := h.sent q hq
    exact ⟨hbusy _ (mem_append_left _ (mem_append_right _ (mem_map_of_mem hq))) _ hmem, hsession⟩
  · obtain ⟨hmem, hrest⟩ := h.answered g hg
    exact ⟨hbusy _ (mem_append_left _ (mem_append_left _ (mem_map_of_mem hg))) _ hmem, hrest⟩

theorem completed_eq_true (hc : w.completed c = true) (hp : w.entries c = some p) :
    p.terminal = true ∧ p.waiters = 0 := by
  rw [completed, hp] at hc
  simp only [Bool.and_eq_true, beq_iff_eq] at hc
  exact ⟨hc.1.1, hc.2⟩

theorem Ok.remove (h : w.Ok) {dead : CacheKey × Nat → Bool} (hdead : ∀ e, dead e → w.completed e.2) :
    (w.remove dead).Ok := by
  refine h.retain filter_sublist (fun e he => ?_) fun e he p hp hneeded => ?_
  · obtain ⟨hmem, hlive⟩ := mem_filter.mp he
    obtain ⟨p, hp, hkey, -, hcorr⟩ := h.filed e hmem
    refine mem_filter.mpr ⟨hcorr, ?_⟩
    rw [Bool.not_eq_true', any_eq_false]
    intro d hd heq
    -- Two entries with one correlation id have the key that the entry itself holds.
    obtain ⟨hdmem, hddead⟩ := mem_filter.mp hd
    obtain ⟨p', hp', hkey', -, -⟩ := h.filed d hdmem
    rw [eq_of_beq heq, hp] at hp'
    cases hp'
    have hde : d = e := Prod.ext (hkey'.symm.trans hkey) (eq_of_beq heq)
    rw [← hde, hddead] at hlive
    cases hlive
  · refine mem_filter.mpr ⟨he, ?_⟩
    cases hd : dead e with
    | false => rfl
    | true =>
      obtain ⟨hterminal, hwaiters⟩ := completed_eq_true (hdead e hd) hp
      cases hneeded with
      | inl hopen => exact absurd (hterminal.symm.trans hopen) (Bool.noConfusion)
      | inr hwaited => exact absurd hwaiters hwaited.2

theorem Ok.drop (h : w.Ok) {key : CacheKey} (hp : w.entries c = some p) (hkey : p.key = key) (hfailed : p.failed)
    (hown : ∀ other, (key, other) ∈ w.pending → other = c) :
    Ok { w with pending := w.pending.filter (·.1 != key), byCorrelation := w.byCorrelation.filter (· != c) } := by
  have hterminal : p.terminal = true := by
    rw [PendingGrant.failed, Bool.and_eq_true, Bool.and_eq_true] at hfailed
    exact hfailed.1.1
  refine h.retain filter_sublist (fun e he => ?_) fun e he p' hp' hneeded => ?_
  · obtain ⟨hmem, hne⟩ := mem_filter.mp he
    obtain ⟨p', hp', hkey', -, hcorr⟩ := h.filed e hmem
    refine mem_filter.mpr ⟨hcorr, bne_iff_ne.mpr fun heq => bne_iff_ne.mp hne ?_⟩
    rw [heq, hp] at hp'
    cases hp'
    exact hkey'.symm.trans hkey
  · refine mem_filter.mpr ⟨he, bne_iff_ne.mpr fun heq => ?_⟩
    have hc : e.2 = c := hown e.2 (heq ▸ he)
    rw [hc, hp] at hp'
    cases hp'
    cases hneeded with
    | inl hopen => exact absurd (hterminal.symm.trans hopen) (Bool.noConfusion)
    | inr hwaited => exact absurd (hfailed.symm.trans hwaited.1) (Bool.noConfusion)

variable {v : CacheKey × Nat} {g : CorfuTokenGrant} {rest : List CorfuTokenGrant} {entry : Option Nat}
  {r : ProxyRequest}

theorem Ok.create (h : w.Ok) (now : Nat) (hnew : r.key ∉ w.pending.map (·.1)) : (w.create now r).Ok := by
  have hfresh : w.entries w.nextCorrelation = none := h.fresh _ (Nat.le_refl _)
  have hold : ∀ c p, w.entries c = some p → (w.create now r).entries c = some p := by
    intro c p hp
    refine (update_of_ne ?_ _ _).trans hp
    rintro rfl
    cases hfresh.symm.trans hp
  have hself : (w.create now r).entries w.nextCorrelation = some (r.grant w.sessionId now) :=
    Function.update_self ..
  have hcases : ∀ c p, (w.create now r).entries c = some p →
      c = w.nextCorrelation ∧ p = r.grant w.sessionId now ∨ w.entries c = some p := by
    intro c p hp
    have hp : update w.entries w.nextCorrelation (some (r.grant w.sessionId now)) c = some p := hp
    rw [update_apply] at hp
    split at hp
    · exact .inl ⟨‹_›, (Option.some.inj hp).symm⟩
    · exact .inr hp
  have hbusy : (w.create now r).busy = w.busy ++ [r.key] := by
    simp only [TokenProxy.busy, TokenProxy.create, TokenProxy.outstanding, map_append, map_cons,
      map_nil, append_assoc]
  refine { h with
    keys := ?_
    filed := fun e he => ?_
    fresh := fun c hc => ?_
    sound := fun c p hp => ?_
    waiters := fun c p hp => ?_
    calls := fun t s ht => ?_
    busy := ?_
    unanswered := fun k hk => ?_
    queued := fun q hq => ?_
    sent := fun q hq => ?_
    answered := fun g hg => ?_ }
  · rw [TokenProxy.create, map_append, map_singleton, nodup_append]
    refine ⟨h.keys, nodup_singleton _, fun a ha b hb heq => hnew ?_⟩
    have hkey : b = r.key := mem_singleton.mp hb
    rwa [← hkey, ← heq]
  · cases mem_append.mp he with
    | inl hmem =>
      obtain ⟨p, hp, hkey, hsession, hcorr⟩ := h.filed e hmem
      exact ⟨p, hold _ _ hp, hkey, hsession, mem_append_left _ hcorr⟩
    | inr hmem =>
      rw [mem_singleton.mp hmem]
      exact ⟨_, hself, rfl, rfl, mem_append_right _ mem_cons_self⟩
  · refine (update_of_ne (Nat.ne_of_gt hc) _ _).trans (h.fresh c (Nat.le_of_succ_le hc))
  · obtain ⟨-, rfl⟩ | hp := hcases c p hp
    · exact ⟨rfl, nofun⟩
    · exact h.sound c p hp
  · obtain ⟨hc, rfl⟩ | hp := hcases c p hp
    · refine ⟨[], nodup_nil, rfl, fun t => ⟨fun hmem => absurd hmem not_mem_nil, ?_⟩⟩
      rintro ⟨key, ht⟩
      obtain ⟨p, hp, -, -⟩ := h.calls t _ ht
      rw [hc, hfresh] at hp
      cases hp
    · exact h.waiters c p hp
  · refine (h.calls t s ht).mono (fun c p hp => ⟨p, hold c p hp, .refl p⟩) ?_
    intro key c _ p _ _ hmem
    exact mem_append_left _ hmem
  · rw [hbusy, nodup_append]
    refine ⟨h.busy, nodup_singleton _, fun a ha b hb heq => hnew ?_⟩
    obtain ⟨c, p, hmem, -, -⟩ := h.unanswered a ha
    rw [← mem_singleton.mp hb, ← heq]
    exact mem_map_of_mem hmem
  · rw [hbusy] at hk
    cases mem_append.mp hk with
    | inl hk =>
      obtain ⟨c, p, hmem, hp, hopen⟩ := h.unanswered k hk
      exact ⟨c, p, mem_append_left _ hmem, hold c p hp, hopen⟩
    | inr hk =>
      rw [mem_singleton.mp hk]
      exact ⟨_, _, mem_append_right _ mem_cons_self, hself, rfl⟩
  · cases mem_append.mp hq with
    | inl hmem => exact h.queued q hmem
    | inr hmem =>
      rw [mem_singleton.mp hmem]
  · obtain ⟨hmem, hsession⟩ := h.sent q hq
    exact ⟨mem_append_left _ hmem, hsession⟩
  · obtain ⟨hmem, hrest⟩ := h.answered g hg
    exact ⟨mem_append_left _ hmem, hrest⟩

theorem foldl_older (l : List (CacheKey × Nat)) {best : Option (CacheKey × Nat)} (h : l.foldl w.older best = some v) :
    v ∈ l ∨ best = some v := by
  induction l generalizing best with
  | nil => exact .inr h
  | cons e rest ih =>
    cases ih h with
    | inl hmem => exact .inl (mem_cons_of_mem _ hmem)
    | inr hbest =>
      rw [older.eq_def] at hbest
      split at hbest
      · cases hbest
        exact .inl mem_cons_self
      · split at hbest
        · cases hbest
          exact .inl mem_cons_self
        · exact .inr hbest

theorem completed_victim (hv : w.victim? = some v) : w.completed v.2 := by
  cases foldl_older _ hv with
  | inl hmem => exact (mem_filter.mp hmem).2
  | inr h => cases h

theorem Ok.expire (h : w.Ok) (now : Nat) : (w.expire now).Ok :=
  h.remove fun _ he => (Bool.and_eq_true_iff.mp he).1

theorem Ok.tryEmplace (h : w.Ok) {now : Nat} (hplaced : w.tryEmplace now r = .ok (w', c)) :
    w'.Ok ∧ (r.key, c) ∈ w'.pending ∧ w'.calls = w.calls := by
  have hlast : ∀ v : TokenProxy, (r.key, v.nextCorrelation) ∈ (v.create now r).pending :=
    fun v => mem_append_right _ mem_cons_self
  rw [TokenProxy.tryEmplace] at hplaced
  split at hplaced
  · cases hplaced
    exact ⟨h, Assoc.mem_of_lookup ‹_›, rfl⟩
  · have hnew := Assoc.not_mem_of_lookup ‹w.pending.lookup r.key = none›
    split at hplaced
    · split at hplaced
      · cases hplaced
      next v hv =>
        cases hplaced
        have hremoved : (w.remove (· == v)).Ok := h.remove fun e he => eq_of_beq he ▸ completed_victim hv
        refine ⟨hremoved.create now fun hmem => hnew ?_, hlast (w.remove (· == v)), rfl⟩
        exact (filter_sublist.map _).subset hmem
    · cases hplaced
      exact ⟨h.create now hnew, hlast w, rfl⟩

theorem Ok.settle (h : w.Ok) (hp : w.entries c = some p) (a n : Nat)
    (ht : ∀ key c', w.calls t = some (.waiting key c') → c' = c) (hs : ∀ key c', s = .waiting key c' → c' = c)
    (hwaiters : Waiters (update w.calls t (some s)) c n) (hok : w.CallOk s) :
    Ok { w with
      entries := update w.entries c (some { p with lastAccess := a, waiters := n })
      calls := update w.calls t (some s) } := by
  have hback : ∀ c' p', update w.entries c (some { p with lastAccess := a, waiters := n }) c' = some p' →
      c' = c ∧ p' = { p with lastAccess := a, waiters := n } ∨ c' ≠ c ∧ w.entries c' = some p' := by
    intro c' p' hp'
    rw [update_apply] at hp'
    split at hp'
    · exact .inl ⟨‹_›, (Option.some.inj hp').symm⟩
    · exact .inr ⟨‹_›, hp'⟩
  have hforth : ∀ c' p', w.entries c' = some p' →
      ∃ p'', update w.entries c (some { p with lastAccess := a, waiters := n }) c' = some p'' ∧ Extends p' p'' ∧
        p''.terminal = p'.terminal := by
    intro c' p' hp'
    rw [update_apply]
    split
    next hc =>
      rw [hc, hp] at hp'
      cases hp'
      exact ⟨_, rfl, ⟨rfl, rfl, id, fun h h' => ⟨h, h', rfl⟩⟩, rfl⟩
    · exact ⟨p', hp', .refl p', rfl⟩
  refine { h with
    filed := fun e he => ?_
    fresh := fun c' hc' => ?_
    sound := fun c' p' hp' => ?_
    waiters := fun c' p' hp' => ?_
    calls := fun t' s' ht' => ?_
    unanswered := fun k hk => ?_ }
  · obtain ⟨p', hp', hkey, hsession, hcorr⟩ := h.filed e he
    obtain ⟨p'', hp'', hext, -⟩ := hforth _ _ hp'
    exact ⟨p'', hp'', hext.key.trans hkey, hext.session.trans hsession, hcorr⟩
  · refine (update_of_ne ?_ _ _).trans (h.fresh c' hc')
    rintro rfl
    cases hp.symm.trans (h.fresh c' hc')
  · obtain ⟨-, rfl⟩ | ⟨-, hp'⟩ := hback c' p' hp'
    · exact h.sound c p hp
    · exact h.sound c' p' hp'
  · obtain ⟨rfl, rfl⟩ | ⟨hne, hp'⟩ := hback c' p' hp'
    · exact hwaiters
    · obtain ⟨ts, hnodup, hlen, hts⟩ := h.waiters c' p' hp'
      refine ⟨ts, hnodup, hlen, fun t' => ?_⟩
      rw [hts t']
      dsimp only
      rw [update_apply]
      split
      next heq =>
        rw [heq]
        refine ⟨fun ⟨key, hkey⟩ => absurd (ht key c' hkey) hne, fun ⟨key, hkey⟩ => ?_⟩
        exact absurd (hs key c' (Option.some.inj hkey)) hne
      · rfl
  · have hmono : ∀ s, w.CallOk s → CallOk { w with
        entries := update w.entries c (some { p with lastAccess := a, waiters := n })
        calls := update w.calls t (some s) } s := fun s hs =>
      hs.mono (fun c' p' hp' => (hforth c' p' hp').imp fun _ h => ⟨h.1, h.2.1⟩) fun _ _ _ _ _ _ hmem => hmem
    dsimp only at ht'
    rw [update_apply] at ht'
    split at ht'
    · cases ht'
      exact hmono _ hok
    · exact hmono s' (h.calls t' s' ht')
  · obtain ⟨c', p', hmem, hp', hopen⟩ := h.unanswered k hk
    obtain ⟨p'', hp'', -, hterminal⟩ := hforth _ _ hp'
    exact ⟨c', p'', hmem, hp'', hterminal.trans hopen⟩

theorem Ok.reply (h : w.Ok) (ht : w.calls t = none) {key : CacheKey} {code : StatusCode} {message : String} :
    (w.reply t key entry (.error code message)).Ok := by
  refine { h with waiters := fun c p hp => ?_, calls := fun t' s' ht' => ?_ }
  · obtain ⟨ts, hnodup, hlen, hts⟩ := h.waiters c p hp
    refine ⟨ts, hnodup, hlen, fun t' => (hts t').trans ?_⟩
    rw [TokenProxy.reply]
    dsimp only
    rw [update_apply]
    split
    next heq =>
      rw [heq, ht]
      exact ⟨nofun, nofun⟩
    · rfl
  · rw [TokenProxy.reply] at ht'
    dsimp only at ht'
    rw [update_apply] at ht'
    split at ht'
    · cases ht'
      trivial
    · exact (h.calls t' s' ht').mono (fun c p hp => ⟨p, hp, .refl p⟩) fun _ _ _ _ _ _ hmem => hmem

theorem callOk_grantStatus {key : CacheKey} (status : Nat) : w.CallOk (.returned key entry (grantStatus status)) := by
  rw [grantStatus.eq_def]
  split <;> trivial

theorem Ok.leave (h : w.Ok) {key : CacheKey} (hp : w.entries c = some p) (hkey : p.key = key) (a n : Nat)
    (ht : ∀ key c', w.calls t = some (.waiting key c') → c' = c)
    (hwaiters : ∀ r, Waiters (update w.calls t (some (.returned key (some c) r))) c (n - 1))
    (hown : p.failed → ∀ other, (key, other) ∈ w.pending → other = c) :
    (w.leave t key c { p with lastAccess := a, waiters := n }).Ok := by
  rw [TokenProxy.leave]
  dsimp only
  split
  · exact h.settle hp a (n - 1) ht nofun (hwaiters _) trivial
  next hterminal =>
    rw [Bool.not_eq_true', Bool.not_eq_false] at hterminal
    split
    · exact h.settle hp a (n - 1) ht nofun (hwaiters _) trivial
    next hpoisoned =>
      split
      next hstatus =>
        have hfailed : p.failed := by
          rw [PendingGrant.failed, hterminal, Bool.eq_false_iff.mpr hpoisoned]
          exact bne_iff_ne.mpr hstatus
        exact (h.drop hp hkey hfailed (hown hfailed)).settle hp a (n - 1) ht nofun (hwaiters _)
          (callOk_grantStatus p.status)
      next hstatus =>
        exact h.settle hp a (n - 1) ht nofun (hwaiters _)
          ⟨c, p, rfl, hp, hkey, hterminal, Decidable.not_not.mp hstatus, rfl⟩

theorem Ok.join (h : w.Ok) (ht : w.calls t = none) (now : Nat) (hmem : (r.key, c) ∈ w.pending) :
    (w.join t now r c).Ok := by
  obtain ⟨p, hp, hkey, -, -⟩ := h.filed _ hmem
  obtain ⟨ts, hnodup, hlen, hts⟩ := h.waiters c p hp
  have hidle : ∀ key c', w.calls t = some (.waiting key c') → c' = c := by
    intro key c' heq
    cases ht.symm.trans heq
  have hnot : t ∉ ts := by
    intro htmem
    obtain ⟨key, heq⟩ := (hts t).mp htmem
    cases ht.symm.trans heq
  rw [TokenProxy.join, hp]
  dsimp only
  split
  · exact h.reply ht
  · split
    · refine h.leave hp hkey now (p.waiters + 1) hidle (fun r => ⟨ts, hnodup, hlen, fun t' => ?_⟩) ?_
      · rw [hts t', update_apply]
        split
        next heq =>
          rw [heq, ht]
          exact ⟨nofun, nofun⟩
        · rfl
      · intro _ other hother
        exact Assoc.mem_unique h.keys hother hmem
    · refine h.settle hp now (p.waiters + 1) hidle (fun key c' heq => ?_) ?_ ⟨p, hp, hkey, .inr hmem⟩
      · cases heq
        rfl
      · refine ⟨t :: ts, nodup_cons.mpr ⟨hnot, hnodup⟩, congrArg (· + 1) hlen, fun t' => ?_⟩
        rw [mem_cons, hts t', update_apply]
        split
        next heq => exact ⟨fun _ => ⟨r.key, rfl⟩, fun _ => .inl heq⟩
        next hne => exact or_iff_right hne

theorem Ok.getTotalOrder (h : w.Ok) (ht : w.calls t = none) (now : Nat) (r : ProxyRequest) :
    (w.getTotalOrder t now r).Ok := by
  rw [TokenProxy.getTotalOrder]
  split
  · exact h.reply ht
  · split
    next e he =>
      rw [TokenProxy.tryEmplace] at he
      split at he
      · cases he
      · split at he
        · split at he
          · cases he
            exact (h.expire now).reply ht
          · cases he
        · cases he
    next w' c he =>
      obtain ⟨hok, hmem, hcalls⟩ := (h.expire now).tryEmplace he
      exact hok.join (by rw [hcalls]; exact ht) now hmem

theorem Waiters.leave {calls : Nat → Option CallState} {n : Nat} {key : CacheKey} (h : Waiters calls c n)
    (ht : calls t = some (.waiting key c)) (r : Reply) :
    Waiters (update calls t (some (.returned key (some c) r))) c (n - 1) := by
  obtain ⟨ts, hnodup, hlen, hts⟩ := h
  refine ⟨ts.erase t, hnodup.erase t, ?_, fun t' => ?_⟩
  · rw [length_erase_of_mem ((hts t).mpr ⟨key, ht⟩), hlen]
  · rw [hnodup.mem_erase_iff, hts t', update_apply]
    split
    next heq => exact ⟨fun hne => absurd heq hne.1, nofun⟩
    next hne => exact and_iff_right hne

theorem Ok.resume (h : w.Ok) {key : CacheKey} (ht : w.calls t = some (.waiting key c)) (hp : w.entries c = some p)
    (hown : p.failed → ∀ other ∈ w.pending.lookup key, other = c) : (w.leave t key c p).Ok := by
  obtain ⟨p', hp', hkey, -⟩ := h.calls t _ ht
  cases hp.symm.trans hp'
  refine h.leave hp hkey p.lastAccess p.waiters (fun key' c' heq => ?_) (fun r => (h.waiters c p hp).leave ht r) ?_
  · cases ht.symm.trans heq
    rfl
  · intro hfailed other hmem
    exact hown hfailed other (Assoc.lookup_of_mem h.keys hmem)

theorem Ok.dispatch (h : w.Ok) (hstep : w.dispatch = some w') : w'.Ok := by
  rw [TokenProxy.dispatch.eq_def] at hstep
  split at hstep
  next key r rest hidle hrequests =>
    have hkeyeq : r.key = key := h.queued (key, r) (hrequests ▸ mem_cons_self)
    have hbusy : key ∈ w.busy := by
      rw [TokenProxy.busy, hrequests]
      exact mem_append_right _ mem_cons_self
    obtain ⟨c, p, hmem, hp, -⟩ := h.unanswered key hbusy
    obtain ⟨p', hp', -, hsession, -⟩ := h.filed _ hmem
    cases hp.symm.trans hp'
    dsimp only at hstep
    rw [Assoc.lookup_of_mem h.keys hmem] at hstep
    dsimp only at hstep
    rw [hp] at hstep
    cases hstep
    -- The key moves on in the pipeline.
    have hsame : TokenProxy.busy { w with
        requests := rest
        dispatcher := .sending ⟨r.clientId, r.batchseq, r.numMsg, r.totalSize, p.sessionId, c, r.brokerId⟩ } =
          w.busy := by
      have hwire : (⟨r.clientId, r.batchseq, r.numMsg, r.totalSize, p.sessionId, c, r.brokerId⟩ :
          CorfuTokenRequest).key = key := hkeyeq
      simp only [TokenProxy.busy, TokenProxy.outstanding, hidle, hrequests, Dispatcher.wire?, Option.toList_some,
        Option.toList_none, map_append, map_cons, map_nil, append_nil, append_assoc, singleton_append, hwire]
    refine { h with
      running := nofun
      busy := hsame ▸ h.busy
      unanswered := fun k hk => h.unanswered k (hsame ▸ hk)
      queued := fun q hq => h.queued q (hrequests ▸ mem_cons_of_mem _ hq)
      sent := fun q hq => ?_ }
    cases mem_append.mp hq with
    | inl hup => exact h.sent q (mem_append_left _ hup)
    | inr hhand =>
      cases mem_singleton.mp hhand
      rw [← hkeyeq] at hmem
      exact ⟨hmem, hsession⟩
  · cases hstep

theorem Ok.produce (h : w.Ok) {wire : CorfuTokenRequest} (hhand : w.dispatcher = .sending wire) :
    Ok { w with dispatcher := .idle, up := w.up ++ [wire] } := by
  have hsame : TokenProxy.outstanding { w with dispatcher := .idle, up := w.up ++ [wire] } = w.outstanding := by
    simp only [TokenProxy.outstanding, hhand, Dispatcher.wire?, Option.toList_none, Option.toList_some, append_nil]
  have hbusy : TokenProxy.busy { w with dispatcher := .idle, up := w.up ++ [wire] } = w.busy := by
    rw [TokenProxy.busy, hsame, TokenProxy.busy]
  exact { h with
    running := nofun
    busy := hbusy ▸ h.busy
    unanswered := fun k hk => h.unanswered k (hbusy ▸ hk)
    sent := fun q hq => h.sent q (hsame ▸ hq) }

theorem Ok.answer (h : w.Ok) {q : CorfuTokenRequest} {rest : List CorfuTokenRequest} (hup : w.up = q :: rest)
    (status totalOrder logIdx brokerBatchSeq : Nat) :
    Ok { w with
      up := rest
      down := w.down ++ [TokenProxy.answer q status totalOrder logIdx brokerBatchSeq]
      issued := w.issued ++ [TokenProxy.answer q status totalOrder logIdx brokerBatchSeq] } := by
  have hbusy : TokenProxy.busy { w with
      up := rest
      down := w.down ++ [TokenProxy.answer q status totalOrder logIdx brokerBatchSeq]
      issued := w.issued ++ [TokenProxy.answer q status totalOrder logIdx brokerBatchSeq] } = w.busy := by
    have hkey : (TokenProxy.answer q status totalOrder logIdx brokerBatchSeq).key = q.key := rfl
    simp only [TokenProxy.busy, TokenProxy.outstanding, hup, map_append, map_cons, map_nil,
      append_assoc, cons_append, nil_append, hkey]
  have hq : q ∈ w.outstanding := mem_append_left _ (hup ▸ mem_cons_self)
  refine { h with
    sound := fun c p hp => ?_
    calls := fun t s ht => (h.calls t s ht).mono (fun c p hp => ⟨p, hp, .refl p⟩) fun _ _ _ _ _ _ hmem => hmem
    busy := hbusy ▸ h.busy
    unanswered := fun k hk => h.unanswered k (hbusy ▸ hk)
    sent := fun q' hq' => ?_
    answered := fun g hg => ?_ }
  · obtain ⟨hpoisoned, hgrant⟩ := h.sound c p hp
    refine ⟨hpoisoned, fun hterminal hstatus => ?_⟩
    obtain ⟨g, hg, hrest⟩ := hgrant hterminal hstatus
    exact ⟨g, mem_append_left _ hg, hrest⟩
  · refine h.sent q' ?_
    rw [TokenProxy.outstanding, hup]
    exact mem_cons_of_mem _ hq'
  · cases mem_append.mp hg with
    | inl hold =>
      obtain ⟨hmem, hsession, hissued⟩ := h.answered g hold
      exact ⟨hmem, hsession, mem_append_left _ hissued⟩
    | inr hnew =>
      rw [mem_singleton.mp hnew]
      obtain ⟨hmem, hsession⟩ := h.sent q hq
      exact ⟨hmem, hsession, mem_append_right _ mem_cons_self⟩

theorem Ok.fill (h : w.Ok) (hdown : w.down = g :: rest) (hp : w.entries g.correlationId = some p)
    (hopen : p.terminal = false) :
    Ok { w with
      down := rest
      entries := update w.entries g.correlationId (some { p with
        terminal := true, status := g.status, totalOrder := g.totalOrder, logIdx := g.logIdx,
        brokerBatchSeq := g.brokerBatchSeq }) } := by
  have hbusy : w.busy = g.key :: TokenProxy.busy { w with down := rest } := by
    rw [TokenProxy.busy, hdown]
    rfl
  have hnodup := h.busy
  rw [hbusy, nodup_cons] at hnodup
  obtain ⟨hmem, -, hissued⟩ := h.answered g (hdown ▸ mem_cons_self)
  obtain ⟨p', hp', hkey, -, -⟩ := h.filed _ hmem
  cases hp.symm.trans hp'
  have hforth : ∀ c' p', w.entries c' = some p' → ∃ p'', update w.entries g.correlationId (some { p with
        terminal := true, status := g.status, totalOrder := g.totalOrder, logIdx := g.logIdx,
        brokerBatchSeq := g.brokerBatchSeq }) c' = some p'' ∧ Extends p' p'' := by
    intro c' p' hp'
    rw [update_apply]
    split
    next hc =>
      rw [hc, hp] at hp'
      cases hp'
      refine ⟨_, rfl, rfl, rfl, fun hfailed => ?_, fun hterminal => ?_⟩
      · rw [PendingGrant.failed, hopen] at hfailed
        cases hfailed
      · cases hopen.symm.trans hterminal
    · exact ⟨p', hp', .refl p'⟩
  refine { h with
    filed := fun e he => ?_
    fresh := fun c' hc' => ?_
    sound := fun c' p' hp' => ?_
    waiters := fun c' p' hp' => ?_
    calls := fun t s ht => (h.calls t s ht).mono hforth fun _ _ _ _ _ _ hmem => hmem
    busy := hnodup.2
    unanswered := fun k hk => ?_
    answered := fun g' hg' => h.answered g' (hdown ▸ mem_cons_of_mem _ hg') }
  · obtain ⟨p', hp', hkey', hsession, hcorr⟩ := h.filed e he
    obtain ⟨p'', hp'', hext⟩ := hforth _ _ hp'
    exact ⟨p'', hp'', hext.key.trans hkey', hext.session.trans hsession, hcorr⟩
  · refine (update_of_ne ?_ _ _).trans (h.fresh c' hc')
    rintro rfl
    cases hp.symm.trans (h.fresh _ hc')
  · dsimp only at hp'
    rw [update_apply] at hp'
    split at hp'
    · cases hp'
      exact ⟨(h.sound _ p hp).1, fun _ hstatus => ⟨g, hissued, hkey.symm, hstatus, rfl⟩⟩
    · exact h.sound c' p' hp'
  · dsimp only at hp'
    rw [update_apply] at hp'
    split at hp'
    next hc =>
      cases hp'
      rw [hc]
      exact h.waiters _ p hp
    · exact h.waiters c' p' hp'
  · obtain ⟨c', p', hmem', hp', hopen'⟩ := h.unanswered k (hbusy ▸ mem_cons_of_mem _ hk)
    refine ⟨c', p', hmem', (update_of_ne ?_ _ _).trans hp', hopen'⟩
    rintro rfl
    obtain ⟨p'', hp'', hkey', -, -⟩ := h.filed _ hmem'
    cases hp.symm.trans hp''
    have hk' : k = g.key := hkey'.symm.trans hkey
    exact hnodup.1 (hk' ▸ hk)

theorem Ok.receive (h : w.Ok) (hdown : w.down = g :: rest) : (TokenProxy.receive { w with down := rest } g).Ok := by
  obtain ⟨hmem, hsession, -⟩ := h.answered g (hdown ▸ mem_cons_self)
  obtain ⟨p, hp, hkey, hpsession, hcorr⟩ := h.filed _ hmem
  have hopen : p.terminal = false := by
    have hbusy : g.key ∈ w.busy := by
      rw [TokenProxy.busy, hdown]
      exact mem_cons_self
    obtain ⟨c, p', hmem', hp', hopen⟩ := h.unanswered _ hbusy
    rw [← Assoc.mem_unique h.keys hmem hmem', hp] at hp'
    cases hp'
    exact hopen
  have hcontext : g.context = p.context := by
    obtain ⟨hclient, hbroker, hbatch⟩ : p.clientId = g.clientId ∧ p.brokerId = g.brokerId ∧ p.batchSeq = g.batchSeq :=
      ⟨congrArg (·.1) hkey, congrArg (·.2.1) hkey, congrArg (·.2.2) hkey⟩
    rw [CorfuTokenGrant.context, PendingGrant.context, hclient, hbroker, hbatch, hsession, hpsession]
  rw [TokenProxy.receive, if_pos (contains_iff_mem.mpr hcorr)]
  dsimp only
  rw [hp]
  dsimp only
  rw [if_neg (not_not_intro hcontext)]
  exact h.fill hdown hp hopen

theorem Ok.step (h : w.Ok) {e : Event} (hown : w.OwnEntry e) (hstep : w.step e = some w') : w'.Ok := by
  cases e with
  | call t now r =>
    obtain ⟨hguard, rfl⟩ := Runs.of_guard hstep
    exact h.getTotalOrder (Option.isNone_iff_eq_none.mp hguard) now r
  | resume t expired =>
    rw [TokenProxy.step] at hstep
    split at hstep
    next key c ht =>
      split at hstep
      next p hp =>
        obtain ⟨-, rfl⟩ := Runs.of_guard hstep
        refine h.resume ht hp fun hfailed => hown (key, c) ?_ p hp hfailed
        rw [ht]
        rfl
      · cases hstep
    · cases hstep
  | dispatch => exact h.dispatch hstep
  | produce =>
    rw [TokenProxy.step] at hstep
    split at hstep
    · cases hstep
      exact h.produce ‹_›
    · cases hstep
  | answer status totalOrder logIdx brokerBatchSeq =>
    rw [TokenProxy.step] at hstep
    split at hstep
    · cases hstep
    · cases hstep
      exact h.answer ‹_› ..
  | receive =>
    rw [TokenProxy.step] at hstep
    split at hstep
    · cases hstep
    · cases hstep
      exact h.receive ‹_›

end Steps

theorem Ok.start (expectedBrokerId sessionId : Nat) : Ok { expectedBrokerId, sessionId } where
  keys := nodup_nil
  filed := nofun
  fresh _ _ := rfl
  sound := nofun
  waiters := nofun
  calls := nofun
  running := nofun
  busy := nodup_nil
  unanswered := nofun
  queued := nofun
  sent := nofun
  answered := nofun

/-- The proxy is single-flight in every run in which no error return takes out the entry of a retry. -/
theorem token_proxy_singleFlight {expectedBrokerId sessionId : Nat} {es : List Event} {w : TokenProxy}
    (h : Runs.Along step OwnEntry { expectedBrokerId, sessionId } es w) : w.SingleFlight :=
  (h.invariant (I := Ok) (fun _ _ _ hown hstep hok => hok.step hown hstep) (.start _ _)).singleFlight

def sampleRequest : ProxyRequest := ⟨7, 5, 2, 128, 1⟩

theorem token_proxy_singleFlight_retryRun :
    ∃ w, Runs.Along step OwnEntry { expectedBrokerId := 1, sessionId := 9 }
        [.call 1 0 sampleRequest, .call 2 1 sampleRequest, .dispatch, .produce, .answer 3 0 0 0, .receive,
          .resume 1 false, .resume 2 false, .call 3 2 sampleRequest, .dispatch, .produce, .answer 0 40 8 5,
          .receive, .resume 3 false] w ∧
      w.calls 3 = some (.returned (7, 1, 5) (some 2) (.ok (40, 8, 5))) ∧ w.SingleFlight := by
  refine Runs.exists_of_exec (fun w : TokenProxy => w.calls 3)
    (some (.returned (7, 1, 5) (some 2) (.ok (40, 8, 5)))) (by decide +kernel) fun w hrun hw => ?_
  exact ⟨hw, token_proxy_singleFlight hrun⟩

/-- The second waiter returns its error late and takes out the entry of the retry: a further retry puts a second request
for the key before the sequencer. -/
theorem token_proxy_doubleFlight :
    ∃ w, Runs.Along step (fun _ _ => True) { expectedBrokerId := 1, sessionId := 9 }
        [.call 1 0 sampleRequest, .call 2 1 sampleRequest, .dispatch, .produce, .answer 3 0 0 0, .receive,
          .resume 1 false, .call 3 2 sampleRequest, .dispatch, .produce, .resume 2 false, .call 4 3 sampleRequest,
          .dispatch, .produce] w ∧ ¬ w.SingleFlight := by
  refine Runs.exists_of_exec (fun w : TokenProxy => w.outstanding.map (·.key))
    ([(7, 1, 5), (7, 1, 5)] : List CacheKey) (by decide +kernel) fun w hrun hw => ?_
  refine fun h => ?_
  have hsingle := h.single
  rw [hw] at hsingle
  exact absurd hsingle (by decide)

end TokenProxy

end Embarcadero.Corfu
