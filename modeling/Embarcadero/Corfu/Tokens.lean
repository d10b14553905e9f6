import Embarcadero.Lib.Locks
import Embarcadero.Lib.Runs
import Embarcadero.Lib.Shares

namespace Embarcadero.Corfu

open Function (update update_apply update_eq_self_iff update_of_ne update_self)
open List
open Locks (Owned)
open Shares (Ledger Apart Cover)

def kMaxBrokers : Nat := 32

structure TokenRequest where
  clientId : Nat
  batchSeq : Nat
  numMsg : Nat
  totalSize : Nat
  brokerId : Int

def clientBrokerKey (clientId brokerId : Nat) : Nat := ((clientId <<< 32) % 2 ^ 64) ||| brokerId

def TokenRequest.broker (r : TokenRequest) : Nat := r.brokerId.toNat

def TokenRequest.key (r : TokenRequest) : Nat := clientBrokerKey r.clientId r.broker

inductive TokenStatus
  | ok (totalOrder logIdx brokerBatchSeq : Nat)
  | invalidArgument
  | alreadyProcessed
  | outOfOrder
  deriving DecidableEq, Repr

inductive Stage
  | validate
  | lockClient
  | lockStream
  | gate
  | fetchOrder
  | fetchIdx (startOrder : Nat)
  | fetchSeq (startOrder logOffset : Nat)
  | finish (startOrder logOffset bbseq : Nat)
  | done (status : TokenStatus)

def Stage.pending? : Stage → Option Nat
  | .fetchIdx o | .fetchSeq o _ | .finish o _ _ => some o
  | _ => none

structure Call where
  request : TokenRequest
  stage : Stage := .validate

structure Grant where
  call : Nat
  request : TokenRequest
  totalOrder : Nat
  logIdx : Nat
  brokerBatchSeq : Nat

structure TokenService where
  nextOrder : Nat := 0
  idxPerBroker : Nat → Nat := fun _ => 0
  batchSeqPerBroker : Nat → Nat := fun _ => 0
  expectedBatchSeq : Nat → Nat := fun _ => 0
  clientMutex : Nat → Option Nat := fun _ => none
  streamMutex : Nat → Option Nat := fun _ => none
  calls : Nat → Option Call := fun _ => none
  orders : List (Nat × Nat) := []
  logs : Nat → List (Nat × Nat) := fun _ => []
  seqs : Nat → List (Nat × Nat) := fun _ => []
  grants : List Grant := []

namespace TokenService

def goto (w : TokenService) (t : Nat) (c : Call) (s : Stage) : TokenService :=
  { w with calls := update w.calls t (some { c with stage := s }) }

def unlock (w : TokenService) (r : TokenRequest) : TokenService :=
  { w with
    clientMutex := update w.clientMutex r.clientId none
    streamMutex := update w.streamMutex r.key none }

def advance (w : TokenService) (t : Nat) (c : Call) : Option TokenService :=
  let r := c.request
  match c.stage with
  | .validate =>
    if r.brokerId < 0 ∨ kMaxBrokers ≤ r.brokerId ∨ r.numMsg = 0 ∨ r.totalSize = 0 then
      some (w.goto t c (.done .invalidArgument))
    else some (w.goto t c .lockClient)
  | .lockClient =>
    if w.clientMutex r.clientId = none then
      some { w.goto t c .lockStream with clientMutex := update w.clientMutex r.clientId (some t) }
    else none
  | .lockStream =>
    if w.streamMutex r.key = none then
      some { w.goto t c .gate with streamMutex := update w.streamMutex r.key (some t) }
    else none
  | .gate =>
    if r.batchSeq < w.expectedBatchSeq r.key then some ((w.goto t c (.done .alreadyProcessed)).unlock r)
    else if r.batchSeq ≠ w.expectedBatchSeq r.key then some ((w.goto t c (.done .outOfOrder)).unlock r)
    else some (w.goto t c .fetchOrder)
  | .fetchOrder => some { w.goto t c (.fetchIdx w.nextOrder) with
      nextOrder := w.nextOrder + r.numMsg
      orders := w.orders ++ [(t, r.numMsg)] }
  | .fetchIdx o => some { w.goto t c (.fetchSeq o (w.idxPerBroker r.broker)) with
      idxPerBroker := update w.idxPerBroker r.broker (w.idxPerBroker r.broker + r.totalSize)
      logs := update w.logs r.broker (w.logs r.broker ++ [(t, r.totalSize)]) }
  | .fetchSeq o i => some { w.goto t c (.finish o i (w.batchSeqPerBroker r.broker)) with
      batchSeqPerBroker := update w.batchSeqPerBroker r.broker (w.batchSeqPerBroker r.broker + 1)
      seqs := update w.seqs r.broker (w.seqs r.broker ++ [(t, 1)]) }
  | .finish o i s => some { (w.goto t c (.done (.ok o i s))).unlock r with
      expectedBatchSeq := update w.expectedBatchSeq r.key (w.expectedBatchSeq r.key + 1)
      grants := w.grants ++ [⟨t, r, o, i, s⟩] }
  | .done _ => none

end TokenService

inductive TokenEvent
  | call (t : Nat) (request : TokenRequest)
  | step (t : Nat)

namespace TokenService

def step (w : TokenService) : TokenEvent → Option TokenService
  | .call t r =>
    if (w.calls t).isNone ∧ r.clientId < 2 ^ 32 then some { w with calls := update w.calls t (some { request := r }) }
    else none
  | .step t => (w.calls t).bind (w.advance t)

def Quiet (w : TokenService) : Prop :=
  ∀ t c, w.calls t = some c → c.stage.pending? = none

def grantsOf (w : TokenService) (b : Nat) : List Grant := w.grants.filter (·.request.broker = b)

def grantsTo (w : TokenService) (c : Nat) : List Grant := w.grants.filter (·.request.clientId = c)

def grantsFor (w : TokenService) (c b : Nat) : List Grant :=
  w.grants.filter fun g => g.request.clientId = c ∧ g.request.broker = b

structure Fifo (w : TokenService) : Prop where
  orders_apart : Apart (w.grants.map fun g => (g.totalOrder, g.request.numMsg))
  orders_cover : w.Quiet → Cover (w.grants.map fun g => (g.totalOrder, g.request.numMsg))
  logs_apart : ∀ b, Apart ((w.grantsOf b).map fun g => (g.logIdx, g.request.totalSize))
  logs_cover : w.Quiet → ∀ b, Cover ((w.grantsOf b).map fun g => (g.logIdx, g.request.totalSize))
  seqs_apart : ∀ b, Apart ((w.grantsOf b).map fun g => (g.brokerBatchSeq, 1))
  seqs_cover : w.Quiet → ∀ b, Cover ((w.grantsOf b).map fun g => (g.brokerBatchSeq, 1))
  stream : ∀ c b, ∃ k, (w.grantsFor c b).map (·.request.batchSeq) = List.range k
  increasing : ∀ c, ((w.grantsTo c).map (·.totalOrder)).Pairwise (· < ·)
  rejected : ∀ t r status, w.calls t = some ⟨r, .done status⟩ → (∀ o i s, status ≠ .ok o i s) →
    (∀ k, w.clientMutex k ≠ some t ∧ w.streamMutex k ≠ some t) ∧ t ∉ w.orders.map (·.1) ∧
      (∀ b, t ∉ (w.logs b).map (·.1) ∧ t ∉ (w.seqs b).map (·.1)) ∧ ∀ g ∈ w.grants, g.call ≠ t
  counted : w.nextOrder = Shares.total w.orders ∧ ∀ b, w.idxPerBroker b = Shares.total (w.logs b) ∧
    w.batchSeqPerBroker b = Shares.total (w.seqs b)

end TokenService

namespace Stage

def order? : Stage → Option Nat
  | .fetchIdx o | .fetchSeq o _ | .finish o _ _ | .done (.ok o _ _) => some o
  | _ => none

def log? : Stage → Option Nat
  | .fetchSeq _ i | .finish _ i _ | .done (.ok _ i _) => some i
  | _ => none

def seq? : Stage → Option Nat
  | .finish _ _ s | .done (.ok _ _ s) => some s
  | _ => none

def checked : Stage → Bool
  | .validate | .done .invalidArgument | .done .alreadyProcessed | .done .outOfOrder => false
  | _ => true

def passed : Stage → Bool
  | .fetchOrder | .fetchIdx _ | .fetchSeq .. | .finish .. => true
  | _ => false

def holdsClient : Stage → Bool
  | .validate | .lockClient | .done _ => false
  | _ => true

def holdsStream : Stage → Bool
  | .validate | .lockClient | .lockStream | .done _ => false
  | _ => true

def idle : Stage → Bool
  | .fetchIdx _ | .fetchSeq .. | .finish .. | .done (.ok ..) => false
  | _ => true

def returned : Stage → Bool
  | .done (.ok ..) => true
  | _ => false

variable {s : Stage}

theorem idle_spec (h : s.idle = true) :
    s.order? = none ∧ s.log? = none ∧ s.seq? = none ∧ s.pending? = none ∧ s.returned = false := by
  rcases s with _ | _ | _ | _ | _ | _ | _ | _ | (_ | _ | _ | _) <;> first | exact ⟨rfl, rfl, rfl, rfl, rfl⟩ | cases h

theorem passed_spec (h : s.passed = true) : s.checked = true ∧ s.holdsClient = true := by
  rcases s with _ | _ | _ | _ | _ | _ | _ | _ | (_ | _ | _ | _) <;> first | exact ⟨rfl, rfl⟩ | cases h

theorem passed_of_pending {o : Nat} (h : s.pending? = some o) : s.passed = true := by
  rcases s with _ | _ | _ | _ | _ | _ | _ | _ | (_ | _ | _ | _) <;> first | rfl | cases h

theorem idle_done {status : TokenStatus} (h : ∀ o i q, status ≠ .ok o i q) : (done status).idle = true := by
  cases status with
  | ok o i q => exact absurd rfl (h o i q)
  | invalidArgument | alreadyProcessed | outOfOrder => rfl

end Stage

namespace Call

def order (c : Call) : Option (Nat × Nat) := c.stage.order?.map (·, c.request.numMsg)

def log (c : Call) : Option (Nat × Nat) := c.stage.log?.map (·, c.request.totalSize)

def seq (c : Call) : Option (Nat × Nat) := c.stage.seq?.map (·, 1)

def atBroker (f : Call → Option (Nat × Nat)) (b : Nat) (c : Call) : Option (Nat × Nat) :=
  if c.request.broker = b then f c else none

def client (c : Call) : Option Nat := if c.stage.holdsClient then some c.request.clientId else none

def stream (c : Call) : Option Nat := if c.stage.holdsStream then some c.request.key else none

variable {c : Call} {e : Nat × Nat}

theorem order_of_log (h : c.log = some e) : c.stage.order?.isSome := by
  rcases c with ⟨_, _ | _ | _ | _ | _ | _ | _ | _ | (_ | _ | _ | _)⟩ <;> first | rfl | cases h

theorem order_of_seq (h : c.seq = some e) : c.stage.order?.isSome := by
  rcases c with ⟨_, _ | _ | _ | _ | _ | _ | _ | _ | (_ | _ | _ | _)⟩ <;> first | rfl | cases h

end Call

namespace TokenService

variable {α : Type*} {w w' : TokenService} {t : Nat} {c : Call} {s : Stage} {e : TokenEvent}

def view (w : TokenService) (f : Call → Option α) (t : Nat) : Option α := (w.calls t).bind f

theorem view_update (w : TokenService) (t : Nat) (c : Call) (f : Call → Option α) :
    view { w with calls := update w.calls t (some c) } f = update (w.view f) t (f c) := by
  funext t'
  rw [view]
  dsimp only
  rw [update_apply, update_apply]
  split <;> rfl

theorem view_update_eq {f : Call → Option α} (hf : w.view f t = f c) :
    view { w with calls := update w.calls t (some c) } f = w.view f := by
  rw [view_update, ← hf, Function.update_eq_self]

theorem view_self {f : Call → Option α} (hcall : w.calls t = some c) : w.view f t = f c := by
  rw [view, hcall]
  rfl

theorem forall_update {Q : Nat → Call → Prop} (hnew : Q t c) (hold : ∀ t' c', t' ≠ t → w.calls t' = some c' → Q t' c') :
    ∀ t' c', update w.calls t (some c) t' = some c' → Q t' c' := by
  intro t' c' h
  rw [update_apply] at h
  split at h
  next heq =>
    cases h
    exact heq ▸ hnew
  next hne => exact hold t' c' hne h

end TokenService

structure TokenRequest.Valid (r : TokenRequest) : Prop where
  brokerId_nonneg : 0 ≤ r.brokerId
  brokerId_lt : r.brokerId < kMaxBrokers
  numMsg_pos : 0 < r.numMsg
  totalSize_pos : 0 < r.totalSize

theorem TokenRequest.Valid.broker_lt {r : TokenRequest} (h : r.Valid) : r.broker < kMaxBrokers := by
  have h₀ := h.brokerId_nonneg
  have h₁ := h.brokerId_lt
  rw [TokenRequest.broker]
  omega

theorem clientBrokerKey_inj {c c' b b' : Nat} (hc : c < 2 ^ 32) (hc' : c' < 2 ^ 32) (hb : b < kMaxBrokers)
    (hb' : b' < kMaxBrokers) (h : clientBrokerKey c b = clientBrokerKey c' b') : c = c' ∧ b = b' := by
  have hpack : ∀ {x y : Nat}, x < 2 ^ 32 → y < kMaxBrokers → clientBrokerKey x y = x * 2 ^ 32 + y := by
    intro x y hx hy
    have hmod : (x <<< 32) % 2 ^ 64 = x <<< 32 := Nat.mod_eq_of_lt (by rw [Nat.shiftLeft_eq]; omega)
    rw [clientBrokerKey, hmod, ← Nat.shiftLeft_add_eq_or_of_lt (Nat.lt_trans hy (by decide)), Nat.shiftLeft_eq]
  rw [hpack hc hb, hpack hc' hb'] at h
  rw [kMaxBrokers] at hb hb'
  omega

namespace TokenService

variable {w w' : TokenService} {t : Nat} {c : Call} {s : Stage} {e : TokenEvent}

structure Ledgers (w : TokenService) : Prop where
  order : Ledger w.orders w.nextOrder (w.view Call.order)
  log : ∀ b, Ledger (w.logs b) (w.idxPerBroker b) (w.view (Call.atBroker Call.log b))
  seq : ∀ b, Ledger (w.seqs b) (w.batchSeqPerBroker b) (w.view (Call.atBroker Call.seq b))

variable {f : Call → Option (Nat × Nat)} {g : Grant} {b i o : Nat} {r : TokenRequest}

theorem ledger_goto {l : List (Nat × Nat)} {v : Nat} (h : Ledger l v (w.view f)) (hcall : w.calls t = some c)
    (hf : f c = f { c with stage := s }) : Ledger l v ((w.goto t c s).view f) :=
  view_update_eq ((view_self hcall).trans hf) ▸ h

theorem Ledgers.set (h : w.Ledgers) (horder : w.view Call.order t = c.order)
    (hlog : ∀ b, w.view (Call.atBroker Call.log b) t = Call.atBroker Call.log b c)
    (hseq : ∀ b, w.view (Call.atBroker Call.seq b) t = Call.atBroker Call.seq b c) :
    Ledgers { w with calls := update w.calls t (some c) } :=
  ⟨view_update_eq horder ▸ h.order, fun b => view_update_eq (hlog b) ▸ h.log b,
    fun b => view_update_eq (hseq b) ▸ h.seq b⟩

theorem view_idle {f : Call → Option α} (ht : ∀ c, w.calls t = some c → c.stage.idle = true)
    (hf : ∀ c : Call, c.stage.idle = true → f c = none) (hc : c.stage.idle = true) : w.view f t = f c := by
  rw [hf c hc, view]
  cases hcall : w.calls t with
  | none => rfl
  | some c' => exact hf c' (ht c' hcall)

theorem Ledgers.idle (h : w.Ledgers) (ht : ∀ c, w.calls t = some c → c.stage.idle = true) (hc : c.stage.idle = true) :
    Ledgers { w with calls := update w.calls t (some c) } := by
  refine h.set (view_idle ht (fun c hc => ?_) hc) (fun b => view_idle ht (fun c hc => ?_) hc)
    fun b => view_idle ht (fun c hc => ?_) hc
  · rw [Call.order, (Stage.idle_spec hc).1]
    rfl
  · rw [Call.atBroker, Call.log, (Stage.idle_spec hc).2.1, Option.map_none, ite_self]
  · rw [Call.atBroker, Call.seq, (Stage.idle_spec hc).2.2.1, Option.map_none, ite_self]

theorem atBroker_fetchAdd {r : Nat → List (Nat × Nat)} {v : Nat → Nat} {n : Nat}
    (h : ∀ b, Ledger (r b) (v b) (w.view (Call.atBroker f b))) (hcall : w.calls t = some c) (hnone : f c = none)
    (hsome : f { c with stage := s } = some (v c.request.broker, n)) (b : Nat) :
    Ledger (update r c.request.broker (r c.request.broker ++ [(t, n)]) b)
      (update v c.request.broker (v c.request.broker + n) b) ((w.goto t c s).view (Call.atBroker f b)) := by
  rw [goto, view_update]
  by_cases hb : b = c.request.broker
  · subst hb
    have huntaken : w.view (Call.atBroker f c.request.broker) t = none := by
      rw [view, hcall, Option.bind_some, Call.atBroker, if_pos rfl, hnone]
    rw [update_self, update_self, Call.atBroker, if_pos rfl, hsome]
    exact (h _).fetchAdd huntaken n
  · have hsame : update (w.view (Call.atBroker f b)) t (Call.atBroker f b { c with stage := s }) =
        w.view (Call.atBroker f b) := by
      refine update_eq_self_iff.mpr ?_
      rw [view, hcall, Option.bind_some, Call.atBroker, Call.atBroker, if_neg (Ne.symm hb), if_neg (Ne.symm hb)]
    rw [update_of_ne hb, update_of_ne hb, hsame]
    exact h b

theorem Ledgers.fetchOrder (h : w.Ledgers) (hcall : w.calls t = some ⟨r, .fetchOrder⟩) :
    Ledgers { w.goto t ⟨r, .fetchOrder⟩ (.fetchIdx w.nextOrder) with
      nextOrder := w.nextOrder + r.numMsg
      orders := w.orders ++ [(t, r.numMsg)] } := by
  have hview := view_update w t ⟨r, .fetchIdx w.nextOrder⟩ Call.order
  exact ⟨hview ▸ h.order.fetchAdd (view_self hcall) r.numMsg, fun b => ledger_goto (h.log b) hcall rfl,
    fun b => ledger_goto (h.seq b) hcall rfl⟩

theorem Ledgers.fetchIdx (h : w.Ledgers) (hcall : w.calls t = some ⟨r, .fetchIdx o⟩) :
    Ledgers { w.goto t ⟨r, .fetchIdx o⟩ (.fetchSeq o (w.idxPerBroker r.broker)) with
      idxPerBroker := update w.idxPerBroker r.broker (w.idxPerBroker r.broker + r.totalSize)
      logs := update w.logs r.broker (w.logs r.broker ++ [(t, r.totalSize)]) } :=
  ⟨ledger_goto h.order hcall rfl, atBroker_fetchAdd h.log hcall rfl rfl, fun b => ledger_goto (h.seq b) hcall rfl⟩

theorem Ledgers.fetchSeq (h : w.Ledgers) (hcall : w.calls t = some ⟨r, .fetchSeq o i⟩) :
    Ledgers { w.goto t ⟨r, .fetchSeq o i⟩ (.finish o i (w.batchSeqPerBroker r.broker)) with
      batchSeqPerBroker := update w.batchSeqPerBroker r.broker (w.batchSeqPerBroker r.broker + 1)
      seqs := update w.seqs r.broker (w.seqs r.broker ++ [(t, 1)]) } :=
  ⟨ledger_goto h.order hcall rfl, fun b => ledger_goto (h.log b) hcall rfl, atBroker_fetchAdd h.seq hcall rfl rfl⟩

structure Tokens (w : TokenService) : Prop where
  clientId : ∀ t c, w.calls t = some c → c.request.clientId < 2 ^ 32
  checked : ∀ t c, w.calls t = some c → c.stage.checked = true → c.request.Valid
  passed : ∀ t c, w.calls t = some c → c.stage.passed = true → c.request.batchSeq = w.expectedBatchSeq c.request.key
  granted : ∀ g ∈ w.grants, w.calls g.call = some ⟨g.request, .done (.ok g.totalOrder g.logIdx g.brokerBatchSeq)⟩
  complete : ∀ t c o i q, w.calls t = some c → c.stage = .done (.ok o i q) → ⟨t, c.request, o, i, q⟩ ∈ w.grants
  nodup : (w.grants.map (·.call)).Nodup
  stream : ∀ c < 2 ^ 32, ∀ b < kMaxBrokers,
    (w.grantsFor c b).map (·.request.batchSeq) = List.range (w.expectedBatchSeq (clientBrokerKey c b))
  increasing : ∀ c, ((w.grantsTo c).map (·.totalOrder)).Pairwise (· < ·)
  pending : ∀ t c o, w.calls t = some c → c.stage.pending? = some o →
    ∀ g ∈ w.grants, g.request.clientId = c.request.clientId → g.totalOrder < o

theorem Tokens.call_ne (h : w.Tokens) (hcall : w.calls t = some c) (hc : c.stage.returned = false) :
    ∀ g ∈ w.grants, g.call ≠ t := by
  rintro g hg rfl
  have hold := h.granted g hg
  rw [hcall] at hold
  cases hold
  cases hc

theorem Tokens.set (h : w.Tokens) (hnew : ∀ g ∈ w.grants, g.call ≠ t) (hclient : c.request.clientId < 2 ^ 32) (hc :
    c.stage.returned = false) (hchecked : c.stage.checked = true → c.request.Valid) (hpassed : c.stage.passed = true →
    c.request.batchSeq = w.expectedBatchSeq c.request.key) (hpending : ∀ o, c.stage.pending? = some o →
      ∀ g ∈ w.grants, g.request.clientId = c.request.clientId → g.totalOrder < o) :
    Tokens { w with calls := update w.calls t (some c) } where
  clientId := forall_update hclient fun t' c' _ => h.clientId t' c'
  checked := forall_update hchecked fun t' c' _ => h.checked t' c'
  passed := forall_update hpassed fun t' c' _ => h.passed t' c'
  granted g hg := (update_of_ne (hnew g hg) ..).trans (h.granted g hg)
  complete t' c' o i q h' := by
    refine forall_update (Q := fun t' c' => c'.stage = .done (.ok o i q) → ⟨t', c'.request, o, i, q⟩ ∈ w.grants)
      (fun hdone => ?_) (fun t' c' _ => h.complete t' c' o i q) t' c' h'
    rw [hdone] at hc
    cases hc
  nodup := h.nodup
  stream := h.stream
  increasing := h.increasing
  pending t' c' o h' := forall_update (Q := fun _ c' => c'.stage.pending? = some o → ∀ g ∈ w.grants, g.request.clientId
    = c'.request.clientId → g.totalOrder < o) (hpending o) (fun t' c' _ => h.pending t' c' o) t' c' h'

theorem filter_concat {γ : Type*} (p : γ → Bool) (l : List γ) (g : γ) :
    (l ++ [g]).filter p = if p g then l.filter p ++ [g] else l.filter p := by
  rw [filter_append, filter_cons, filter_nil]
  split
  · rfl
  · exact append_nil _

theorem Tokens.finish (h : w.Tokens) {q : Nat} (hcall : w.calls t = some ⟨r, .finish o i q⟩)
    (hexclusive : ∀ t' c', w.calls t' = some c' → c'.stage.passed = true → c'.request.clientId = r.clientId → t' = t) :
    Tokens { w.goto t ⟨r, .finish o i q⟩ (.done (.ok o i q)) with
      expectedBatchSeq := update w.expectedBatchSeq r.key (w.expectedBatchSeq r.key + 1)
      grants := w.grants ++ [⟨t, r, o, i, q⟩] } := by
  have hvalid : r.Valid := h.checked t _ hcall rfl
  have hclient : r.clientId < 2 ^ 32 := h.clientId t _ hcall
  have hseq : r.batchSeq = w.expectedBatchSeq r.key := h.passed t _ hcall rfl
  have hne := h.call_ne hcall rfl
  have hbelow : ∀ g ∈ w.grants, g.request.clientId = r.clientId → g.totalOrder < o := h.pending t _ o hcall rfl
  refine ⟨forall_update hclient fun t' c' _ => h.clientId t' c', forall_update (fun _ => hvalid) fun t' c' _ =>
    h.checked t' c', forall_update nofun fun t' c' hne' hold hp => ?_, fun g hg => ?_,
    fun t' c' o' i' q' h' => ?_, ?_, fun c' hc' b hb => ?_, fun c' => ?_, fun t' c' o' h' => ?_⟩
  · dsimp only
    rw [update_of_ne]
    · exact h.passed t' c' hold hp
    · intro hkey
      have hvalid' := h.checked t' c' hold (Stage.passed_spec hp).1
      have hsame := clientBrokerKey_inj (h.clientId t' c' hold) hclient hvalid'.broker_lt hvalid.broker_lt hkey
      exact hne' (hexclusive t' c' hold hp hsame.1)
  · dsimp only [goto]
    cases mem_append.mp hg with
    | inl hold =>
      rw [update_of_ne (hne g hold)]
      exact h.granted g hold
    | inr hnew =>
      obtain rfl := mem_singleton.mp hnew
      exact update_self ..
  · refine forall_update (Q := fun t' c' => c'.stage = .done (.ok o' i' q') → Grant.mk t' c'.request o' i' q' ∈
      w.grants ++ [⟨t, r, o, i, q⟩])
      (fun hdone => ?_) (fun t' c' _ hold hdone => mem_append_left _ (h.complete t' c' o' i' q' hold hdone)) t' c' h'
    cases hdone
    exact mem_append_right _ mem_cons_self
  · rw [map_append, nodup_append]
    refine ⟨h.nodup, nodup_singleton _, fun a ha b hb heq => ?_⟩
    obtain ⟨g, hg, rfl⟩ := mem_map.mp ha
    exact hne g hg (heq.trans (mem_singleton.mp hb))
  · rw [grantsFor, filter_concat]
    dsimp only
    split
    next hown =>
      obtain ⟨rfl, rfl⟩ := of_decide_eq_true hown
      have hkey : clientBrokerKey r.clientId r.broker = r.key := rfl
      have hold := h.stream r.clientId hc' r.broker hb
      rw [grantsFor, hkey, ← hseq] at hold
      rw [hkey, update_self, ← hseq, range_succ, map_append, hold]
      rfl
    next hother =>
      have hkey : clientBrokerKey c' b ≠ r.key := fun heq => hother
        (decide_eq_true (clientBrokerKey_inj hclient hc' hvalid.broker_lt hb heq.symm))
      rw [update_of_ne hkey]
      exact h.stream c' hc' b hb
  · rw [grantsTo, filter_concat]
    split
    next hown =>
      rw [map_append, pairwise_append]
      refine ⟨h.increasing c', pairwise_singleton _ _, fun a ha b hb => ?_⟩
      obtain ⟨g, hg, rfl⟩ := mem_map.mp ha
      obtain rfl := mem_singleton.mp hb
      obtain ⟨hg, hgc⟩ := mem_filter.mp hg
      exact hbelow g hg ((of_decide_eq_true hgc).trans (of_decide_eq_true hown).symm)
    next => exact h.increasing c'
  · refine forall_update (Q := fun _ c' => c'.stage.pending? = some o' → ∀ g ∈ w.grants ++ [⟨t, r, o, i, q⟩],
      g.request.clientId = c'.request.clientId → g.totalOrder < o') nofun
        (fun t' c' hne' hold hp g hg heq => ?_) t' c' h'
    cases mem_append.mp hg with
    | inl hgold => exact h.pending t' c' o' hold hp g hgold heq
    | inr hnew =>
      obtain rfl := mem_singleton.mp hnew
      exact absurd (hexclusive t' c' hold (Stage.passed_of_pending hp) heq.symm) hne'

structure Ok (w : TokenService) : Prop where
  ledgers : w.Ledgers
  tokens : w.Tokens
  client : Owned w.clientMutex (w.view Call.client)
  stream : Owned w.streamMutex (w.view Call.stream)

theorem ok_empty : ({} : TokenService).Ok where
  ledgers := ⟨.empty, fun _ => .empty, fun _ => .empty⟩
  tokens :=
    { clientId := fun _ _ h => nomatch h
      checked := fun _ _ h => nomatch h
      passed := fun _ _ h => nomatch h
      granted := nofun
      complete := fun _ _ _ _ _ h => nomatch h
      nodup := .nil
      stream := fun _ _ _ _ => rfl
      increasing := fun _ => .nil
      pending := fun _ _ _ h => nomatch h }
  client _ _ := ⟨nofun, nofun⟩
  stream _ _ := ⟨nofun, nofun⟩

theorem Ok.call (h : w.Ok) (hcall : w.calls t = none) (hr : r.clientId < 2 ^ 32) :
    Ok { w with calls := update w.calls t (some { request := r }) } := by
  have hidle : ∀ c, w.calls t = some c → c.stage.idle = true := fun c hc => by
    rw [hcall] at hc
    cases hc
  refine ⟨h.ledgers.idle hidle rfl, h.tokens.set ?_ hr rfl nofun nofun nofun, ?_, ?_⟩
  · rintro g hg rfl
    rw [h.tokens.granted g hg] at hcall
    cases hcall
  · exact view_update_eq (f := Call.client) (c := { request := r }) (by rw [view, hcall]; rfl) ▸ h.client
  · exact view_update_eq (f := Call.stream) (c := { request := r }) (by rw [view, hcall]; rfl) ▸ h.stream

theorem Ok.exclusive (h : w.Ok) {t' : Nat} {c' : Call} (hcall : w.calls t = some c) (hcall' : w.calls t' = some c')
    (hc : c.stage.passed = true) (hc' : c'.stage.passed = true) (heq : c'.request.clientId = c.request.clientId) :
    t' = t := by
  refine h.client.unique (k := c.request.clientId) ?_ ?_
  · rw [view_self hcall', Call.client, (Stage.passed_spec hc').2, heq]
    rfl
  · rw [view_self hcall, Call.client, (Stage.passed_spec hc).2]
    rfl

theorem Ok.move (h : w.Ok) (hcall : w.calls t = some c) (hc : c.stage.idle = true) (hs : s.idle = true)
    (hchecked : s.checked = true → c.request.Valid)
    (hpassed : s.passed = true → c.request.batchSeq = w.expectedBatchSeq c.request.key) :
    (w.goto t c s).Ledgers ∧ (w.goto t c s).Tokens := by
  obtain ⟨-, -, -, hpending, hreturned⟩ := Stage.idle_spec hs
  refine ⟨h.ledgers.idle (fun c' hc' => ?_) hs, h.tokens.set (h.tokens.call_ne hcall (Stage.idle_spec hc).2.2.2.2)
    (h.tokens.clientId t c hcall) hreturned hchecked hpassed fun o ho => ?_⟩
  · cases hcall.symm.trans hc'
    exact hc
  · cases hpending.symm.trans ho

theorem owned_goto {m : Nat → Option Nat} {f : Call → Option Nat} (h : Owned m (w.view f)) (hcall : w.calls t = some c)
    (hf : f c = f { c with stage := s }) : Owned m ((w.goto t c s).view f) :=
  view_update_eq ((view_self hcall).trans hf) ▸ h

theorem Ok.goto (h : w.Ok) (hcall : w.calls t = some c) (hc : c.stage.idle = true) (hs : s.idle = true)
    (hchecked : s.checked = true → c.request.Valid)
    (hpassed : s.passed = true → c.request.batchSeq = w.expectedBatchSeq c.request.key)
    (hclient : c.client = Call.client { c with stage := s }) (hstream : c.stream = Call.stream { c with stage := s }) :
    (w.goto t c s).Ok :=
  have hmove := h.move hcall hc hs hchecked hpassed
  ⟨hmove.1, hmove.2, owned_goto h.client hcall hclient, owned_goto h.stream hcall hstream⟩

theorem owned_unlock (h : w.Ok) (hcall : w.calls t = some c) (hclient : c.client = some c.request.clientId)
    (hstream : c.stream = some c.request.key) (status : TokenStatus) :
    Owned (update w.clientMutex c.request.clientId none) ((w.goto t c (.done status)).view Call.client) ∧
      Owned (update w.streamMutex c.request.key none) ((w.goto t c (.done status)).view Call.stream) := by
  rw [TokenService.goto, view_update, view_update]
  exact ⟨h.client.release ((view_self hcall).trans hclient), h.stream.release ((view_self hcall).trans hstream)⟩

theorem Ok.reject (h : w.Ok) (hcall : w.calls t = some ⟨r, .gate⟩) {status : TokenStatus}
    (hstatus : ∀ o i q, status ≠ .ok o i q) : Ok ((w.goto t ⟨r, .gate⟩ (.done status)).unlock r) := by
  obtain ⟨hledgers, htokens⟩ := h.move hcall rfl (Stage.idle_done hstatus)
    (fun _ => h.tokens.checked t _ hcall rfl) nofun
  obtain ⟨hclient, hstream⟩ := owned_unlock h hcall rfl rfl status
  exact ⟨{ hledgers with }, { htokens with }, hclient, hstream⟩

theorem Ok.fetch (h : w.Ok) (hcall : w.calls t = some c) (hc : c.stage.passed = true) (hs : s.passed = true)
    (hreturned : c.stage.returned = false ∧ s.returned = false)
    (hpending : ∀ o, s.pending? = some o → ∀ g ∈ w.grants, g.request.clientId = c.request.clientId → g.totalOrder < o)
    (hstream : c.stream = Call.stream { c with stage := s }) : (w.goto t c s).Tokens ∧
      Owned w.clientMutex ((w.goto t c s).view Call.client) ∧
        Owned w.streamMutex ((w.goto t c s).view Call.stream) := by
  refine ⟨h.tokens.set (h.tokens.call_ne hcall hreturned.1) (h.tokens.clientId t c hcall) hreturned.2
    (fun _ => h.tokens.checked t c hcall (Stage.passed_spec hc).1) (fun _ => h.tokens.passed t c hcall hc) hpending,
    owned_goto h.client hcall ?_, owned_goto h.stream hcall hstream⟩
  rw [Call.client, Call.client, (Stage.passed_spec hc).2, (Stage.passed_spec hs).2]

theorem Ok.advance (h : w.Ok) (hcall : w.calls t = some c) (hstep : w.advance t c = some w') : w'.Ok := by
  obtain ⟨r, stage⟩ := c
  cases stage with
  | validate =>
    rw [TokenService.advance] at hstep
    dsimp only at hstep
    split at hstep
    next =>
      cases hstep
      exact h.goto hcall rfl rfl nofun nofun rfl rfl
    next hvalid =>
      cases hstep
      have hvalid : r.Valid := ⟨by omega, by omega, by omega, by omega⟩
      exact h.goto hcall rfl rfl (fun _ => hvalid) nofun rfl rfl
  | lockClient =>
    obtain ⟨hfree, rfl⟩ := Runs.of_guard hstep
    obtain ⟨hledgers, htokens⟩ := h.move (s := .lockStream) hcall rfl rfl
      (fun _ => h.tokens.checked t _ hcall rfl) nofun
    have hview := view_update w t ⟨r, .lockStream⟩ Call.client
    exact ⟨{ hledgers with }, { htokens with }, hview ▸ h.client.acquire hfree (view_self hcall),
      owned_goto h.stream hcall rfl⟩
  | lockStream =>
    obtain ⟨hfree, rfl⟩ := Runs.of_guard hstep
    obtain ⟨hledgers, htokens⟩ := h.move (s := .gate) hcall rfl rfl (fun _ => h.tokens.checked t _ hcall rfl) nofun
    have hview := view_update w t ⟨r, .gate⟩ Call.stream
    exact ⟨{ hledgers with }, { htokens with }, owned_goto h.client hcall rfl,
      hview ▸ h.stream.acquire hfree (view_self hcall)⟩
  | gate =>
    rw [TokenService.advance] at hstep
    dsimp only at hstep
    split at hstep
    · cases hstep
      exact h.reject hcall nofun
    split at hstep
    · cases hstep
      exact h.reject hcall nofun
    next hexpected =>
      cases hstep
      exact h.goto hcall rfl rfl (fun _ => h.tokens.checked t _ hcall rfl)
        (fun _ => Decidable.not_not.mp hexpected) rfl rfl
  | fetchOrder =>
    cases hstep
    obtain ⟨htokens, hclient, hstream⟩ := h.fetch (s := .fetchIdx w.nextOrder) hcall rfl rfl ⟨rfl, rfl⟩
      (fun o ho g hg _ => by
        cases ho
        have hg := h.tokens.granted g hg
        exact h.ledgers.order.lt_of_taken (view_self hg) (h.tokens.checked _ _ hg rfl).numMsg_pos) rfl
    exact ⟨h.ledgers.fetchOrder hcall, { htokens with }, hclient, hstream⟩
  | fetchIdx o =>
    cases hstep
    obtain ⟨htokens, hclient, hstream⟩ := h.fetch (s := .fetchSeq o (w.idxPerBroker r.broker)) hcall rfl rfl
      ⟨rfl, rfl⟩ (fun o' => h.tokens.pending t _ o' hcall) rfl
    exact ⟨h.ledgers.fetchIdx hcall, { htokens with }, hclient, hstream⟩
  | fetchSeq o i =>
    cases hstep
    obtain ⟨htokens, hclient, hstream⟩ := h.fetch (s := .finish o i (w.batchSeqPerBroker r.broker)) hcall rfl rfl
      ⟨rfl, rfl⟩ (fun o' => h.tokens.pending t _ o' hcall) rfl
    exact ⟨h.ledgers.fetchSeq hcall, { htokens with }, hclient, hstream⟩
  | finish o i q =>
    cases hstep
    have hsame : ∀ {f : Call → Option (Nat × Nat)}, f ⟨r, .finish o i q⟩ = f ⟨r, .done (.ok o i q)⟩ →
        w.view f t = f ⟨r, .done (.ok o i q)⟩ := (view_self hcall).trans
    have hledgers := h.ledgers.set (hsame rfl) (fun b => hsame rfl) fun b => hsame rfl
    have htokens := h.tokens.finish hcall fun t' c' hcall' hc' heq => h.exclusive hcall hcall' rfl hc' heq
    obtain ⟨hclient, hstream⟩ := owned_unlock h hcall rfl rfl (.ok o i q)
    exact ⟨{ hledgers with }, { htokens with }, hclient, hstream⟩
  | done status => cases hstep

theorem Ok.step (h : w.Ok) (hstep : w.step e = some w') : w'.Ok := by
  cases e with
  | call t r =>
    obtain ⟨hok, rfl⟩ := Runs.of_guard hstep
    exact h.call (Option.isNone_iff_eq_none.mp hok.1) hok.2
  | step t =>
    obtain ⟨c, hcall, hadvance⟩ := Option.bind_eq_some_iff.mp hstep
    exact h.advance hcall hadvance

theorem Ok.view_grant (h : w.Ok) (hg : g ∈ w.grants) (f : Call → Option α) :
    w.view f g.call = f ⟨g.request, .done (.ok g.totalOrder g.logIdx g.brokerBatchSeq)⟩ :=
  view_self (h.tokens.granted g hg)

theorem Ok.grant_of_order (h : w.Ok) (hquiet : w.Quiet) (hcall : w.calls t = some c) (hc : c.stage.order?.isSome) :
    ∃ o i q, ⟨t, c.request, o, i, q⟩ ∈ w.grants := by
  have hpending := hquiet t c hcall
  cases hstage : c.stage with
  | done status =>
    rw [hstage] at hc
    cases status with
    | ok o i q => exact ⟨o, i, q, h.tokens.complete t c o i q hcall hstage⟩
    | invalidArgument => cases hc
    | alreadyProcessed => cases hc
    | outOfOrder => cases hc
  | validate | lockClient | lockStream | gate | fetchOrder =>
    rw [hstage] at hc
    cases hc
  | fetchIdx | fetchSeq | finish =>
    rw [hstage] at hpending
    cases hpending

theorem nodup_grantsOf (h : w.Ok) (b : Nat) : ((w.grantsOf b).map (·.call)).Nodup :=
  h.tokens.nodup.sublist (filter_sublist.map _)

theorem Ok.grant_atBroker (h : w.Ok) (hquiet : w.Quiet) (hf : ∀ c e, f c = some e → c.stage.order?.isSome) {t : Nat}
    {e : Nat × Nat} (ht : w.view (Call.atBroker f b) t = some e) : ∃ g ∈ w.grantsOf b, g.call = t := by
  obtain ⟨c, hcall, hc⟩ := Option.bind_eq_some_iff.mp ht
  rw [Call.atBroker] at hc
  split at hc
  next hb =>
    obtain ⟨o, i, q, hg⟩ := h.grant_of_order hquiet hcall (hf c e hc)
    exact ⟨_, mem_filter.mpr ⟨hg, decide_eq_true hb⟩, rfl⟩
  · cases hc

theorem Ok.view_grantsOf (h : w.Ok) (hg : g ∈ w.grantsOf b) (f : Call → Option (Nat × Nat)) :
    w.view (Call.atBroker f b) g.call = f ⟨g.request, .done (.ok g.totalOrder g.logIdx g.brokerBatchSeq)⟩ := by
  obtain ⟨hmem, hb⟩ := mem_filter.mp hg
  rw [h.view_grant hmem, Call.atBroker, if_pos (of_decide_eq_true hb)]

theorem Ok.rejected (h : w.Ok) {status : TokenStatus} (hcall : w.calls t = some ⟨r, .done status⟩)
    (hstatus : ∀ o i q, status ≠ .ok o i q) :
    (∀ k, w.clientMutex k ≠ some t ∧ w.streamMutex k ≠ some t) ∧ t ∉ w.orders.map (·.1) ∧
      (∀ b, t ∉ (w.logs b).map (·.1) ∧ t ∉ (w.seqs b).map (·.1)) ∧ ∀ g ∈ w.grants, g.call ≠ t := by
  obtain ⟨horder, hlog, hseq, -, hreturned⟩ := Stage.idle_spec (Stage.idle_done hstatus)
  have hbroker : ∀ b (f : Call → Option (Nat × Nat)), f ⟨r, .done status⟩ = none →
      w.view (Call.atBroker f b) t = none := by
    intro b f hf
    rw [view_self hcall, Call.atBroker, hf, ite_self]
  refine ⟨fun k => ⟨fun hk => ?_, fun hk => ?_⟩, h.ledgers.order.untaken t ?_, fun b => ⟨?_, ?_⟩,
    h.tokens.call_ne hcall hreturned⟩
  · have hheld := (h.client k t).mp hk
    rw [view_self hcall] at hheld
    cases hheld
  · have hheld := (h.stream k t).mp hk
    rw [view_self hcall] at hheld
    cases hheld
  · rw [view_self hcall, Call.order, horder]
    rfl
  · refine (h.ledgers.log b).untaken t (hbroker b _ ?_)
    rw [Call.log, hlog]
    rfl
  · refine (h.ledgers.seq b).untaken t (hbroker b _ ?_)
    rw [Call.seq, hseq]
    rfl

theorem Ok.fifo (h : w.Ok) : w.Fifo where
  orders_apart := h.ledgers.order.apart h.tokens.nodup fun g hg => h.view_grant hg _
  orders_cover hquiet := h.ledgers.order.cover h.tokens.nodup (fun g hg => h.view_grant hg _) fun t e ht => by
    obtain ⟨c, hcall, hc⟩ := Option.bind_eq_some_iff.mp ht
    obtain ⟨o, ho, -⟩ := Option.map_eq_some_iff.mp hc
    obtain ⟨o', i, q, hg⟩ := h.grant_of_order hquiet hcall (ho ▸ rfl)
    exact ⟨_, hg, rfl⟩
  logs_apart b := (h.ledgers.log b).apart (nodup_grantsOf h b) fun g hg => h.view_grantsOf hg _
  logs_cover hquiet b := (h.ledgers.log b).cover (nodup_grantsOf h b) (fun g hg => h.view_grantsOf hg _) fun _ _ =>
    h.grant_atBroker hquiet fun _ _ => Call.order_of_log
  seqs_apart b := (h.ledgers.seq b).apart (nodup_grantsOf h b) fun g hg => h.view_grantsOf hg _
  seqs_cover hquiet b := (h.ledgers.seq b).cover (nodup_grantsOf h b) (fun g hg => h.view_grantsOf hg _) fun _ _ =>
    h.grant_atBroker hquiet fun _ _ => Call.order_of_seq
  stream c b := by
    by_cases hbound : c < 2 ^ 32 ∧ b < kMaxBrokers
    · exact ⟨_, h.tokens.stream c hbound.1 b hbound.2⟩
    · have hnone : w.grantsFor c b = [] := by
        refine filter_eq_nil_iff.mpr fun g hg hown => hbound ?_
        obtain ⟨rfl, rfl⟩ := of_decide_eq_true hown
        have hcall := h.tokens.granted g hg
        exact ⟨h.tokens.clientId _ _ hcall, (h.tokens.checked _ _ hcall rfl).broker_lt⟩
      rw [hnone]
      exact ⟨0, rfl⟩
  increasing := h.tokens.increasing
  rejected _ _ _ hcall hstatus := h.rejected hcall hstatus
  counted := ⟨h.ledgers.order.value, fun b => ⟨(h.ledgers.log b).value, (h.ledgers.seq b).value⟩⟩

end TokenService

theorem corfu_tokens_fifo {es : List TokenEvent} {w : TokenService}
    (h : Runs.Along TokenService.step (fun _ _ => True) {} es w) : w.Fifo :=
  (h.invariant (fun _ _ _ _ hstep hok => TokenService.Ok.step hok hstep) TokenService.ok_empty).fifo

def overtakingRun : List TokenEvent :=
  [.call 0 ⟨7, 0, 5, 640, 3⟩, .call 1 ⟨8, 0, 2, 128, 3⟩, .call 2 ⟨7, 2, 1, 64, 3⟩] ++
    [0, 0, 0, 0, 0, 1, 1, 1, 1, 1, 1, 1, 1, 0, 0, 0, 2, 2, 2, 2].map .step

theorem corfu_tokens_fifo_overtakingRun : ∃ w,
    Runs.Along TokenService.step (fun _ _ => True) {} overtakingRun w ∧ w.Fifo ∧
      w.grants.map (fun g => (g.totalOrder, g.logIdx, g.brokerBatchSeq)) = [(5, 0, 0), (0, 128, 1)] ∧
      (w.calls 2).map (fun c => c.stage matches .done .outOfOrder) = some true := by
  refine Runs.exists_of_exec (fun w : TokenService =>
    (w.grants.map fun g => (g.totalOrder, g.logIdx, g.brokerBatchSeq),
      (w.calls 2).map fun c => c.stage matches .done .outOfOrder))
    ([(5, 0, 0), (0, 128, 1)], some true) (by decide +kernel) fun w hw hend => ?_
  exact ⟨corfu_tokens_fifo hw, (Prod.mk.inj hend).1, (Prod.mk.inj hend).2⟩

end Embarcadero.Corfu
