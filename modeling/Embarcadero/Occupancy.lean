import Embarcadero.Custody
import Embarcadero.Lib.Window

namespace Embarcadero

open Function (update update_apply)
open List

abbrev Position := Nat × Nat

def PendingBatch5.position (p : PendingBatch5) : Position := (p.brokerId, p.cachedPbrAbsoluteIndex)

def Order5SlotIdentity.position (s : Order5SlotIdentity) : Position := (s.brokerId, s.pbrIndex)

def readyPositions (ready : List PendingBatch5) : List Position :=
  (ready.filter (!·.isHeldMarker)).map (·.position)

@[simp] theorem position_released (he : HoldEntry5) : he.released.position = he.batch.position := rfl

@[simp] theorem position_slotIdentity (p : PendingBatch5) : p.slotIdentity.position = p.position := rfl

theorem readyPositions_append (l l' : List PendingBatch5) :
    readyPositions (l ++ l') = readyPositions l ++ readyPositions l' := by
  rw [readyPositions, filter_append, map_append]
  rfl

section

-- the session and the sequence number a position was reserved for
variable (owner : Position → SessionKey × Nat)

def Level5ShardState.waiting (sh : Level5ShardState) (x : Position) : Nat :=
  ((sh.holdBuffer (owner x).1).map (·.2.batch.position)).count x + (sh.deferredLevel5.map (·.position)).count x

def Level5ShardState.keeps (sh : Level5ShardState) (x : Position) : Nat :=
  sh.waiting owner x + (sh.backpressuredLevel5Slots.map (·.position)).count x

namespace Shelf

def uses (v : Shelf) (x : Position) : Nat :=
  (v.pending.map (·.position)).count x + ((v.held (owner x).1).map (·.2.batch.position)).count x +
    (v.deferred.map (·.position)).count x + (v.backpressured.map (·.position)).count x +
    (readyPositions v.ready).count x

structure Entries (k : SessionKey) (entries : List (Nat × HoldEntry5)) : Prop where
  keyed : ∀ e ∈ entries, e.2.batch.key = k ∧ e.2.batch.batchSeq = e.1
  nodup : (entries.map Prod.fst).Nodup

structure Filed (B S : PendingBatch5 → Prop) (v : Shelf) : Prop extends v.From S where
  entries : ∀ k, Entries k (v.held k)
  blocked : ∀ s ∈ v.backpressured, ∃ p, B p ∧ p.slotIdentity = s

end Shelf

end

variable {P : Platform} {owner : Position → SessionKey × Nat} {B S : PendingBatch5 → Prop}
  {v w : Shelf} {x : Position}

theorem count_map_pos {α : Type} {l : List α} {f : α → Position} : 0 < (l.map f).count x ↔ ∃ a ∈ l, f a = x :=
  count_pos_iff.trans mem_map

theorem count_filter_lookup {entries : List (Nat × HoldEntry5)} {seq : Nat} {he : HoldEntry5}
    (h : entries.lookup seq = some he) (x : Position) :
    ((entries.filter (·.1 ≠ seq)).map (·.2.batch.position)).count x + [he.batch.position].count x ≤
      (entries.map (·.2.batch.position)).count x := by
  obtain ⟨l₁, l₂, rfl, -⟩ := lookup_eq_some_iff.mp h
  have hsub : (List.filter (·.1 ≠ seq) (l₁ ++ (seq, he) :: l₂)).Sublist (l₁ ++ l₂) := by
    rw [filter_append, filter_cons_of_neg (by simp)]
    exact filter_sublist.append filter_sublist
  have hle := (hsub.map (·.2.batch.position)).count_le x
  rw [map_append, count_append] at hle
  rw [map_append, map_cons, count_append]
  simp only [count_cons, count_nil]
  omega

namespace Shelf

variable {k : SessionKey} {seq : Nat} {he : HoldEntry5}

theorem Filed.owner_held (h : v.Filed B S) (hS : ∀ p, S p → owner p.position = (p.key, p.batchSeq))
    {e : Nat × HoldEntry5} (he : e ∈ v.held k) : owner e.2.batch.position = (k, e.1) := by
  rw [hS _ (h.held k e he).1, ((h.entries k).keyed e he).1, ((h.entries k).keyed e he).2]

theorem count_update (entries : List (Nat × HoldEntry5)) (x : Position) :
    ((update v.held k entries (owner x).1).map (·.2.batch.position)).count x =
      if (owner x).1 = k then (entries.map (·.2.batch.position)).count x
      else ((v.held (owner x).1).map (·.2.batch.position)).count x := by
  rw [update_apply]
  split
  · rfl
  · rfl

theorem Filed.count_unhold (h : v.Filed B S) (hS : ∀ p, S p → owner p.position = (p.key, p.batchSeq))
    (hhe : (v.held k).lookup seq = some he) (x : Position) :
    ((update v.held k ((v.held k).filter (·.1 ≠ seq)) (owner x).1).map
        (·.2.batch.position)).count x + [he.batch.position].count x ≤
      ((v.held (owner x).1).map (·.2.batch.position)).count x := by
  have howner := h.owner_held hS (Assoc.mem_of_lookup hhe)
  rw [count_update]
  split
  next hx =>
    rw [hx]
    exact count_filter_lookup hhe x
  next hx =>
    have hne : he.batch.position ≠ x := fun heq => hx (by rw [← heq, howner])
    rw [count_singleton, if_neg (by simpa using hne)]
    exact Nat.le_refl _

variable {entries : List (Nat × HoldEntry5)} {p : PendingBatch5}

theorem count_insertHeld (hp : owner p.position = (p.key, p.batchSeq)) (nowNs : Nat) (x : Position) :
    ((update v.held p.key (Pass.insertHeld p.batchSeq ⟨p, p.cachedMeta, nowNs⟩ (v.held p.key))
        (owner x).1).map (·.2.batch.position)).count x =
      ((v.held (owner x).1).map (·.2.batch.position)).count x + [p.position].count x := by
  have hperm := ((perm_insertHeld p.batchSeq ⟨p, p.cachedMeta, nowNs⟩ (v.held p.key)).map
    (·.2.batch.position)).count_eq x
  rw [count_update]
  split
  next hx => rw [hperm, hx, map_cons, count_cons, count_singleton]
  next hx =>
    have hne : p.position ≠ x := fun heq => hx (by rw [← heq, hp])
    rw [count_singleton, if_neg (by simpa using hne)]
    rfl

theorem Filed.count_purge (h : v.Filed B S) (hS : ∀ p, S p → owner p.position = (p.key, p.batchSeq))
    {retired : List HoldEntry5} (hr : retired = [] ∨ retired.Perm ((v.held k).map Prod.snd)) (x : Position) :
    ((update v.held k [] (owner x).1).map (·.2.batch.position)).count x + (retired.map (·.batch.position)).count x ≤
      ((v.held (owner x).1).map (·.2.batch.position)).count x := by
  have hcount : (retired.map (·.batch.position)).count x ≤ ((v.held k).map (·.2.batch.position)).count x := by
    cases hr with
    | inl hnil =>
      rw [hnil]
      exact Nat.zero_le _
    | inr hperm =>
      rw [(hperm.map (·.batch.position)).count_eq, map_map]
      exact Nat.le_refl _
  rw [count_update]
  split
  next hx =>
    rw [hx]
    exact (Nat.zero_add _).trans_le hcount
  next hx =>
    have hzero : ((v.held k).map (·.2.batch.position)).count x = 0 := by
      apply count_eq_zero.mpr
      intro hmem
      obtain ⟨e, he, heq⟩ := mem_map.mp hmem
      exact hx (by rw [← heq, h.owner_held hS he])
    omega

theorem Filed.retires (h : v.Filed B S) (hS : ∀ p, S p → owner p.position = (p.key, p.batchSeq)) (hm : Move P v w) :
    ∃ retired : List HoldEntry5, w.cxl = retired.foldl (CxlMemory.retireHeld P.slots) v.cxl ∧
      (∀ he ∈ retired, S he.batch ∧ he.holdMeta = he.batch.cachedMeta) ∧
      ∀ x, w.uses owner x + (retired.map (·.batch.position)).count x ≤ v.uses owner x := by
  cases hm with
  | reorder hl =>
    refine ⟨[], rfl, nofun, fun x => ?_⟩
    have := (hl.map (·.position)).count_eq x
    simp only [uses, map_nil, count_nil]
    omega
  | drop hp =>
    refine ⟨[], rfl, nofun, fun x => ?_⟩
    simp only [uses, hp, map_nil, count_nil, map_cons, count_cons]
    omega
  | @emit p rest hp =>
    refine ⟨[], rfl, nofun, fun x => ?_⟩
    have : (readyPositions [p]).count x ≤ [p.position].count x := by
      rw [readyPositions]
      exact (filter_sublist.map _).count_le x
    simp only [uses, hp, map_nil, count_nil, map_cons, count_cons, readyPositions_append, count_append] at this ⊢
    omega
  | @hold p rest nowNs hp hnew =>
    refine ⟨[], rfl, nofun, fun x => ?_⟩
    have := count_insertHeld (v := v) (hS p (h.head hp)) nowNs x
    have hmark : readyPositions [Pass.heldMarker p] = [] := rfl
    simp only [uses, hp, map_nil, count_nil, map_cons, count_cons,
      readyPositions_append, count_append, hmark] at this ⊢
    omega
  | @defer p rest hp =>
    refine ⟨[], rfl, nofun, fun x => ?_⟩
    simp only [uses, hp, map_nil, count_nil, map_cons, count_cons, map_append, count_append]
    omega
  | @block p rest hp =>
    refine ⟨[], rfl, nofun, fun x => ?_⟩
    simp only [uses, hp, map_nil, count_nil, map_cons, count_cons, map_append, count_append, position_slotIdentity]
    omega
  | @release k seq he hhe =>
    refine ⟨[], rfl, nofun, fun x => ?_⟩
    have := h.count_unhold hS hhe x
    have hone : (readyPositions [he.released]).count x ≤ [he.batch.position].count x := by
      rw [readyPositions]
      exact (filter_sublist.map _).count_le x
    simp only [uses, map_nil, count_nil, readyPositions_append, count_append]
    omega
  | @discard k seq he hhe =>
    refine ⟨[], rfl, nofun, fun x => ?_⟩
    have := h.count_unhold hS hhe x
    simp only [uses, map_nil, count_nil]
    omega
  | @retire k seq he hhe =>
    refine ⟨[he], rfl, fun e hmem => ?_, fun x => ?_⟩
    · rw [mem_singleton.mp hmem]
      exact h.held k _ (Assoc.mem_of_lookup hhe)
    · have := h.count_unhold hS hhe x
      simp only [uses, map_cons, map_nil]
      omega
  | @purge k retired hr =>
    refine ⟨retired, rfl, fun he hmem => ?_, fun x => ?_⟩
    · cases hr with
      | inl hnil =>
        rw [hnil] at hmem
        cases hmem
      | inr hperm =>
        obtain ⟨e, he', rfl⟩ := mem_map.mp (hperm.mem_iff.mp hmem)
        exact h.held k e he'
    · have := h.count_purge hS hr x
      have hdef := ((filter_sublist (p := fun q : PendingBatch5 => decide (q.key ≠ k))
        (l := v.deferred)).map (·.position)).count_le x
      simp only [uses]
      omega

theorem Entries.filter (h : Entries k entries) (q : Nat × HoldEntry5 → Bool) : Entries k (entries.filter q) :=
  ⟨fun e he => h.keyed e (mem_of_mem_filter he), h.nodup.sublist (filter_sublist.map _)⟩

theorem Entries.insertHeld (h : Entries p.key entries) (hnew : entries.lookup p.batchSeq = none) (nowNs : Nat) :
    Entries p.key (Pass.insertHeld p.batchSeq ⟨p, p.cachedMeta, nowNs⟩ entries) := by
  refine ⟨fun e he => ?_, ?_⟩
  · cases mem_insertHeld he with
    | inl heq =>
      rw [heq]
      exact ⟨rfl, rfl⟩
    | inr hmem => exact h.keyed e hmem
  · rw [((perm_insertHeld _ _ entries).map Prod.fst).nodup_iff, map_cons, nodup_cons]
    refine ⟨fun hmem => ?_, h.nodup⟩
    obtain ⟨e, he, heq⟩ := mem_map.mp hmem
    have hne := lookup_eq_none_iff.mp hnew e he
    exact bne_iff_ne.mp hne heq.symm

theorem Filed.update_entries (h : v.Filed B S) (he : Entries k entries) :
    ∀ k', Entries k' (update v.held k entries k') :=
  (Function.forall_update_iff v.held (fun k' l => Entries k' l)).mpr ⟨he, fun k' _ => h.entries k'⟩

theorem Filed.move (h : v.Filed B S) (hB : ∀ p, S p → B p) (hm : Move P v w) : w.Filed B S := by
  have hfrom := h.toFrom.move hm
  cases hm with
  | reorder hl => exact { h with toFrom := hfrom }
  | drop hp => exact { h with toFrom := hfrom }
  | emit hp => exact { h with toFrom := hfrom }
  | hold nowNs hp hnew =>
    exact { h with toFrom := hfrom, entries := (h.update_entries ((h.entries _).insertHeld hnew nowNs)) }
  | defer hp => exact { h with toFrom := hfrom }
  | block hp =>
    refine { h with
      toFrom := hfrom
      blocked := fun s hs => ?_ }
    cases mem_append.mp hs with
    | inl hold => exact h.blocked s hold
    | inr hnew => exact ⟨_, hB _ (h.head hp), (mem_singleton.mp hnew).symm⟩
  | release hhe => exact { h with toFrom := hfrom, entries := (h.update_entries ((h.entries _).filter _)) }
  | discard hhe => exact { h with toFrom := hfrom, entries := (h.update_entries ((h.entries _).filter _)) }
  | retire hhe => exact { h with toFrom := hfrom, entries := (h.update_entries ((h.entries _).filter _)) }
  | purge retired hr => exact { h with toFrom := hfrom, entries := (h.update_entries ⟨nofun, .nil⟩) }

end Shelf

structure PendingBatch5.Sited (slots : Nat) (owner : Position → SessionKey × Nat)
    (p : PendingBatch5) : Prop where
  owner : owner p.position = (p.key, p.batchSeq)
  slot : p.slotOffset = p.cachedPbrAbsoluteIndex % slots
  broker : p.brokerId < numMaxBrokers
  client : p.clientId < 2 ^ 32

structure Frontiers (slots : Nat) (floor top : Nat → Nat) (S : PendingBatch5 → Prop)
    (use : Position → Nat) (consumed frontier : Nat → Nat) : Prop where
  once : ∀ x, use x ≤ 1
  lane : ∀ b < numMaxBrokers, Window.Tracks slots (floor b) (top b) (fun l => use (b, l)) (consumed b) (frontier b)
  passed : ∀ b < numMaxBrokers, ∀ l, floor b ≤ l → l < frontier b → ∃ p, S p ∧ p.position = (b, l)

theorem consumedThrough_retireHeld (slots : Nat) (c : CxlMemory) (he : HoldEntry5) :
    (c.retireHeld slots he).consumedThrough =
      if he.holdMeta.brokerId < numMaxBrokers ∧ he.holdMeta.slotOffset < slots ∧
          Window.slot slots (c.consumedThrough he.holdMeta.brokerId) = he.holdMeta.slotOffset then
        update c.consumedThrough he.holdMeta.brokerId (min (he.holdMeta.slotOffset + 1) slots)
      else c.consumedThrough := by
  rw [CxlMemory.retireHeld]
  cases he.batch.hdr with
  | none => exact apply_ite CxlMemory.consumedThrough _ _ _
  | some a => exact apply_ite CxlMemory.consumedThrough _ _ _

namespace Frontiers

variable {slots : Nat} {floor top frontier consumed : Nat → Nat} {use u : Position → Nat}

theorem mono (h : Frontiers slots floor top S use consumed frontier) (hle : ∀ x, u x ≤ use x) :
    Frontiers slots floor top S u consumed frontier where
  once x := (hle x).trans (h.once x)
  lane b hb := (h.lane b hb).mono fun l => hle (b, l)
  passed := h.passed

theorem retire {c : CxlMemory} (h : Frontiers slots floor top S use c.consumedThrough frontier) {he : HoldEntry5}
    (hmem : S he.batch) (hmeta : he.holdMeta = he.batch.cachedMeta) (hsite : he.batch.Sited slots owner)
    (hle : ∀ x, u x + [he.batch.position].count x ≤ use x) :
    ∃ frontier', Frontiers slots floor top S u (c.retireHeld slots he).consumedThrough frontier' := by
  obtain ⟨b, hb⟩ : ∃ b, b = he.batch.brokerId := ⟨_, rfl⟩
  obtain ⟨l, hl⟩ : ∃ l, l = he.batch.cachedPbrAbsoluteIndex := ⟨_, rfl⟩
  have hpos : he.batch.position = (b, l) := by rw [hb, hl]; rfl
  have hslot : he.holdMeta.slotOffset = l % slots := by
    rw [hmeta, hl]
    exact hsite.slot
  have hbroker : he.holdMeta.brokerId = b := by rw [hmeta, hb]; rfl
  have hmono := h.mono fun x => (Nat.le_add_right _ _).trans (hle x)
  rw [consumedThrough_retireHeld, hslot, hbroker]
  split
  next hcond =>
    have hone := hle (b, l)
    have hsingle : [he.batch.position].count (b, l) = 1 := by rw [hpos, count_singleton_self]
    have honce := h.once (b, l)
    have hret := (h.lane b hcond.1).retire (l := l) (u := fun m => u (b, m)) (by omega)
      hcond.2.2 (fun m => (Nat.le_add_right _ _).trans (hle (b, m))) (by omega)
    have hat := (h.lane b hcond.1).eq_of_slot (l := l) (by omega) hcond.2.2
    refine ⟨update frontier b (frontier b + 1), hmono.once, fun b' hb' => ?_, fun b' hb' => ?_⟩
    · rw [update_apply, update_apply]
      split
      next heq =>
        rw [heq]
        exact hret
      · exact hmono.lane b' hb'
    · intro m hfloor hlt
      rw [update_apply] at hlt
      split at hlt
      next heq =>
        rw [heq] at hfloor ⊢
        by_cases hm : m = l
        · exact ⟨he.batch, hmem, by rw [hm, hpos]⟩
        · exact h.passed b hcond.1 m hfloor (by omega)
      · exact h.passed b' hb' m hfloor hlt
  · exact ⟨frontier, hmono⟩

theorem retireAll (retired : List HoldEntry5) :
    ∀ {c : CxlMemory} {use : Position → Nat} {frontier : Nat → Nat},
      Frontiers slots floor top S use c.consumedThrough frontier →
      (∀ he ∈ retired, (S he.batch ∧ he.holdMeta = he.batch.cachedMeta) ∧ he.batch.Sited slots owner) →
      (∀ x, u x + (retired.map (·.batch.position)).count x ≤ use x) →
      ∃ frontier', Frontiers slots floor top S u
        (retired.foldl (CxlMemory.retireHeld slots) c).consumedThrough frontier' := by
  induction retired with
  | nil =>
    intro c use frontier h _ hle
    exact ⟨frontier, h.mono hle⟩
  | cons he rest ih =>
    intro c use frontier h hall hle
    obtain ⟨⟨hmem, hmeta⟩, hsite⟩ := hall he mem_cons_self
    obtain ⟨frontier', h'⟩ := h.retire hmem hmeta hsite
      (u := fun x => u x + (rest.map (·.batch.position)).count x) fun x => by
        have := hle x
        rw [map_cons, count_cons] at this
        rw [count_singleton]
        omega
    exact ih h' (fun e hr => hall e (mem_cons_of_mem _ hr)) fun x => Nat.le_refl _

theorem move {S' : PendingBatch5 → Prop} {rest : Position → Nat} (hv : v.Filed B S') (hS : ∀ p, S' p → S p)
    (hsite : ∀ p, S p → p.Sited P.slots owner) (hm : Shelf.Move P v w)
    (h : Frontiers P.slots floor top S (fun x => v.uses owner x + rest x) v.cxl.consumedThrough frontier) :
    ∃ frontier', Frontiers P.slots floor top S (fun x => w.uses owner x + rest x) w.cxl.consumedThrough frontier' := by
  obtain ⟨retired, hcxl, hall, huses⟩ := hv.retires (fun p hp => (hsite p (hS p hp)).owner) hm
  rw [hcxl]
  have hretired : ∀ he ∈ retired, (S he.batch ∧ he.holdMeta = he.batch.cachedMeta) ∧
      he.batch.Sited P.slots owner := by
    intro he hr
    have hfrom := hall he hr
    exact ⟨hfrom.imp_left (hS _), hsite _ (hS _ hfrom.1)⟩
  refine h.retireAll retired hretired fun x => ?_
  have := huses x
  omega

end Frontiers

structure Level5ShardState.Filed (B S : PendingBatch5 → Prop) (sh : Level5ShardState) : Prop where
  held : ∀ k, ∀ e ∈ sh.holdBuffer k, S e.2.batch ∧ e.2.holdMeta = e.2.batch.cachedMeta
  deferred : ∀ p ∈ sh.deferredLevel5, S p
  entries : ∀ k, Shelf.Entries k (sh.holdBuffer k)
  blocked : ∀ s ∈ sh.backpressuredLevel5Slots, ∃ p, B p ∧ p.slotIdentity = s

def ofShard (n : Nat) (S : PendingBatch5 → Prop) (i : Nat) (p : PendingBatch5) : Prop :=
  S p ∧ p.clientId % n = i

namespace Topic

def Filed (n : Nat) (B S : PendingBatch5 → Prop) (t : Topic) : Prop :=
  ∀ i, (t.shards i).Filed (ofShard n B i) (ofShard n S i)

def waiting (n : Nat) (owner : Position → SessionKey × Nat) (t : Topic) (x : Position) : Nat :=
  (t.shards ((owner x).1.clientId % n)).waiting owner x

def keeps (n : Nat) (owner : Position → SessionKey × Nat) (t : Topic) (x : Position) : Nat :=
  (t.shards ((owner x).1.clientId % n)).keeps owner x

end Topic

variable {sh : Level5ShardState} {level5 : List PendingBatch5} {i n : Nat} {B' S' : PendingBatch5 → Prop}
  {rest : Position → Nat} {t : Topic}

theorem Topic.Filed.mono (h : t.Filed n B S) (hB : ∀ p, B p → B' p) (hS : ∀ p, S p → S' p) : t.Filed n B' S' := fun i =>
  { h i with
    held := fun k e he => ((h i).held k e he).imp_left (And.imp_left (hS _))
    deferred := fun p hp => ((h i).deferred p hp).imp_left (hS p)
    blocked := fun s hs => ((h i).blocked s hs).imp fun p hp => hp.imp_left (And.imp_left (hB p)) }

def Topic.Keeps (t : Topic) (x : Position) : Prop :=
  ∃ i, (∃ k, ∃ e ∈ (t.shards i).holdBuffer k, e.2.batch.position = x) ∨
    (∃ p ∈ (t.shards i).deferredLevel5, p.position = x) ∨ ∃ s ∈ (t.shards i).backpressuredLevel5Slots, s.position = x

theorem Topic.Filed.keeps_pos (h : t.Filed n B B) (howner : ∀ p, B p → owner p.position = (p.key, p.batchSeq))
    (hx : t.Keeps x) : 0 < t.keeps n owner x := by
  obtain ⟨i, hx⟩ := hx
  have hshard : ∀ p, ofShard n B i p → p.position = x →
      t.keeps n owner x = (t.shards i).keeps owner x ∧ (owner x).1 = p.key := by
    intro p hp hat
    rw [← hat, Topic.keeps, howner p hp.1, ← hp.2]
    exact ⟨rfl, rfl⟩
  rcases hx with ⟨k, e, he, hat⟩ | ⟨p, hp, hat⟩ | ⟨s, hs, hat⟩
  · obtain ⟨hkeeps, hkey⟩ := hshard _ ((h i).held k e he).1 hat
    rw [hkeeps, Level5ShardState.keeps, Level5ShardState.waiting, hkey, (((h i).entries k).keyed e he).1]
    have hpos := (count_map_pos (f := fun e : Nat × HoldEntry5 => e.2.batch.position)).mpr ⟨e, he, hat⟩
    omega
  · rw [(hshard p ((h i).deferred p hp) hat).1, Level5ShardState.keeps, Level5ShardState.waiting]
    have hpos := (count_map_pos (f := fun p : PendingBatch5 => p.position)).mpr ⟨p, hp, hat⟩
    omega
  · obtain ⟨p, hp, rfl⟩ := (h i).blocked s hs
    rw [(hshard p hp hat).1, Level5ShardState.keeps]
    have hpos := (count_map_pos (f := fun s : Order5SlotIdentity => s.position)).mpr ⟨_, hs, hat⟩
    omega

theorem Topic.keeps_of_pos (h : 0 < t.keeps n owner x) : t.Keeps x := by
  rw [Topic.keeps, Level5ShardState.keeps, Level5ShardState.waiting,
    Nat.add_pos_iff_pos_or_pos, Nat.add_pos_iff_pos_or_pos] at h
  rcases h with (h | h) | h
  · exact ⟨_, .inl ⟨_, count_map_pos.mp h⟩⟩
  · exact ⟨_, .inr (.inl (count_map_pos.mp h))⟩
  · exact ⟨_, .inr (.inr (count_map_pos.mp h))⟩

theorem Topic.Filed.waiting (h : t.Filed n B B) (howner : ∀ p, B p → owner p.position = (p.key, p.batchSeq))
    (Q : PendingBatch5 → Prop) : t.Filed n B fun p => B p ∧ (Q p ∨ 0 < t.waiting n owner p.position) := by
  intro i
  have hwait : ∀ p, ofShard n B i p → t.waiting n owner p.position =
        (((t.shards i).holdBuffer p.key).map (·.2.batch.position)).count p.position +
          ((t.shards i).deferredLevel5.map (·.position)).count p.position := by
    intro p hp
    rw [Topic.waiting, Level5ShardState.waiting, howner p hp.1, ← hp.2]
    rfl
  refine { h i with
    held := fun k e he => ?_
    deferred := fun p hp => ?_ }
  · obtain ⟨hp, hmeta⟩ := (h i).held k e he
    refine ⟨⟨⟨hp.1, .inr ?_⟩, hp.2⟩, hmeta⟩
    rw [hwait _ hp, (((h i).entries k).keyed e he).1]
    have hpos := (count_map_pos (f := fun e : Nat × HoldEntry5 => e.2.batch.position)).mpr ⟨e, he, rfl⟩
    exact Nat.add_pos_left hpos _
  · have hb := (h i).deferred p hp
    refine ⟨⟨hb.1, .inr ?_⟩, hb.2⟩
    rw [hwait _ hb]
    exact Nat.add_pos_right _ (count_map_pos.mpr ⟨p, hp, rfl⟩)

theorem PendingBatch5.Carries.position {p q : PendingBatch5} (h : p.Carries q) : p.position = q.position := by
  cases h with
  | inl h => rw [h]
  | inr h => rw [h]; rfl

theorem count_map_eq_zero {α : Type} {l : List α} {f : α → Position} (h : ∀ a ∈ l, f a ≠ x) : (l.map f).count x = 0 :=
  Nat.eq_zero_of_not_pos fun hpos => (count_map_pos.mp hpos).elim fun a ha => h a ha.1 ha.2

theorem Topic.Filed.exists_of_keeps (h : t.Filed n B S) (hB : ∀ p, S p → B p) (hx : 0 < t.keeps n owner x) :
    ∃ p, B p ∧ p.position = x := by
  rw [Topic.keeps, Level5ShardState.keeps, Level5ShardState.waiting, Nat.add_pos_iff_pos_or_pos,
    Nat.add_pos_iff_pos_or_pos, count_map_pos, count_map_pos, count_map_pos] at hx
  rcases hx with (⟨e, he, heq⟩ | ⟨p, hp, heq⟩) | ⟨s, hs, heq⟩
  · exact ⟨_, hB _ ((h _).held _ e he).1.1, heq⟩
  · exact ⟨p, hB p ((h _).deferred p hp).1, heq⟩
  · obtain ⟨p, hp, rfl⟩ := (h _).blocked s hs
    exact ⟨p, hp.1, heq⟩

theorem exists_of_readyPositions {ready : List PendingBatch5}
    (h : ∀ p ∈ ready, p.isHeldMarker = false → ∃ q, S q ∧ p.Carries q)
    (hx : 0 < (readyPositions ready).count x) : ∃ q, S q ∧ q.position = x := by
  obtain ⟨p, hp, heq⟩ := count_map_pos.mp hx
  obtain ⟨hmem, hmark⟩ := mem_filter.mp hp
  obtain ⟨q, hq, hcarry⟩ := h p hmem (by simpa using hmark)
  exact ⟨q, hq, hcarry.position ▸ heq⟩

theorem Shelf.Filed.uses_eq_zero (h : v.Filed (ofShard n B i) (ofShard n S i)) (hB : ∀ p, S p → B p)
    (howner : ∀ p, B p → owner p.position = (p.key, p.batchSeq)) (hx : (owner x).1.clientId % n ≠ i) :
    v.uses owner x = 0 := by
  have hother : ∀ p, ofShard n B i p → p.position ≠ x := by
    intro p hp heq
    apply hx
    rw [← heq, howner p hp.1]
    exact hp.2
  have hne : ∀ p, ofShard n S i p → p.position ≠ x := fun p hp => hother p (hp.imp_left (hB p))
  have hpending := count_map_eq_zero fun p hp => hne p (h.pending p hp)
  have hheld := count_map_eq_zero fun e he => hne _ (h.held (owner x).1 e he).1
  have hdeferred := count_map_eq_zero fun p hp => hne p (h.deferred p hp)
  have hblocked : (v.backpressured.map (·.position)).count x = 0 := by
    apply count_map_eq_zero
    intro s hs
    obtain ⟨p, hp, rfl⟩ := h.blocked s hs
    exact hother p hp
  have hready : (readyPositions v.ready).count x = 0 := by
    apply count_map_eq_zero
    intro p hp
    obtain ⟨hp, hmark⟩ := mem_filter.mp hp
    obtain ⟨q, hq, hcarry⟩ := h.ready p hp (by simpa using hmark)
    rw [hcarry.position]
    exact hne q hq
  rw [Shelf.uses, hpending, hheld, hdeferred, hblocked, hready]

theorem Level5ShardState.Filed.start {t : Topic} {sh : Level5ShardState} (h : sh.Filed B S)
    {input : List PendingBatch5} (hin : ∀ p ∈ input, S p) :
    ((Pass.start t sh (input ++ sh.deferredLevel5)).shelf (input ++ sh.deferredLevel5)).Filed B S where
  pending p hp := (mem_append.mp hp).elim (hin p) (h.deferred p)
  held := h.held
  deferred := nofun
  ready := nofun
  entries := h.entries
  blocked s hs := h.blocked s (mem_of_mem_filter hs)

theorem uses_start (t : Topic) (sh : Level5ShardState) (input : List PendingBatch5) (x : Position) :
    ((Pass.start t sh (input ++ sh.deferredLevel5)).shelf (input ++ sh.deferredLevel5)).uses owner x ≤
      (input.map (·.position)).count x + sh.keeps owner x := by
  have hblocked := ((filter_sublist (l := sh.backpressuredLevel5Slots)
    (p := fun s => !((input ++ sh.deferredLevel5).map (·.slotIdentity)).contains s)).map
      (·.position)).count_le x
  simp only [Shelf.uses, Pass.shelf, Pass.start, Level5ShardState.keeps, Level5ShardState.waiting,
    map_append, count_append, map_nil, count_nil, readyPositions, filter_nil] at hblocked ⊢
  omega

theorem Shelf.Filed.shard {y : Pass} (h : (y.shelf []).Filed B S) : y.shard.Filed B S :=
  ⟨h.held, h.deferred, h.entries, h.blocked⟩

theorem uses_end (y : Pass) (x : Position) :
    (y.shelf []).uses owner x = y.shard.keeps owner x + (readyPositions y.ready).count x := by
  simp only [Shelf.uses, Pass.shelf, Level5ShardState.keeps, Level5ShardState.waiting, map_nil, count_nil]
  omega

theorem Frontiers.shard {floor top frontier : Nat → Nat} (hB : ∀ p, S' p → B' p) (hS : ∀ p, S' p → S p)
    (hsite : ∀ p, S p → p.Sited P.slots owner) (clock : PassClock) (hsh : sh.Filed B' S') {input : List PendingBatch5}
    (hin : ∀ p ∈ input, S' p) (h : Frontiers P.slots floor top S
      (fun x => (input.map (·.position)).count x + sh.keeps owner x + rest x) t.cxl.consumedThrough
      frontier) :
    ((processLevel5BatchesShard P clock t sh input).shelf []).Filed B' S' ∧ ∃ frontier', Frontiers P.slots floor top S
        (fun x => (processLevel5BatchesShard P clock t sh input).shard.keeps owner x +
          (readyPositions (processLevel5BatchesShard P clock t sh input).ready).count x + rest x)
        (processLevel5BatchesShard P clock t sh input).topic.cxl.consumedThrough frontier' := by
  have hstart := h.mono (u := fun x => ((Pass.start t sh (input ++ sh.deferredLevel5)).shelf
    (input ++ sh.deferredLevel5)).uses owner x + rest x) fun x =>
      Nat.add_le_add_right (uses_start t sh input x) _
  have hend := (Pass.moves_shard (P := P) clock t sh input).invariant
    (I := fun v => v.Filed B' S' ∧ ∃ frontier, Frontiers P.slots floor top S
      (fun x => v.uses owner x + rest x) v.cxl.consumedThrough frontier)
    (fun v w hm hv => ⟨hv.1.move hB hm, hv.2.elim fun _ hf => hf.move hv.1 hS hsite hm⟩)
    ⟨hsh.start hin, _, hstart⟩
  refine ⟨hend.1, ?_⟩
  simp only [uses_end] at hend
  exact hend.2

theorem Level5ShardState.Filed.keeps_eq_zero (h : sh.Filed (ofShard n B i) (ofShard n S i)) (hB : ∀ p, S p → B p)
    (howner : ∀ p, B p → owner p.position = (p.key, p.batchSeq)) (hx : (owner x).1.clientId % n ≠ i) (t : Topic) :
    sh.keeps owner x = 0 := by
  have hshelf : ((⟨t, sh, [], [], 0⟩ : Pass).shelf []).Filed (ofShard n B i) (ofShard n S i) :=
    ⟨⟨nofun, h.held, h.deferred, nofun⟩, h.entries, h.blocked⟩
  have huses := hshelf.uses_eq_zero hB howner hx
  rw [uses_end] at huses
  exact Nat.eq_zero_of_add_eq_zero_right huses

def fromShard (n i : Nat) (level5 : List PendingBatch5) : List PendingBatch5 :=
  level5.filter fun p => i ≤ p.clientId % n

theorem count_fromShard (n i : Nat) (level5 : List PendingBatch5) (x : Position) :
    ((fromShard n i level5).map (·.position)).count x =
      ((level5.filter (·.clientId % n = i)).map (·.position)).count x +
        ((fromShard n (i + 1) level5).map (·.position)).count x := by
  induction level5 with
  | nil => rfl
  | cons p rest ih =>
    simp only [fromShard, filter_cons, decide_eq_true_eq] at ih ⊢
    rcases Nat.lt_trichotomy i (p.clientId % n) with hlt | heq | hgt
    · rw [if_pos (by omega), if_neg (by omega), if_pos (by omega), map_cons, map_cons, count_cons, count_cons, ih]
      omega
    · rw [if_pos (by omega), if_pos (by omega), if_neg (by omega), map_cons, map_cons, count_cons, count_cons, ih]
      omega
    · rw [if_neg (by omega), if_neg (by omega), if_neg (by omega), ih]

def Topic.uses (n : Nat) (owner : Position → SessionKey × Nat) (rest : Position → Nat)
    (level5 : List PendingBatch5) (i : Nat) (s : Topic × List PendingBatch5) (x : Position) : Nat :=
  s.1.keeps n owner x + (readyPositions s.2).count x + ((fromShard n i level5).map (·.position)).count x + rest x

structure Classifying (P : Platform) (owner : Position → SessionKey × Nat)
    (B S : PendingBatch5 → Prop) (floor top : Nat → Nat) (rest : Position → Nat)
    (level5 : List PendingBatch5) (i : Nat) (s : Topic × List PendingBatch5) : Prop where
  filed : s.1.Filed P.numShards B S
  ready : ∀ p ∈ s.2, p.isHeldMarker = false → ∃ q, S q ∧ p.Carries q
  frontiers : ∃ frontier, Frontiers P.slots floor top S
    (Topic.uses P.numShards owner rest level5 i s) s.1.cxl.consumedThrough frontier

theorem Classifying.processShard {floor top : Nat → Nat} {s : Topic × List PendingBatch5} (hB : ∀ p, S p → B p)
    (hsite : ∀ p, B p → p.Sited P.slots owner) (hl : ∀ p ∈ level5, S p) (clock : PassClock)
    (h : Classifying P owner B S floor top rest level5 i s) :
    Classifying P owner B S floor top rest level5 (i + 1) (processShard P clock level5 s i) := by
  obtain ⟨t, ready⟩ := s
  obtain ⟨hfiled, hready, frontier, hf⟩ := h
  have hshards := congrArg Topic.shards (Pass.frame_shard (P := P) clock t (t.shards i)
    (level5.filter (·.clientId % P.numShards = i)))
  dsimp only [Topic.frame] at hshards
  have hin : ∀ p ∈ level5.filter (·.clientId % P.numShards = i), ofShard P.numShards S i p := by
    intro p hp
    obtain ⟨hmem, hi⟩ := mem_filter.mp hp
    exact ⟨hl p hmem, of_decide_eq_true hi⟩
  -- the other shards, the ready vector and the rest of the input stay where they are
  have hbefore := hf.mono (u := fun x =>
    ((level5.filter (·.clientId % P.numShards = i)).map (·.position)).count x +
      (t.shards i).keeps owner x + ((readyPositions ready).count x +
        ((fromShard P.numShards (i + 1) level5).map (·.position)).count x + rest x +
        if (owner x).1.clientId % P.numShards = i then 0 else t.keeps P.numShards owner x)) fun x => by
    have hsplit := count_fromShard P.numShards i level5 x
    simp only [Topic.uses, Topic.keeps]
    split
    next hx =>
      rw [hx]
      omega
    next hx =>
      rw [(hfiled i).keeps_eq_zero hB (fun p hp => (hsite p hp).owner) hx t]
      omega
  obtain ⟨hend, frontier', hf'⟩ := Frontiers.shard
    (fun p hp => hp.imp_left (hB p)) (fun _ => And.left) (fun p hp => hsite p (hB p hp)) clock (hfiled i) hin hbefore
  refine ⟨fun j => ?_, fun p hp => ?_, frontier', hf'.mono fun x => ?_⟩
  · dsimp only [Embarcadero.processShard]
    rw [hshards]
    exact (Function.forall_update_iff t.shards (fun j sh =>
      sh.Filed (ofShard P.numShards B j) (ofShard P.numShards S j))).mpr ⟨hend.shard, fun j _ => hfiled j⟩ j
  · cases mem_append.mp hp with
    | inl hold => exact hready p hold
    | inr hnew => exact fun hm => (hend.ready p hnew hm).imp fun q hq => hq.imp_left And.left
  · simp only [Topic.uses, Topic.keeps, Embarcadero.processShard]
    rw [hshards, readyPositions_append, count_append, update_apply]
    split
    · omega
    · omega

theorem Classifying.process {floor top : Nat → Nat} {frontier : Nat → Nat} (hB : ∀ p, S p → B p)
    (hsite : ∀ p, B p → p.Sited P.slots owner) (hl : ∀ p ∈ level5, S p) (hfiled : t.Filed P.numShards B S)
    (clock : PassClock) (h : Frontiers P.slots floor top S
      (fun x => t.keeps P.numShards owner x + (level5.map (·.position)).count x + rest x)
      t.cxl.consumedThrough frontier) :
    Classifying P owner B S floor top rest [] P.numShards (processLevel5Batches P clock t level5) := by
  have hstart : Classifying P owner B S floor top rest level5 0 (t, []) := by
    refine ⟨hfiled, nofun, frontier, h.mono fun x => ?_⟩
    have hall : fromShard P.numShards 0 level5 = level5 := filter_eq_self.mpr (by simp)
    rw [Topic.uses, hall]
    exact Nat.le_refl _
  rw [processLevel5Batches_eq]
  split
  · exact { hstart with
      frontiers := ⟨frontier, h.mono fun x => by
        simp only [Topic.uses, fromShard, readyPositions, filter_nil, map_nil, count_nil]
        omega⟩ }
  · have hall : ∀ n, Classifying P owner B S floor top rest level5 n
        ((List.range n).foldl (Embarcadero.processShard P clock level5) (t, [])) := by
      intro n
      induction n with
      | zero => exact hstart
      | succ n ih =>
        rw [range_succ, foldl_append, foldl_cons, foldl_nil]
        exact ih.processShard hB hsite hl clock
    have hend := hall P.numShards
    exact { hend with
      frontiers := hend.frontiers.imp fun frontier' hf => hf.mono fun x => by
        simp only [Topic.uses, fromShard, filter_nil, map_nil, count_nil]
        omega }

end Embarcadero
