import Embarcadero.Lib.KeyedQueues
import Embarcadero.Occupancy

namespace Embarcadero

open Function (update update_apply update_of_ne update_self)
open List
open KeyedQueues (Counted)
open Embarcadero.Shelf

def Platform.Sorts (P : Platform) : Prop :=
  ∀ {α : Type} (lt : α → α → Bool) (l : List α), (∀ a b, lt a b = true → lt b a = false) →
    (∀ a b c, lt b a = false → lt c b = false → lt c a = false) → (P.sort lt l).Pairwise fun a b => lt b a = false

def Topic.recoveredFrontier (t : Topic) (k : SessionKey) : Nat :=
  max (t.recoveredNextExpected k) (if (t.cxl.sessions.get k).active then t.cxl.sessions.expected k else 0)

def PendingBatch5.Misses (m : Nat) (q : PendingBatch5) : Prop :=
  (q.skipped = true → q.sessionEpoch = 0 → q.batchSeq < m) ∧ (q.skipped = false → q.batchSeq ≠ m)

instance (m : Nat) (q : PendingBatch5) : Decidable (q.Misses m) :=
  inferInstanceAs (Decidable ((_ → _ → _) ∧ (_ → _)))

structure Level5ShardState.HoldOk (B : Prop) (n i : Nat) (sh : Level5ShardState) : Prop where
  counted : Counted sh.holdBuffer sh.clientsWithHeldBatches sh.holdBufferSize
  emitted : ∀ k s, (sh.clientEmittedTracker k).isEmitted s = true → s < (sh.clientState k).nextExpected
  filed : sh.Filed (ofShard n (fun _ => True) i) (ofShard n (fun _ => True) i)
  listed : ∀ k ∈ sh.clientsWithHeldBatches, sh.holdBuffer k ≠ []
  above : B → ∀ k, ∀ e ∈ sh.holdBuffer k, (sh.clientState k).nextExpected < e.1

def Level5ShardState.Bars (t : Topic) (sh : Level5ShardState) (level5 : List PendingBatch5) (k : SessionKey)
    (m : Nat) : Prop :=
  (sh.clientState k).nextExpected ≤ m ∧ ∀ q ∈ level5, q.key = k → t.recoveredFrontier k ≤ m ∧ q.Misses m

def Level5ShardState.Unpassed (t : Topic) (sh : Level5ShardState) (level5 : List PendingBatch5) : Prop :=
  ∀ k ∈ sh.clientsWithHeldBatches, ∀ e ∈ sh.holdBuffer k, ∃ m < e.1 + 1, sh.Bars t level5 k m

namespace Pass

structure Tallied (base : Int) (x : Pass) : Prop where
  counted : Counted x.shard.holdBuffer x.shard.clientsWithHeldBatches x.shard.holdBufferSize
  delta : base + x.holdSizeDelta = x.shard.holdBufferSize
  emitted : ∀ k s, (x.shard.clientEmittedTracker k).isEmitted s = true → s < (x.shard.clientState k).nextExpected

structure Guarded (B : Prop) (n i : Nat) (t₀ : Topic) (base : Int) (d : Nat) (l : List PendingBatch5) (x : Pass) : Prop
    extends x.Tallied base where
  listed : ∀ k ∈ x.shard.clientsWithHeldBatches, x.shard.holdBuffer k ≠ []
  outside : ∀ k : SessionKey, k.clientId % n ≠ i → x.topic.cxl.sessions.get k = t₀.cxl.sessions.get k
  barred : B → ∀ k, ∀ e ∈ x.shard.holdBuffer k, ∃ m < e.1 + d, x.shard.Bars x.topic l k m

structure Holding (B : Prop) (n i : Nat) (t₀ : Topic) (base : Int) (d : Nat) (l : List PendingBatch5) (x : Pass) : Prop
    extends x.Guarded B n i t₀ base d l where
  filed : (x.shelf l).Filed (ofShard n (fun _ => True) i) (ofShard n (fun _ => True) i)

structure Serving (B : Prop) (n i : Nat) (t₀ : Topic) (base : Int) (d : Nat) (k : SessionKey) (l : List PendingBatch5)
    (x : Pass) : Prop extends x.Guarded B n i t₀ base d l where
  begun : x.topic.recoveredFrontier k ≤ (x.shard.clientState k).nextExpected

structure SameHolds (x y : Pass) : Prop where
  hold : y.shard.holdBuffer = x.shard.holdBuffer
  clients : y.shard.clientsWithHeldBatches = x.shard.clientsWithHeldBatches
  size : y.shard.holdBufferSize = x.shard.holdBufferSize
  delta : y.holdSizeDelta = x.holdSizeDelta

end Pass

variable {B : Prop} {P : Platform} {n i d : Nat} {t₀ : Topic} {base : Int} {l l' rest : List PendingBatch5} {x y : Pass}
  {k : SessionKey} {p : PendingBatch5}

theorem Topic.nextExpected_reconstruct (t : Topic) (k : SessionKey) (s : OptimizedClientState) :
    (t.reconstructClientState k s).nextExpected = max s.nextExpected (t.recoveredFrontier k) := by
  have hrecovered := (s.applyRecovered_frame (t.recoveredNextExpected k)).1
  rw [Topic.reconstructClientState, Topic.recoveredFrontier]
  split
  · rw [(OptimizedClientState.applyRecovered_frame _ _).1, (OptimizedClientState.applyEntry_frame _ _).1,
      hrecovered, SessionTable.expected]
    omega
  · rw [hrecovered]
    omega

theorem Topic.sessionEpoch_le_reconstruct (t : Topic) (k : SessionKey) (s : OptimizedClientState) :
    s.sessionEpoch ≤ (t.reconstructClientState k s).sessionEpoch := by
  have hrecovered := (s.applyRecovered_frame (t.recoveredNextExpected k)).2.2.1
  rw [Topic.reconstructClientState]
  split
  · rw [(OptimizedClientState.applyRecovered_frame _ _).2.2.1, (OptimizedClientState.applyEntry_frame _ _).2.2.1,
      hrecovered]
    exact le_max_left _ _
  · exact hrecovered.ge

theorem Topic.recoveredFrontier_congr {t t' : Topic} (hget : t'.cxl.sessions.get k = t.cxl.sessions.get k)
    (hrec : t'.recoveredNextExpected = t.recoveredNextExpected) : t'.recoveredFrontier k = t.recoveredFrontier k := by
  rw [Topic.recoveredFrontier, Topic.recoveredFrontier, SessionTable.expected, SessionTable.expected, hget, hrec]

namespace Pass

theorem Tallied.of_same (h : x.Tallied base) (hsame : x.SameHolds y)
    (hemitted : ∀ k s, (y.shard.clientEmittedTracker k).isEmitted s = true →
      s < (y.shard.clientState k).nextExpected) : y.Tallied base where
  counted := by
    rw [hsame.hold, hsame.clients, hsame.size]
    exact h.counted
  delta := by
    rw [hsame.delta, hsame.size]
    exact h.delta
  emitted := hemitted

namespace Guarded

theorem of_same (h : x.Guarded B n i t₀ base d l) (hsame : x.SameHolds y)
    (hemitted : ∀ k s, (y.shard.clientEmittedTracker k).isEmitted s = true →
      s < (y.shard.clientState k).nextExpected)
    (hget : ∀ k, y.topic.cxl.sessions.get k = x.topic.cxl.sessions.get k)
    (hbars : ∀ k m, x.shard.Bars x.topic l k m → y.shard.Bars y.topic l' k m) :
    y.Guarded B n i t₀ base d l' where
  toTallied := h.toTallied.of_same hsame hemitted
  listed := by
    rw [hsame.hold, hsame.clients]
    exact h.listed
  outside k hk := (hget k).trans (h.outside k hk)
  barred hB k e he := by
    rw [hsame.hold] at he
    obtain ⟨m, hm, hbar⟩ := h.barred hB k e he
    exact ⟨m, hm, hbars k m hbar⟩

theorem setState {s : OptimizedClientState} (h : x.Guarded B n i t₀ base d l) (hsame : x.SameHolds y)
    (hstate : y.shard.clientState = update x.shard.clientState k s)
    (hsessions : y.topic.cxl.sessions = x.topic.cxl.sessions)
    (hrecovered : y.topic.recoveredNextExpected = x.topic.recoveredNextExpected) (hl : l' ⊆ l)
    (hle : (x.shard.clientState k).nextExpected ≤ s.nextExpected)
    (hbar : ∀ m, x.shard.Bars x.topic l k m → s.nextExpected ≤ m)
    (hemitted : ∀ k' j, (y.shard.clientEmittedTracker k').isEmitted j = true →
      (x.shard.clientEmittedTracker k').isEmitted j = true ∨ k' = k ∧ j < s.nextExpected) :
    y.Guarded B n i t₀ base d l' := by
  refine h.of_same hsame (fun k' j hj => ?_) (fun _ => by rw [hsessions]) fun k' m hm => ?_
  · rw [hstate]
    by_cases hk : k' = k
    · subst hk
      rw [update_self]
      cases hemitted k' j hj with
      | inl hold => exact (h.emitted k' j hold).trans_le hle
      | inr hnew => exact hnew.2
    · rw [update_of_ne hk]
      exact h.emitted k' j ((hemitted k' j hj).resolve_right fun hnew => hk hnew.1)
  · have hfrontier := Topic.recoveredFrontier_congr (k := k') (congrArg (·.get k') hsessions) hrecovered
    refine ⟨?_, fun q hq hqk => hfrontier ▸ hm.2 q (hl hq) hqk⟩
    rw [hstate]
    by_cases hk : k' = k
    · subst hk
      rw [update_self]
      exact hbar m hm
    · rw [update_of_ne hk]
      exact hm.1

theorem beginSession (h : x.Guarded B n i t₀ base d l) (epoch : Nat) (hp : p ∈ l) :
    (Pass.beginSession epoch p.key x).Serving B n i t₀ base d p.key l := by
  -- the tracker's contiguous part lies below the frontier, so it never raises it
  have hstart : ∃ s, Pass.beginSession epoch p.key x = { x with shard := x.shard.setState p.key s } ∧
      s.nextExpected = max (x.shard.clientState p.key).nextExpected (x.topic.recoveredFrontier p.key) := by
    have hnext := x.topic.nextExpected_reconstruct p.key
      { x.shard.clientState p.key with sessionEpoch := p.key.sessionEpoch, lastEpoch := epoch }
    rw [Pass.beginSession]
    split
    next m hm =>
      split
      next hzero =>
        have hlt := h.emitted p.key m (by simp [ClientEmitTracker.isEmitted, hm])
        rw [hnext] at hzero
        exact absurd (hlt.trans_le ((le_max_left _ _).trans_eq hzero)) (Nat.not_lt_zero m)
      · exact ⟨_, rfl, hnext⟩
    · exact ⟨_, rfl, hnext⟩
  obtain ⟨s, heq, hnext⟩ := hstart
  rw [heq]
  refine ⟨h.setState ⟨rfl, rfl, rfl, rfl⟩ rfl rfl rfl (List.Subset.refl l) (hnext ▸ le_max_left _ _)
    (fun m hm => ?_) fun _ _ hj => .inl hj, ?_⟩
  · rw [hnext]
    exact max_le hm.1 (hm.2 p hp rfl).1
  · rw [setState_self, hnext]
    exact le_max_right _ _

end Guarded

namespace Serving

variable {s : OptimizedClientState} (h : x.Serving B n i t₀ base d p.key (p :: rest))

include h

theorem insert {nowNs : Nat} {sh : Level5ShardState}
    (hsh : sh = x.shard.setState p.key ((x.shard.clientState p.key).noteGap nowNs))
    (hgt : (x.shard.clientState p.key).nextExpected < p.batchSeq)
    (hrest : ∀ q ∈ rest, q.skipped = false ∧ (q.key = p.key → p.batchSeq ≤ q.batchSeq)) :
    Guarded B n i t₀ base d rest { x with
      shard := { sh with
        holdBuffer := update sh.holdBuffer p.key
          (insertHeld p.batchSeq ⟨p, p.cachedMeta, nowNs⟩ (sh.holdBuffer p.key))
        holdBufferSize := sh.holdBufferSize + 1
        clientsWithHeldBatches :=
          if sh.clientsWithHeldBatches.contains p.key then sh.clientsWithHeldBatches
          else sh.clientsWithHeldBatches ++ [p.key] }
      ready := x.ready ++ [heldMarker p]
      holdSizeDelta := x.holdSizeDelta + 1 } := by
  have hnext : ∀ k, (sh.clientState k).nextExpected = (x.shard.clientState k).nextExpected := by
    rw [hsh]
    exact nextExpected_setState (OptimizedClientState.noteGap_nextExpected ..)
  have hbarred : B → ∀ k, ∀ e ∈ sh.holdBuffer k, ∃ m < e.1 + d, sh.Bars x.topic rest k m := by
    intro hB k e he
    obtain ⟨m, hm, hbar⟩ := h.barred hB k e (by rw [hsh] at he; exact he)
    exact ⟨m, hm, (hnext k).le.trans hbar.1, fun q hq => hbar.2 q (mem_cons_of_mem _ hq)⟩
  have hcounted : Counted sh.holdBuffer sh.clientsWithHeldBatches sh.holdBufferSize := by
    rw [hsh]
    exact h.counted
  have hperm := perm_insertHeld p.batchSeq ⟨p, p.cachedMeta, nowNs⟩ (sh.holdBuffer p.key)
  obtain ⟨henroll, hmem⟩ := hcounted.enroll p.key
  simp only [← contains_iff_mem] at henroll hmem
  refine { outside := h.outside, counted := ?_, delta := ?_, emitted := ?_, listed := ?_, barred := ?_ }
  · refine henroll.set (contains_iff_mem.mp hmem) ?_
    dsimp only
    rw [hperm.length_eq, length_cons]
    omega
  · have hsize : sh.holdBufferSize = x.shard.holdBufferSize := by rw [hsh]; rfl
    have hdelta := h.delta
    dsimp only
    omega
  · intro k s hs
    have htracker : sh.clientEmittedTracker = x.shard.clientEmittedTracker := by rw [hsh]; rfl
    exact (h.emitted k s (htracker ▸ hs)).trans_eq (hnext k).symm
  · intro k hk
    dsimp only at hk ⊢
    rw [update_apply]
    split
    · intro hnil
      exact absurd (hnil ▸ hperm.length_eq) nofun
    next hne =>
      rw [hsh] at hk ⊢
      refine h.listed k ?_
      split at hk
      · exact hk
      · exact (mem_append.mp hk).resolve_right fun hk => hne (mem_singleton.mp hk)
  · intro hB k e he
    dsimp only at he ⊢
    rw [update_apply] at he
    split at he
    next hk =>
      subst hk
      cases mem_insertHeld he with
      | inl heq =>
        refine ⟨(x.shard.clientState p.key).nextExpected, ?_, (hnext _).le, fun q hq hqk => ⟨h.begun, ?_, ?_⟩⟩
        · rw [heq]
          exact Nat.lt_add_right d hgt
        · exact fun hskip => absurd (hrest q hq).1 (by rw [hskip]; nofun)
        · exact fun _ => (hgt.trans_le ((hrest q hq).2 hqk)).ne'
      | inr hold => exact hbarred hB p.key e hold
    · exact hbarred hB k e he

theorem touch (hsame : x.SameHolds y) (htopic : y.topic = x.topic)
    (hstate : y.shard.clientState = update x.shard.clientState p.key s)
    (hle : (x.shard.clientState p.key).nextExpected ≤ s.nextExpected)
    (hbar : ∀ m, x.shard.Bars x.topic (p :: rest) p.key m → s.nextExpected ≤ m)
    (hemitted : ∀ k j, (y.shard.clientEmittedTracker k).isEmitted j = true →
      (x.shard.clientEmittedTracker k).isEmitted j = true ∨ k = p.key ∧ j < s.nextExpected) :
    y.Serving B n i t₀ base d p.key rest := by
  refine ⟨h.setState hsame hstate (by rw [htopic]) (by rw [htopic]) (subset_cons_self _ _) hle hbar hemitted, ?_⟩
  rw [htopic, hstate, update_self]
  exact h.begun.trans hle

theorem touch_same (hsame : x.SameHolds y) (htopic : y.topic = x.topic)
    (hstate : y.shard.clientState = update x.shard.clientState p.key s)
    (htracker : y.shard.clientEmittedTracker = x.shard.clientEmittedTracker)
    (hnext : s.nextExpected = (x.shard.clientState p.key).nextExpected) : y.Serving B n i t₀ base d p.key rest :=
  h.touch hsame htopic hstate hnext.ge (fun _ hm => hnext.trans_le hm.1) fun _ _ hj => .inl (htracker ▸ hj)

theorem park (nowNs : Nat) (hgt : (x.shard.clientState p.key).nextExpected < p.batchSeq)
    (hrest : ∀ q ∈ rest, q.skipped = false ∧ (q.key = p.key → p.batchSeq ≤ q.batchSeq)) :
    (Pass.park nowNs p.key p x).Serving B n i t₀ base d p.key rest := by
  have hnext := (x.shard.clientState p.key).noteGap_nextExpected nowNs
  rw [Pass.park]
  split
  · split
    · exact h.touch_same ⟨rfl, rfl, rfl, rfl⟩ rfl rfl rfl hnext
    · split
      · exact h.touch_same ⟨rfl, rfl, rfl, rfl⟩ rfl rfl rfl hnext
      · exact h.touch_same ⟨rfl, rfl, rfl, rfl⟩ rfl rfl rfl hnext
  · split
    · exact h.touch_same ⟨rfl, rfl, rfl, rfl⟩ rfl rfl rfl hnext
    · refine ⟨h.insert rfl hgt hrest, ?_⟩
      rw [setState_self, hnext]
      exact h.begun

theorem emitNext (id : Nat) (hskip : p.skipped = false) (hseq : p.batchSeq = (x.shard.clientState p.key).nextExpected) :
    (Pass.emitNext p.key p.batchSeq id p x).Serving B n i t₀ base d p.key rest := by
  have hnext : ((x.shard.clientState p.key).markSequenced p.batchSeq).advanceNextExpected.nextExpected =
      p.batchSeq + 1 := by simp [hseq]
  have hle : (x.shard.clientState p.key).nextExpected ≤
      ((x.shard.clientState p.key).markSequenced p.batchSeq).advanceNextExpected.nextExpected := by omega
  have hbar : ∀ m, x.shard.Bars x.topic (p :: rest) p.key m →
      ((x.shard.clientState p.key).markSequenced p.batchSeq).advanceNextExpected.nextExpected ≤ m := by
    intro m hm
    have hne := (hm.2 p mem_cons_self rfl).2.2 hskip
    have hm := hm.1
    omega
  rw [Pass.emitNext]
  split
  · exact h.touch ⟨rfl, rfl, rfl, rfl⟩ rfl rfl hle hbar fun _ _ hj => .inl hj
  · refine h.touch ⟨rfl, rfl, rfl, rfl⟩ rfl rfl hle hbar fun k j hj => (isEmitted_of_markEmitted hj).imp_right ?_
    exact fun hnew => ⟨hnew.1, by omega⟩

theorem classifyOne (nowNs : Nat) (hskip : p.skipped = false)
    (hrest : ∀ q ∈ rest, q.skipped = false ∧ (q.key = p.key → p.batchSeq ≤ q.batchSeq)) :
    (Pass.classifyOne nowNs p.key p x).Serving B n i t₀ base d p.key rest := by
  have hself := (Function.update_eq_self p.key x.shard.clientState).symm
  rw [Pass.classifyOne]
  split
  · exact h.touch_same ⟨rfl, rfl, rfl, rfl⟩ rfl hself rfl rfl
  split
  · exact h.touch_same ⟨rfl, rfl, rfl, rfl⟩ rfl hself rfl rfl
  split
  next hemitted =>
    refine h.touch_same ⟨rfl, rfl, rfl, rfl⟩ rfl rfl rfl ?_
    -- what the tracker knows is below the frontier already
    rw [OptimizedClientState.skipPast_nextExpected]
    exact max_eq_left (h.emitted _ _ hemitted)
  split
  next hseq => exact h.emitNext _ hskip hseq
  rename_i hseq
  split
  · have hnext := (x.shard.clientState p.key).markSequenced_nextExpected p.batchSeq
    rw [Pass.dropLate]
    split
    · exact h.touch_same ⟨rfl, rfl, rfl, rfl⟩ rfl rfl rfl hnext
    · exact h.touch_same ⟨rfl, rfl, rfl, rfl⟩ rfl rfl rfl hnext
  next hlate => exact h.park nowNs ((Nat.not_lt.mp hlate).lt_of_ne' hseq) hrest

end Serving

namespace Guarded

variable {batches : List PendingBatch5} {s : OptimizedClientState}

theorem purgeFencedSession (h : x.Guarded B n i t₀ base d l) (hk : k.clientId % n = i) {topic : Topic}
    (hs : s.nextExpected = (x.shard.clientState k).nextExpected)
    (hget : ∀ k', k' ≠ k → topic.cxl.sessions.get k' = x.topic.cxl.sessions.get k')
    (hrecovered : topic.recoveredNextExpected = x.topic.recoveredNextExpected) :
    (Pass.purgeFencedSession P k { x with topic := topic, shard := x.shard.setState k s }).Guarded B n i t₀ base d
      l := by
  have hnext := nextExpected_setState hs
  have hretired := retired_purge P k { x with topic := topic, shard := x.shard.setState k s }
  have hlength : ((x.shard.holdBuffer k).map Prod.snd).length = (x.shard.holdBuffer k).length :=
    length_map ..
  refine { counted := ?_, delta := ?_, emitted := fun k' s hs => ?_, listed := fun k' hk' => ?_,
           outside := fun k' hk' => ?_, barred := fun hB k' e he => ?_ }
  · have hclear := h.counted.clear k
    rw [← hlength] at hclear
    exact hclear
  · have hold := h.delta
    have hle := h.counted.length_le k
    change base + (x.holdSizeDelta - ((x.shard.holdBuffer k).map Prod.snd).length) =
      ((x.shard.holdBufferSize - ((x.shard.holdBuffer k).map Prod.snd).length : Nat) : Int)
    rw [hlength]
    omega
  · refine lt_of_lt_of_eq ?_ (hnext k').symm
    rw [Pass.purgeFencedSession] at hs
    dsimp only at hs
    rw [update_apply] at hs
    split at hs
    · cases hs
    · exact h.emitted k' s hs
  · obtain ⟨hmem, hne⟩ := mem_filter.mp hk'
    refine (update_of_ne (of_decide_eq_true hne) ..).trans_ne ?_
    exact h.listed k' hmem
  · rw [hretired]
    exact (hget k' fun heq => hk' (heq ▸ hk)).trans (h.outside k' hk')
  · rw [Pass.purgeFencedSession] at he
    dsimp only at he
    rw [update_apply] at he
    split at he
    · cases he
    next hne =>
      obtain ⟨m, hm, hbar⟩ := h.barred hB k' e he
      refine ⟨m, hm, (hnext k').trans_le hbar.1, fun q hq hqk => ?_⟩
      rw [hretired]
      have hfrontier := Topic.recoveredFrontier_congr (hget k' hne) hrecovered
      exact hfrontier ▸ hbar.2 q hq hqk

theorem recordFence (h : x.Guarded B n i t₀ base d l) (hk : k.clientId % n = i) :
    (Pass.recordFence P k x).Guarded B n i t₀ base d l := by
  have hfence : ∀ hwm, ({ (x.shard.clientState k).fence with committedHwm := hwm } :
      OptimizedClientState).nextExpected = (x.shard.clientState k).nextExpected :=
    fun _ => OptimizedClientState.fence_nextExpected _
  have hself := (Function.update_eq_self k x.shard.clientState).symm
  rw [Pass.recordFence]
  dsimp only
  split
  · exact h
  rename_i hepoch
  split
  · exact h.setState ⟨rfl, rfl, rfl, rfl⟩ hself rfl rfl (List.Subset.refl l) (Nat.le_refl _)
      (fun _ hm => hm.1) fun _ _ hj => .inl hj
  rename_i table htable
  split
  · exact h.setState ⟨rfl, rfl, rfl, rfl⟩ rfl rfl rfl (List.Subset.refl l) (hfence _).ge
      (fun _ hm => (hfence _).trans_le hm.1) fun _ _ hj => .inl hj
  next table' hpublish =>
    have hne0 : (x.shard.clientState k).sessionEpoch ≠ 0 := by
      rintro hzero
      rw [hzero] at hepoch
      exact hepoch rfl
    have hget : ∀ k', k' ≠ k → table'.get k' = x.topic.cxl.sessions.get k' := by
      intro k' hne
      rw [(SessionTable.publish_eq_some hne0 hpublish).2.1 k' hne, (SessionTable.findOrCreate_eq_some htable).1]
    split
    · exact h.purgeFencedSession hk (hfence _) hget rfl
    · exact h.purgeFencedSession hk (hfence _) hget rfl

theorem targetedSkip (h : x.Guarded B n i t₀ base d (p :: rest)) (epoch : Nat) (hk : p.clientId % n = i)
    (hskip : p.skipped = true) : (Pass.targetedSkip P epoch p x).Guarded B n i t₀ base d rest := by
  let state := x.topic.reconstructClientState p.key
    { x.shard.clientState p.key with sessionEpoch := p.key.sessionEpoch, lastEpoch := epoch }
  have hnext : state.nextExpected = max (x.shard.clientState p.key).nextExpected (x.topic.recoveredFrontier p.key) :=
    x.topic.nextExpected_reconstruct p.key _
  have hbar : ∀ m, x.shard.Bars x.topic (p :: rest) p.key m → state.nextExpected ≤ m := fun m hm =>
    hnext.trans_le (max_le hm.1 (hm.2 p mem_cons_self rfl).1)
  have hle : (x.shard.clientState p.key).nextExpected ≤ state.nextExpected := hnext ▸ le_max_left _ _
  rw [Pass.targetedSkip]
  dsimp only
  split
  · refine recordFence ?_ hk
    exact h.setState ⟨rfl, rfl, rfl, rfl⟩ rfl rfl rfl (subset_cons_self _ _) hle hbar fun _ _ hj => .inl hj
  next hepoch =>
    have hzero : p.sessionEpoch = 0 := by
      have hmono : p.sessionEpoch ≤ state.sessionEpoch := x.topic.sessionEpoch_le_reconstruct p.key
        { x.shard.clientState p.key with sessionEpoch := p.key.sessionEpoch, lastEpoch := epoch }
      have hnot : ¬state.sessionEpoch ≠ 0 := fun hne => hepoch (decide_eq_true hne)
      omega
    have hpast : (state.skipPast p.batchSeq).nextExpected = max state.nextExpected (p.batchSeq + 1) :=
      OptimizedClientState.skipPast_nextExpected ..
    exact h.setState ⟨rfl, rfl, rfl, rfl⟩ rfl rfl rfl (subset_cons_self _ _) (hle.trans (hpast ▸ le_max_left _ _))
      (fun m hm => hpast.trans_le (max_le (hbar m hm) ((hm.2 p mem_cons_self rfl).2.1 hskip hzero)))
      fun _ _ hj => .inl hj

theorem mono (h : x.Guarded B n i t₀ base d l) (hl : l' ⊆ l) : x.Guarded B n i t₀ base d l' :=
  h.of_same ⟨rfl, rfl, rfl, rfl⟩ h.emitted (fun _ => rfl) fun _ _ hm => ⟨hm.1, fun q hq => hm.2 q (hl hq)⟩

theorem skipOne (h : x.Guarded B n i t₀ base d (p :: rest)) (epoch : Nat) (hk : p.clientId % n = i)
    (hskip : p.skipped = true) : (Pass.skipOne P epoch p x).Guarded B n i t₀ base d rest := by
  rw [Pass.skipOne]
  split
  · exact { h.targetedSkip epoch hk hskip with }
  · exact { h.mono (subset_cons_self _ _) with }

theorem classifyGroups (clock : PassClock) (epoch : Nat) (hskip : ∀ q ∈ batches, q.skipped = false)
    (hsorted : batches.Pairwise fun p q => q.key = p.key → p.batchSeq ≤ q.batchSeq) :
    ∀ (current : Option SessionKey) {x : Pass}, x.Guarded B n i t₀ base d batches →
      (∀ k, current = some k → x.topic.recoveredFrontier k ≤ (x.shard.clientState k).nextExpected) →
      (Pass.classifyGroups clock epoch current batches x).Guarded B n i t₀ base d [] := by
  induction batches with
  | nil => exact fun _ _ h _ => h
  | cons p rest ih =>
    intro current x h hbegun
    rw [pairwise_cons] at hsorted
    have hrest : ∀ q ∈ rest, q.skipped = false := fun q hq => hskip q (mem_cons_of_mem _ hq)
    have hserving : (if current = some p.key then x else Pass.beginSession epoch p.key x).Serving B n i t₀ base d
        p.key (p :: rest) := by
      split
      next hcurrent => exact ⟨h, hbegun _ hcurrent⟩
      · exact h.beginSession epoch mem_cons_self
    have hdone := hserving.classifyOne (clock.classifyNs p) (hskip p mem_cons_self)
      fun q hq => ⟨hrest q hq, hsorted.1 q hq⟩
    exact ih hrest hsorted.2 _ hdone.toGuarded fun k hk => Option.some.inj hk ▸ hdone.begun

end Guarded

structure Drains (k : SessionKey) (x y : Pass) : Prop where
  hold : ∀ k', k' ≠ k → y.shard.holdBuffer k' = x.shard.holdBuffer k'
  next : ∀ k', k' ≠ k → (y.shard.clientState k').nextExpected = (x.shard.clientState k').nextExpected
  clients : y.shard.clientsWithHeldBatches ⊆ x.shard.clientsWithHeldBatches
  sessions : y.topic.cxl.sessions = x.topic.cxl.sessions

theorem Drains.refl (x : Pass) : Drains k x x := ⟨fun _ _ => rfl, fun _ _ => rfl, List.Subset.refl _, rfl⟩

theorem Drains.trans {z : Pass} (h : Drains k x y) (h' : Drains k y z) : Drains k x z where
  hold k' hk := (h'.hold k' hk).trans (h.hold k' hk)
  next k' hk := (h'.next k' hk).trans (h.next k' hk)
  clients := List.Subset.trans h'.clients h.clients
  sessions := h'.sessions.trans h.sessions

namespace Tallied

variable {he : HoldEntry5}

theorem emitNext (h : x.Tallied base) (id : Nat) (p : PendingBatch5) :
    (Pass.emitNext k (x.shard.clientState k).nextExpected id p x).Tallied base := by
  have hnext : ∀ k' j, (x.shard.clientEmittedTracker k').isEmitted j = true ∨
      k' = k ∧ j = (x.shard.clientState k).nextExpected →
      j < ((x.shard.setState k ((x.shard.clientState k).markSequenced
        (x.shard.clientState k).nextExpected).advanceNextExpected).clientState k').nextExpected := by
    intro k' j hj
    by_cases hk : k' = k
    · subst hk
      rw [setState_self, OptimizedClientState.advanceNextExpected_nextExpected,
        OptimizedClientState.markSequenced_nextExpected]
      cases hj with
      | inl hold => exact Nat.lt_succ_of_lt (h.emitted k' j hold)
      | inr hnew => exact Nat.lt_succ_of_le hnew.2.le
    · rw [setState_of_ne hk]
      exact h.emitted k' j (hj.resolve_right fun hnew => hk hnew.1)
  rw [Pass.emitNext]
  split
  · exact h.of_same ⟨rfl, rfl, rfl, rfl⟩ fun k' j hj => hnext k' j (.inl hj)
  · exact h.of_same ⟨rfl, rfl, rfl, rfl⟩ fun k' j hj => hnext k' j (isEmitted_of_markEmitted hj)

theorem unhold (h : x.Tallied base) (hentries : Entries k (x.shard.holdBuffer k))
    (hhe : (x.shard.holdBuffer k).lookup (x.shard.clientState k).nextExpected = some he) :
    (x.unhold k).Tallied base := by
  have hlength := Assoc.length_filter_ne hentries.nodup hhe
  have hle := h.counted.length_le k
  refine { h with counted := ?_, delta := ?_ }
  · refine h.counted.set (h.counted.covered k fun hnil => ?_) ?_
    · rw [hnil] at hhe
      cases hhe
    · change x.shard.holdBufferSize - 1 + _ = _
      omega
  · have hdelta := h.delta
    change base + (x.holdSizeDelta - 1) = ((x.shard.holdBufferSize - 1 : Nat) : Int)
    omega

theorem drainOne (h : x.Tallied base) (hentries : Entries k (x.shard.holdBuffer k))
    (hhe : (x.shard.holdBuffer k).lookup (x.shard.clientState k).nextExpected = some he) :
    (Pass.drainOne P k he x).Tallied base ∧ Drains k x (Pass.drainOne P k he x) ∧
      (Pass.drainOne P k he x).shard.holdBuffer k =
        (x.shard.holdBuffer k).filter (·.1 ≠ (x.shard.clientState k).nextExpected) ∧
      ((Pass.drainOne P k he x).shard.clientState k).nextExpected = (x.shard.clientState k).nextExpected + 1 := by
  have hseq : he.batch.batchSeq = (x.shard.clientState k).nextExpected :=
    (hentries.keyed _ (Assoc.mem_of_lookup hhe)).2
  have heq : Pass.drainOne P k he x =
      Pass.emitNext k (x.shard.clientState k).nextExpected he.holdMeta.batchId he.released (x.unhold k) := by
    rw [Pass.drainOne, hseq]
    split
    next hemitted => exact absurd (h.emitted k _ hemitted) (lt_irrefl _)
    · rfl
  rw [heq]
  refine ⟨(h.unhold hentries hhe).emitNext .., ?_⟩
  rw [Pass.emitNext]
  split
  all_goals
    refine ⟨⟨fun k' hk => update_of_ne hk .., fun k' hk => ?_, List.Subset.refl _, rfl⟩, update_self .., ?_⟩
    · exact congrArg OptimizedClientState.nextExpected (update_of_ne hk ..)
    · exact (congrArg OptimizedClientState.nextExpected (update_self ..)).trans (by simp [Pass.unhold])

end Tallied

def Cleared (x : Pass) (k : SessionKey) : Prop :=
  ∀ e ∈ x.shard.holdBuffer k, (x.shard.clientState k).nextExpected < e.1

theorem cleared_of_nil (hnil : x.shard.holdBuffer k = []) : x.Cleared k := by
  intro e he
  rw [hnil] at he
  cases he

structure Drained (B : Prop) (base : Int) (k : SessionKey) (x y : Pass) : Prop
    extends y.Tallied base, Drains k x y where
  cleared : B → y.Cleared k

theorem Tallied.drainLoop (fuel : Nat) : ∀ {x : Pass}, x.Tallied base → Entries k (x.shard.holdBuffer k) →
    (B → ∀ e ∈ x.shard.holdBuffer k, (x.shard.clientState k).nextExpected ≤ e.1) →
    (x.shard.holdBuffer k).length ≤ fuel → Drained B base k x (Pass.drainLoop P k fuel x) := by
  induction fuel with
  | zero =>
    intro x h _ _ hfuel
    exact ⟨h, .refl x, fun _ => cleared_of_nil (eq_nil_of_length_eq_zero (Nat.le_zero.mp hfuel))⟩
  | succ fuel ih =>
    intro x h hentries hle hfuel
    rw [Pass.drainLoop]
    split
    next hnone =>
      refine ⟨h, .refl x, fun hB e he => (hle hB e he).lt_of_ne fun heq => ?_⟩
      exact Assoc.not_mem_of_lookup hnone (heq ▸ mem_map_of_mem he)
    next he hhe =>
      obtain ⟨h', hdrains, hhold, hnext⟩ := h.drainOne (P := P) hentries hhe
      have hlength := Assoc.length_filter_ne hentries.nodup hhe
      rw [← hhold] at hlength
      have hrest := ih h' (hhold ▸ hentries.filter _) (fun hB e hmem => by
        rw [hhold] at hmem
        obtain ⟨hmem, hne⟩ := mem_filter.mp hmem
        rw [hnext]
        exact (hle hB e hmem).lt_of_ne (Ne.symm (of_decide_eq_true hne))) (by omega)
      exact { hrest with toDrains := hdrains.trans hrest.toDrains }

theorem Drained.forget (h : Drained B base k x y) (hnil : y.shard.holdBuffer k = []) {z : Pass}
    (hz : z = { y with shard := { y.shard with
      clientsWithHeldBatches := y.shard.clientsWithHeldBatches.filter (· ≠ k) } }) :
    Drained B base k x z ∧ (k ∈ z.shard.clientsWithHeldBatches → z.shard.holdBuffer k ≠ []) := by
  subst hz
  refine ⟨{ h with counted := h.counted.forget hnil, clients := ?_ }, fun hmem => ?_⟩
  · exact fun k' hk' => h.clients (mem_of_mem_filter hk')
  · exact absurd rfl (of_decide_eq_true (mem_filter.mp hmem).2)

namespace Holding

theorem own (h : x.Holding B n i t₀ base d l) (hk : x.shard.holdBuffer k ≠ []) : k.clientId % n = i := by
  obtain ⟨e, he⟩ := exists_mem_of_ne_nil _ hk
  rw [← ((h.filed.entries k).keyed e he).1]
  exact (h.filed.held k e he).1.2

theorem of_moves (h : x.Holding B n i t₀ base d l) (hmoves : Moves P (x.shelf l) (y.shelf l'))
    (hy : y.Guarded B n i t₀ base d l') : y.Holding B n i t₀ base d l' :=
  ⟨hy, hmoves.invariant (fun _ _ hm hv => hv.move (fun _ => id) hm) h.filed⟩

theorem of_drained (h : x.Holding B n i t₀ base 1 []) (hy : Drained B base k x y)
    (hlisted : k ∈ y.shard.clientsWithHeldBatches → y.shard.holdBuffer k ≠ []) : y.Guarded B n i t₀ base 1 [] where
  toTallied := hy.toTallied
  listed k' hk' := by
    by_cases hk : k' = k
    · subst hk
      exact hlisted hk'
    · rw [hy.hold k' hk]
      exact h.listed k' (hy.clients hk')
  outside k' hk' := by
    rw [hy.sessions]
    exact h.outside k' hk'
  barred hB k' e he := by
    by_cases hk : k' = k
    · subst hk
      exact ⟨e.1, Nat.lt_succ_self _, (hy.cleared hB e he).le, nofun⟩
    · rw [hy.hold k' hk] at he
      obtain ⟨m, hm, hbar⟩ := h.barred hB k' e he
      exact ⟨m, hm, (hy.next k' hk).trans_le hbar.1, nofun⟩

theorem drainSession (h : x.Holding B n i t₀ base 1 []) (epoch : Nat) (k : SessionKey) :
    (Pass.drainSession P epoch x k).Holding B n i t₀ base 1 [] ∧
      Drained B base k x (Pass.drainSession P epoch x k) := by
  suffices hdrained : Drained B base k x (Pass.drainSession P epoch x k) ∧
      (k ∈ (Pass.drainSession P epoch x k).shard.clientsWithHeldBatches →
        (Pass.drainSession P epoch x k).shard.holdBuffer k ≠ []) from
    ⟨h.of_moves (moves_drainSession epoch) (h.of_drained hdrained.1 hdrained.2), hdrained.1⟩
  rw [Pass.drainSession]
  split
  next hempty =>
    have hnil := List.isEmpty_iff.mp hempty
    exact Drained.forget ⟨h.toTallied, .refl x, fun _ => cleared_of_nil hnil⟩ hnil rfl
  · let x' : Pass := { x with
      shard := x.shard.setState k { x.shard.clientState k with lastEpoch := epoch } }
    have hnext : ∀ k', (x'.shard.clientState k').nextExpected = (x.shard.clientState k').nextExpected :=
      nextExpected_setState rfl
    have hx' : x'.Tallied base := h.toTallied.of_same ⟨rfl, rfl, rfl, rfl⟩ fun k' j hj =>
      (h.emitted k' j hj).trans_eq (hnext k').symm
    have hle : B → ∀ e ∈ x'.shard.holdBuffer k, (x'.shard.clientState k).nextExpected ≤ e.1 := by
      intro hB e he
      obtain ⟨m, hm, hbar⟩ := h.barred hB k e he
      rw [hnext]
      exact hbar.1.trans (Nat.le_of_lt_succ hm)
    have hloop := hx'.drainLoop (P := P) _ (h.filed.entries k) hle (Nat.le_refl _)
    have hstart : Drains k x x' := ⟨fun _ _ => rfl, fun k' _ => hnext k', List.Subset.refl _, rfl⟩
    have hdrained : Drained B base k x _ := { hloop with toDrains := hstart.trans hloop.toDrains }
    dsimp only
    split
    · exact hdrained.forget (List.isEmpty_iff.mp ‹_›) rfl
    next hne => exact ⟨hdrained, fun _ hnil => hne (List.isEmpty_iff.mpr hnil)⟩

theorem drainSessions (epoch : Nat) (ks : List SessionKey) : ∀ {x : Pass}, x.Holding B n i t₀ base 1 [] →
    (ks.foldl (Pass.drainSession P epoch) x).Holding B n i t₀ base 1 [] ∧
      (B → ∀ k, k ∈ ks ∨ x.Cleared k → (ks.foldl (Pass.drainSession P epoch) x).Cleared k) := by
  induction ks with
  | nil => exact fun h => ⟨h, fun _ _ hk => hk.resolve_left not_mem_nil⟩
  | cons k ks ih =>
    intro x h
    obtain ⟨h', hdrained⟩ := h.drainSession (P := P) epoch k
    refine ⟨(ih h').1, fun hB k' hk' => (ih h').2 hB k' ?_⟩
    by_cases hkk : k' = k
    · exact .inr (hkk ▸ hdrained.cleared hB)
    · refine hk'.imp (fun hmem => (mem_cons.mp hmem).resolve_left hkk) fun hc e he => ?_
      rw [hdrained.hold k' hkk] at he
      exact (hdrained.next k' hkk).trans_lt (hc e he)

theorem drainHeld (h : x.Holding B n i t₀ base 1 []) (epoch : Nat) :
    (Pass.drainHeld P epoch x).Holding B n i t₀ base 0 [] := by
  obtain ⟨h', hcleared⟩ := h.drainSessions (P := P) epoch (P.iterate x.shard.clientsWithHeldBatches)
  refine ⟨{ h' with barred := fun hB k e he => ?_ }, h'.filed⟩
  have hk : (Pass.drainHeld P epoch x).Cleared k := by
    apply hcleared hB k
    by_cases hnil : x.shard.holdBuffer k = []
    · exact .inr (cleared_of_nil hnil)
    · exact .inl ((P.iterate_perm _).mem_iff.mpr (h.counted.covered k hnil))
  exact ⟨_, hk e he, Nat.le_refl _, nofun⟩

theorem nextExpected_sweep (nowNs leaseNs : Nat) (keys : List SessionKey) : ∀ sh : Level5ShardState,
    (∀ k, ((Pass.sweep nowNs leaseNs keys sh).1.clientState k).nextExpected = (sh.clientState k).nextExpected) ∧
      (Pass.sweep nowNs leaseNs keys sh).2 ⊆ keys := by
  induction keys with
  | nil => exact fun _ => ⟨fun _ => rfl, List.Subset.refl _⟩
  | cons k rest ih =>
    intro sh
    obtain ⟨gap, hgap⟩ := sweepSession_frame nowNs leaseNs sh k
    obtain ⟨hnext, hsub⟩ := ih (sh.setState k (Pass.sweepSession nowNs leaseNs sh k).1)
    rw [Pass.sweep]
    refine ⟨fun k' => (hnext k').trans (nextExpected_setState (by rw [hgap]) k'), ?_⟩
    dsimp only
    split
    · exact cons_subset_cons k hsub
    · exact subset_cons_of_subset k hsub

theorem fenceExpired (epoch : Nat) (expired : List SessionKey) (hown : ∀ k ∈ expired, k.clientId % n = i) :
    ∀ {x : Pass}, x.Guarded B n i t₀ base d l →
      (expired.foldl (Pass.fenceExpired P epoch) x).Guarded B n i t₀ base d l := by
  induction expired with
  | nil => exact fun h => h
  | cons k rest ih =>
    intro x h
    refine ih (fun k' hk' => hown k' (mem_cons_of_mem _ hk')) (Guarded.recordFence ?_ (hown k mem_cons_self))
    exact h.setState ⟨rfl, rfl, rfl, rfl⟩ rfl rfl rfl (List.Subset.refl l) (Nat.le_refl _) (fun _ hm => hm.1)
      fun _ _ hj => .inl hj

theorem expireHeld (h : x.Holding B n i t₀ base d l) (clock : PassClock) (epoch : Nat) :
    (Pass.expireHeld P clock epoch x).Holding B n i t₀ base d l := by
  refine h.of_moves (moves_expireHeld clock epoch) ?_
  obtain ⟨hnext, hsub⟩ := nextExpected_sweep clock.sweepNs
    (effectiveOrder5SessionFenceLeaseNs P.sessionLeaseNs clock.forceExpireActive)
    (P.iterate x.shard.clientsWithHeldBatches) x.shard
  have hframe := sweep_frame clock.sweepNs
    (effectiveOrder5SessionFenceLeaseNs P.sessionLeaseNs clock.forceExpireActive)
    (P.iterate x.shard.clientsWithHeldBatches) x.shard
  have hown : ∀ k ∈ (Pass.sweep clock.sweepNs
      (effectiveOrder5SessionFenceLeaseNs P.sessionLeaseNs clock.forceExpireActive)
      (P.iterate x.shard.clientsWithHeldBatches) x.shard).2, k.clientId % n = i := fun k hk =>
    h.own (h.listed k ((P.iterate_perm _).mem_iff.mp (hsub hk)))
  refine fenceExpired epoch _ hown ?_
  refine h.toGuarded.of_same ⟨?_, ?_, ?_, rfl⟩ (fun k j hj => ?_) (fun _ => rfl) fun k m hm => ?_
  · rw [hframe]
  · rw [hframe]
  · rw [hframe]
  · rw [hnext]
    rw [hframe] at hj
    exact h.emitted k j hj
  · exact ⟨(hnext k).trans_le hm.1, hm.2⟩

end Holding

theorem Guarded.clientGc (h : x.Guarded B n i t₀ base d l) (epoch : Nat) :
    Guarded B n i t₀ base d l { x with shard := x.shard.clientGc epoch } := by
  rw [Level5ShardState.clientGc]
  split
  · exact h
  refine { h with emitted := fun k j hj => ?_, barred := fun hB k e he => ?_ }
  · dsimp only at hj ⊢
    split at hj
    · cases hj
    next hkeep =>
      rw [if_neg hkeep]
      exact h.emitted k j hj
  · obtain ⟨m, hm, hbar⟩ := h.barred hB k e he
    refine ⟨m, hm, ?_, hbar.2⟩
    dsimp only
    split
    · exact Nat.zero_le m
    · exact hbar.1

theorem pairwise_sessionOrder (hsort : P.Sorts) (l : List PendingBatch5) :
    (P.sort sessionOrder l).Pairwise fun p q => q.key = p.key → p.batchSeq ≤ q.batchSeq := by
  refine (hsort sessionOrder l (fun a b hab => ?_) fun a b c hba hcb => ?_).imp fun {p q} hpq hkey => ?_
  all_goals simp only [sessionOrder, Bool.or_eq_true, Bool.and_eq_true, Bool.or_eq_false_iff, Bool.and_eq_false_iff,
    decide_eq_true_eq, decide_eq_false_iff_not, beq_iff_eq, beq_eq_false_iff_ne] at *
  · omega
  · omega
  · obtain ⟨hclient, hepoch⟩ : q.clientId = p.clientId ∧ q.sessionEpoch = p.sessionEpoch :=
      ⟨congrArg SessionKey.clientId hkey, congrArg SessionKey.sessionEpoch hkey⟩
    omega

theorem pairwise_batchSeq (hsort : P.Sorts) (l : List PendingBatch5) :
    (P.sort (fun a b => decide (a.batchSeq < b.batchSeq)) l).Pairwise
      fun p q => q.key = p.key → p.batchSeq ≤ q.batchSeq := by
  refine (hsort _ l (fun a b hab => ?_) fun a b c hba hcb => ?_).imp fun {p q} hpq _ => ?_
  all_goals simp only [decide_eq_true_eq, decide_eq_false_iff_not] at *
  · omega
  · omega
  · omega

theorem Holding.generalPath (hsort : P.Sorts) (h : x.Holding B n i t₀ base 1 l) (hskip : ∀ q ∈ l, q.skipped = false)
    (clock : PassClock) (epoch : Nat) : (Pass.generalPath P clock epoch l x).Holding B n i t₀ base 0 [] := by
  have hperm := P.sort_perm sessionOrder l
  have hclassified : (Pass.classifyGroups clock epoch none (P.sort sessionOrder l) x).Holding B n i t₀ base 1 [] := by
    refine h.of_moves (P := P)
      ((Move.moves (.reorder (v := x.shelf l) hperm)).trans (moves_classifyGroups clock epoch _ none x)) ?_
    exact Guarded.classifyGroups clock epoch (fun q hq => hskip q (hperm.mem_iff.mp hq)) (pairwise_sessionOrder hsort l)
      none (h.toGuarded.mono hperm.subset) nofun
  have hfirst := hclassified.drainHeld (P := P) epoch
  have hexpired := hfirst.expireHeld (P := P) clock epoch
  have hweak : (Pass.expireHeld P clock epoch (Pass.drainHeld P epoch
      (Pass.classifyGroups clock epoch none (P.sort sessionOrder l) x))).Holding B n i t₀ base 1 [] :=
    { hexpired with
      barred := fun hB k e he => (hexpired.barred hB k e he).imp fun _ hm => ⟨Nat.lt_succ_of_lt hm.1, hm.2⟩ }
  have hsecond := hweak.drainHeld (P := P) epoch
  rw [Pass.generalPath]
  dsimp only
  split
  · exact hsecond
  · refine ⟨Guarded.clientGc (x := creditTerminalized _) ?_ epoch, ?_⟩
    · exact { hsecond.toGuarded with }
    · rw [shelf_clientGc]
      exact hsecond.filed

theorem Holding.oneGroup (hsort : P.Sorts) (h : x.Holding B n i t₀ base 1 l) (hsize : x.shard.holdBufferSize = 0)
    (hskip : ∀ q ∈ l, q.skipped = false) (clock : PassClock) (epoch : Nat) :
    (Pass.oneGroup P clock epoch l x).Holding B n i t₀ base 0 [] := by
  have hperm := P.sort_perm (fun a b : PendingBatch5 => decide (a.batchSeq < b.batchSeq)) l
  have hempty : x.Guarded B n i t₀ base 0 l := { h with
    barred := fun _ k e he => by
      have hle := h.counted.length_le k
      rw [hsize] at hle
      rw [eq_nil_of_length_eq_zero (Nat.le_zero.mp hle)] at he
      cases he }
  refine ⟨?_, (moves_oneGroup clock epoch l).invariant (fun _ _ hm hv => hv.move (fun _ => id) hm) h.filed⟩
  exact (Guarded.classifyGroups clock epoch (fun q hq => hskip q (hperm.mem_iff.mp hq)) (pairwise_batchSeq hsort l)
    none (hempty.mono hperm.subset) nofun).clientGc epoch

theorem Holding.skipAll (epoch : Nat) {skips : List PendingBatch5} (hskips : ∀ p ∈ skips, p.skipped = true) :
    ∀ {x : Pass}, x.Holding B n i t₀ base d (skips ++ rest) →
      (skips.foldl (fun x p => Pass.skipOne P epoch p x) x).Holding B n i t₀ base d rest := by
  induction skips with
  | nil => exact fun h => h
  | cons p skips ih =>
    intro x h
    refine ih (fun q hq => hskips q (mem_cons_of_mem _ hq)) (h.of_moves (moves_skipOne epoch) ?_)
    exact h.toGuarded.skipOne epoch (h.filed.pending p mem_cons_self).2 (hskips p mem_cons_self)

theorem holding_start {t : Topic} {sh : Level5ShardState} (h : sh.HoldOk B n i) {input : List PendingBatch5}
    (hin : ∀ p ∈ input, p.clientId % n = i) (hu : B → sh.Unpassed t (input ++ sh.deferredLevel5)) :
    (start t sh (input ++ sh.deferredLevel5)).Holding B n i t sh.holdBufferSize 1 (input ++ sh.deferredLevel5) where
  counted := h.counted
  delta := Int.add_zero _
  emitted := h.emitted
  listed := h.listed
  outside _ _ := rfl
  barred hB k e he := hu hB k (h.counted.covered k (ne_nil_of_mem he)) e he
  filed := h.filed.start fun p hp => ⟨trivial, hin p hp⟩

theorem holding_shard (hsort : P.Sorts) (clock : PassClock) {t : Topic} {sh : Level5ShardState} (h : sh.HoldOk B n i)
    {input : List PendingBatch5} (hin : ∀ p ∈ input, p.clientId % n = i)
    (hu : B → sh.Unpassed t (input ++ sh.deferredLevel5)) :
    (processLevel5BatchesShard P clock t sh input).Holding B n i t sh.holdBufferSize 0 [] := by
  have hstart := holding_start h hin hu
  have hsplit := filter_append_perm (·.skipped) (input ++ sh.deferredLevel5)
  have hordered := hstart.of_moves (P := P) (Move.moves (.reorder (v := (start t sh
    (input ++ sh.deferredLevel5)).shelf (input ++ sh.deferredLevel5)) hsplit)) (hstart.toGuarded.mono hsplit.subset)
  have hskipped := Holding.skipAll (P := P) t.currentEpochForHold (fun p hp => (mem_filter.mp hp).2) hordered
  have hskip : ∀ q ∈ (input ++ sh.deferredLevel5).filter (!·.skipped), q.skipped = false := fun q hq =>
    Bool.not_eq_true' _ ▸ (mem_filter.mp hq).2
  rcases processLevel5BatchesShard_cases P clock t sh input with heq | ⟨hsize, _, heq⟩
  · rw [heq]
    exact hskipped.generalPath hsort hskip clock _
  · rw [heq]
    exact hskipped.oneGroup hsort hsize hskip clock _

theorem Holding.holdOk (h : x.Holding B n i t₀ base 0 []) : x.shard.HoldOk B n i where
  counted := h.counted
  emitted := h.emitted
  filed := h.filed.shard
  listed := h.listed
  above hB k e he := by
    obtain ⟨m, hm, hbar⟩ := h.barred hB k e he
    exact hbar.1.trans_lt hm

end Pass

namespace Topic

structure HoldOk (B : Prop) (P : Platform) (t : Topic) : Prop where
  shards : ∀ i, (t.shards i).HoldOk B P.numShards i
  total : t.order5TotalHoldSize = ∑ i ∈ Finset.range P.numShards, ((t.shards i).holdBufferSize : Int)

def Unpassed (P : Platform) (t : Topic) (level5 : List PendingBatch5) : Prop :=
  ∀ i < P.numShards,
    (t.shards i).Unpassed t (level5.filter (·.clientId % P.numShards = i) ++ (t.shards i).deferredLevel5)

structure Processing (B : Prop) (P : Platform) (t₀ : Topic) (n : Nat) (t : Topic) : Prop where
  ok : t.HoldOk B P
  shards : ∀ i, n ≤ i → t.shards i = t₀.shards i
  entries : ∀ k : SessionKey, n ≤ k.clientId % P.numShards → t.cxl.sessions.get k = t₀.cxl.sessions.get k
  recovered : t.recoveredNextExpected = t₀.recoveredNextExpected

variable {t t' : Topic} {level5 : List PendingBatch5}

theorem Processing.processShard (hsort : P.Sorts) (clock : PassClock) {s : Topic × List PendingBatch5}
    (h : Processing B P t₀ n s.1) (hn : n < P.numShards) (hu : B → t₀.Unpassed P level5) :
    Processing B P t₀ (n + 1) (processShard P clock level5 s n).1 := by
  let input := level5.filter (·.clientId % P.numShards = n)
  let x := processLevel5BatchesShard P clock s.1 (s.1.shards n) input
  have hin : ∀ p ∈ input, p.clientId % P.numShards = n := fun p hp =>
    of_decide_eq_true (mem_filter.mp hp).2
  have hunpassed : B → (s.1.shards n).Unpassed s.1 (input ++ (s.1.shards n).deferredLevel5) := by
    intro hB k hk e he
    rw [h.shards n (Nat.le_refl n)] at hk he ⊢
    obtain ⟨m, hm, hbar⟩ := hu hB n hn k hk e he
    refine ⟨m, hm, hbar.1, fun q hq hqk => ?_⟩
    have hown : q.clientId % P.numShards = n := by
      cases mem_append.mp hq with
      | inl hq => exact hin q hq
      | inr hq => exact (((h.shards n (Nat.le_refl n)) ▸ h.ok.shards n).filed.deferred q hq).2
    have hget := h.entries k (hqk ▸ hown.ge)
    rw [recoveredFrontier_congr hget h.recovered]
    exact hbar.2 q hq hqk
  have hx : x.Holding B P.numShards n s.1 _ 0 [] := Pass.holding_shard hsort clock (h.ok.shards n) hin hunpassed
  have hframe := Pass.frame_shard (P := P) clock s.1 (s.1.shards n) input
  have hshards : x.topic.shards = s.1.shards := (congrArg Topic.shards hframe :)
  have htotal : x.topic.order5TotalHoldSize = s.1.order5TotalHoldSize := (congrArg Topic.order5TotalHoldSize hframe :)
  have hrecovered : x.topic.recoveredNextExpected = s.1.recoveredNextExpected :=
    (congrArg Topic.recoveredNextExpected hframe :)
  refine ⟨⟨fun i => ?_, ?_⟩, fun i hi => ?_, fun k hk => ?_, hrecovered.trans h.recovered⟩
  · change (update x.topic.shards n x.shard i).HoldOk B P.numShards i
    rw [hshards]
    by_cases hi : i = n
    · subst hi
      rw [update_self]
      exact hx.holdOk
    · rw [update_of_ne hi]
      exact h.ok.shards i
  · change x.topic.order5TotalHoldSize + x.holdSizeDelta =
      ∑ i ∈ Finset.range P.numShards, ((update x.topic.shards n x.shard i).holdBufferSize : Int)
    have hmem := Finset.mem_range.mpr hn
    have hrest : ∀ i ∈ (Finset.range P.numShards).erase n,
        ((update s.1.shards n x.shard i).holdBufferSize : Int) = (s.1.shards i).holdBufferSize := fun i hi => by
      rw [update_of_ne (Finset.ne_of_mem_erase hi)]
    have hdelta := hx.delta
    rw [htotal, hshards, h.ok.total, ← Finset.add_sum_erase _ _ hmem, ← Finset.add_sum_erase _ _ hmem,
      Finset.sum_congr rfl hrest, update_self]
    omega
  · change update x.topic.shards n x.shard i = _
    rw [hshards, update_of_ne (Nat.ne_of_gt hi)]
    exact h.shards i (Nat.le_of_succ_le hi)
  · exact (hx.outside k (Nat.ne_of_gt hk)).trans (h.entries k (Nat.le_of_succ_le hk))

theorem HoldOk.process (hsort : P.Sorts) (h : t.HoldOk B P) (clock : PassClock)
    (hu : B → t.Unpassed P level5) :
    (processLevel5Batches P clock t level5).1.HoldOk B P := by
  have hrange : ∀ n ≤ P.numShards,
      Processing B P t n ((List.range n).foldl (Embarcadero.processShard P clock level5) (t, [])).1 := by
    intro n hn
    induction n with
    | zero => exact ⟨h, fun _ _ => rfl, fun _ _ => rfl, rfl⟩
    | succ n ih =>
      rw [range_succ, foldl_append, foldl_cons, foldl_nil]
      exact (ih (Nat.le_of_succ_le hn)).processShard hsort clock hn hu
  rw [processLevel5Batches_eq]
  split
  · exact h
  · exact (hrange P.numShards (Nat.le_refl _)).ok

theorem holds_of_step {e : Event} (he : e.classifies = false) (hcrash : ∀ n, e ≠ .crash n)
    (hstep : step P t e = some t') : t'.shards = t.shards ∧ t'.order5TotalHoldSize = t.order5TotalHoldSize := by
  cases e with
  | crash n => exact absurd rfl (hcrash n)
  | epoch | idleTick | finalDrain => cases he
  | commit =>
    obtain ⟨f, -, rfl⟩ := Option.map_eq_some_iff.mp hstep
    have hshape := commitEpoch_shape P t f
    exact ⟨(congrArg Topic.shards hshape :), (congrArg Topic.order5TotalHoldSize hshape :)⟩
  | slotWrite | tail | admitSession k | bumpControlEpoch | updateCommittedSeq n =>
    cases hstep
    exact ⟨rfl, rfl⟩
  | takeFenceNote _ | ackEpochCheck _ _ | ackRelay _ =>
    obtain ⟨_, _, _, _, rfl⟩ := relays_of_step rfl hstep
    exact ⟨rfl, rfl⟩

theorem HoldOk.of_shards (h : t.HoldOk B P) (hshards : t'.shards = t.shards)
    (htotal : t'.order5TotalHoldSize = t.order5TotalHoldSize) : t'.HoldOk B P where
  shards := hshards ▸ h.shards
  total := by
    rw [htotal, hshards]
    exact h.total

theorem holdOk_empty (hshards : t.shards = fun _ => {}) (htotal : t.order5TotalHoldSize = 0) : t.HoldOk B P where
  shards i := by
    rw [hshards]
    exact {
      counted := .empty
      emitted := by rintro _ _ ⟨⟩
      filed := ⟨by rintro _ _ ⟨⟩, by rintro _ ⟨⟩, fun _ => ⟨by rintro _ ⟨⟩, .nil⟩, by rintro _ ⟨⟩⟩
      listed := by rintro _ ⟨⟩
      above := by rintro _ _ _ ⟨⟩ }
  total := by
    rw [htotal, hshards]
    exact Finset.sum_const_zero.symm

def HoldsBack (P : Platform) (t : Topic) (e : Event) : Prop :=
  e.classifies = true → t.Unpassed P (t.level5 e.batchList)

theorem HoldOk.step (hsort : P.Sorts) (h : t.HoldOk B P) {e : Event} (hback : B → t.HoldsBack P e)
    (hstep : Embarcadero.step P t e = some t') : t'.HoldOk B P := by
  by_cases hcrash : ∃ n, e = .crash n
  · obtain ⟨n, rfl⟩ := hcrash
    cases hstep
    exact holdOk_empty rfl rfl
  cases he : e.classifies with
  | true =>
    obtain ⟨clock, t₁, f, hx, rfl⟩ := extracts_of_step he hstep
    have hstart := hx.start
    have hshards : t₁.shards = t.shards := by rw [hstart]
    have ht₁ : t₁.HoldOk B P := h.of_shards hshards (by rw [hstart])
    have hu : B → t₁.Unpassed P (t.level5 e.batchList) := by
      intro hB i hi
      rw [hstart]
      exact hback hB he i hi
    exact (ht₁.process hsort clock hu).of_shards rfl rfl
  | false =>
    obtain ⟨hshards, htotal⟩ := holds_of_step he (fun n heq => hcrash ⟨n, heq⟩) hstep
    exact h.of_shards hshards htotal

end Topic

instance (t : Topic) (sh : Level5ShardState) (level5 : List PendingBatch5) (k : SessionKey) (m : Nat) :
    Decidable (sh.Bars t level5 k m) := inferInstanceAs (Decidable (_ ∧ ∀ _ ∈ _, _ → _))

instance (t : Topic) (sh : Level5ShardState) (level5 : List PendingBatch5) : Decidable (sh.Unpassed t level5) :=
  inferInstanceAs (Decidable (∀ _ ∈ _, ∀ _ ∈ _, ∃ _ < _, _))

instance (P : Platform) (t : Topic) (e : Event) : Decidable (t.HoldsBack P e) :=
  inferInstanceAs (Decidable (_ = true → ∀ _ < _, _))

/-- In every run the counters and the list of sessions agree with the hold buffers; if no step carries a session past
what it holds, everything held is above the frontier of its session. -/
theorem hold_buffer_consistent (P : Platform) (hsort : P.Sorts) {es : List Event} {t : Topic}
    (h : Runs.Along (step P) (fun _ _ => True) (.fresh P) es t) :
    (∀ i < P.numShards,
      (t.shards i).clientsWithHeldBatches.Nodup ∧
      (∀ k, k ∈ (t.shards i).clientsWithHeldBatches ↔ (t.shards i).holdBuffer k ≠ []) ∧
      (t.shards i).holdBufferSize =
        ((t.shards i).clientsWithHeldBatches.map fun k => ((t.shards i).holdBuffer k).length).sum ∧
      (Runs.Along (step P) (Topic.HoldsBack P) (.fresh P) es t →
        ∀ k, ∀ e ∈ (t.shards i).holdBuffer k, ((t.shards i).clientState k).nextExpected < e.1)) ∧
    t.order5TotalHoldSize = ∑ i ∈ Finset.range P.numShards, ((t.shards i).holdBufferSize : Int) := by
  have hok : t.HoldOk False P := h.invariant (fun _ _ _ _ hstep hs => hs.step hsort False.elim hstep)
    (Topic.holdOk_empty rfl rfl)
  refine ⟨fun i _ => ⟨(hok.shards i).counted.nodup, fun k => ⟨(hok.shards i).listed k,
    (hok.shards i).counted.covered k⟩, (hok.shards i).counted.size, fun hback => ?_⟩, hok.total⟩
  have habove : t.HoldOk True P := hback.invariant (fun _ _ _ hk hstep hs => hs.step hsort (fun _ => hk) hstep)
    (Topic.holdOk_empty rfl rfl)
  exact (habove.shards i).above trivial

theorem Platform.small_sorts : Platform.small.Sorts := by
  intro α lt l hasymm htrans
  have htotal : Std.Total fun a b => (!lt b a) = true := ⟨fun a b => by
    cases hab : lt a b with
    | false => exact .inr rfl
    | true => exact .inl (by rw [hasymm a b hab]; rfl)⟩
  have htrans' : IsTrans α fun a b => (!lt b a) = true := ⟨fun a b c hba hcb => by
    rw [Bool.not_eq_true'] at hba hcb ⊢
    exact htrans a b c hba hcb⟩
  have hsorted := pairwise_insertionSort (fun a b => (!lt b a) = true) l
  exact hsorted.imp fun {a b} hab => Bool.not_eq_true' _ ▸ hab

def retransmittedRun : List Event :=
  [.epoch [scanSlot 0 0 1] (scenarioClock 1), .commit, .tail,
    .epoch [scanSlot 1 0 1, scanSlot 0 1 2] (scenarioClock 2)]

theorem hold_buffer_consistent_retransmittedRun :
    ∃ t, Runs.Along (step .small) (Topic.HoldsBack .small) (.fresh .small) retransmittedRun t ∧
      ((t.shards 0).holdBuffer ⟨7, 1⟩).map (·.1) = [1, 2] ∧
      (t.shards 0).holdBufferSize =
        ((t.shards 0).clientsWithHeldBatches.map fun k => ((t.shards 0).holdBuffer k).length).sum ∧
      ∀ k, ∀ e ∈ (t.shards 0).holdBuffer k, ((t.shards 0).clientState k).nextExpected < e.1 := by
  obtain ⟨t, hrun, ht⟩ := Runs.exists_along_of_exec (K := Topic.HoldsBack .small)
    (f := fun t : Topic => ((t.shards 0).holdBuffer ⟨7, 1⟩).map (·.1))
    (show (Runs.exec (step .small) _ (.fresh .small) retransmittedRun).map _ = some [1, 2] by decide +kernel)
  have hall := (hold_buffer_consistent .small Platform.small_sorts (hrun.mono fun _ _ _ => trivial)).1 0 (by decide)
  exact ⟨t, hrun, ht, hall.2.2.1, hall.2.2.2 hrun⟩

def overtakenHoldRun : List Event :=
  [.epoch [scanSlot 0 0 1] (scenarioClock 1), .commit, .tail,
    .epoch [scanSlot 0 1 0, scanSlot 1 0 1] (scenarioClock 2)]

def skippedHoldRun : List Event :=
  [.epoch [{ scanSlot 0 0 1 with sessionEpoch := 0 }] (scenarioClock 1), .commit, .tail,
    .epoch [{ scanSlot 0 1 2 with sessionEpoch := 0, numMsg := 0, skipped := true }] (scenarioClock 2)]

/-- Either way batch 1 stays in the hold buffer, below the frontier. -/
theorem hold_buffer_stranded :
    (∃ t, Runs.Along (step .small) (fun _ _ => True) (.fresh .small) overtakenHoldRun t ∧
      ((t.shards 0).holdBuffer ⟨7, 1⟩).map (·.1) = [1] ∧ ((t.shards 0).clientState ⟨7, 1⟩).nextExpected = 2) ∧
    ∃ t, Runs.Along (step .small) (fun _ _ => True) (.fresh .small) skippedHoldRun t ∧
      ((t.shards 0).holdBuffer ⟨7, 0⟩).map (·.1) = [1] ∧ ((t.shards 0).clientState ⟨7, 0⟩).nextExpected = 3 := by
  have hstranded : ∀ es k m, (Runs.exec (step .small) (fun _ _ => True) (.fresh .small) es).map (fun t =>
      (((t.shards 0).holdBuffer k).map (·.1), ((t.shards 0).clientState k).nextExpected)) = some ([1], m) →
      ∃ t, Runs.Along (step .small) (fun _ _ => True) (.fresh .small) es t ∧
        ((t.shards 0).holdBuffer k).map (·.1) = [1] ∧ ((t.shards 0).clientState k).nextExpected = m :=
    fun es k m hexec => Runs.exists_of_exec _ _ hexec fun t _ ht => Prod.mk.inj ht
  exact ⟨hstranded _ ⟨7, 1⟩ 2 (by decide +kernel), hstranded _ ⟨7, 0⟩ 3 (by decide +kernel)⟩

end Embarcadero
