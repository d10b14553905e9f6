import Embarcadero.Custody

namespace Embarcadero

open Function (update update_apply)
open List
open Embarcadero.Shelf

def messagesOf (b : Nat) (l : List PendingBatch5) : Nat :=
  (l.map fun p => if p.brokerId = b then p.numMsg else 0).sum

section Messages

variable {b : Nat} {l l' : List PendingBatch5}

theorem messagesOf_cons (b : Nat) (p : PendingBatch5) (l : List PendingBatch5) :
    messagesOf b (p :: l) = messagesOf b [p] + messagesOf b l := by
  rw [messagesOf, map_cons, sum_cons]
  rfl

theorem messagesOf_append (b : Nat) (l l' : List PendingBatch5) :
    messagesOf b (l ++ l') = messagesOf b l + messagesOf b l' := by
  rw [messagesOf, map_append, sum_append]
  rfl

theorem messagesOf_perm (h : l.Perm l') : messagesOf b l = messagesOf b l' :=
  (h.map _).sum_nat

theorem messagesOf_sublist (h : l.Sublist l') : messagesOf b l ≤ messagesOf b l' := by
  induction h with
  | slnil => exact Nat.le_refl _
  | cons p _ ih =>
    rw [messagesOf_cons]
    exact ih.trans (Nat.le_add_left _ _)
  | cons_cons p _ ih =>
    rw [messagesOf_cons b p, messagesOf_cons b p]
    exact Nat.add_le_add_left ih _

end Messages

variable {P : Platform} {v w : Shelf} {b n : Nat} {t : Topic} {sh : Level5ShardState}

def Shelf.Unparked (b n : Nat) (v : Shelf) : Prop :=
  (∃ p ∈ v.ready, p.isHeldMarker = true) ∨ (∀ k, v.held k = []) ∧
      messagesOf b v.pending + messagesOf b v.deferred + messagesOf b v.ready ≤ n

theorem Shelf.Unparked.move (h : v.Unparked b n) (hm : Move P v w) : w.Unparked b n := by
  have hmarker {l : List PendingBatch5} (hp : ∃ p ∈ v.ready, p.isHeldMarker = true) :
      ∃ p ∈ v.ready ++ l, p.isHeldMarker = true :=
    hp.imp fun _ hp => hp.imp_left (mem_append_left _)
  cases hm with
  | reorder hl => exact h.imp_right fun h => ⟨h.1, (messagesOf_perm hl).symm ▸ h.2⟩
  | drop hp | block hp =>
    refine h.imp_right fun h => ⟨h.1, ?_⟩
    have hload := h.2
    rw [hp, messagesOf_cons] at hload
    dsimp only
    omega
  | emit hp =>
    refine h.imp hmarker fun h => ⟨h.1, ?_⟩
    have hload := h.2
    rw [hp, messagesOf_cons] at hload
    dsimp only
    rw [messagesOf_append]
    omega
  | defer hp =>
    refine h.imp_right fun h => ⟨h.1, ?_⟩
    have hload := h.2
    rw [hp, messagesOf_cons] at hload
    dsimp only
    rw [messagesOf_append]
    omega
  | hold nowNs hp hnew =>
    exact .inl ⟨Pass.heldMarker _, mem_append_right _ mem_cons_self, rfl⟩
  | release hhe =>
    refine h.imp hmarker fun h => ?_
    rw [h.1] at hhe
    cases hhe
  | discard hhe | retire hhe =>
    refine h.imp_right fun h => ?_
    rw [h.1] at hhe
    cases hhe
  | @purge k retired hretired =>
    refine h.imp_right fun h => ⟨fun k' => ?_, ?_⟩
    · dsimp only
      rw [update_apply, h.1 k', ite_self]
    · have hdef : messagesOf b (v.deferred.filter (·.key ≠ k)) ≤ messagesOf b v.deferred :=
        messagesOf_sublist filter_sublist
      have hload := h.2
      dsimp only
      omega

structure Level5ShardState.Quiet (sh : Level5ShardState) : Prop where
  held : ∀ k, sh.holdBuffer k = []
  deferred : sh.deferredLevel5 = []
  backpressured : sh.backpressuredLevel5Slots = []

def Topic.Quiet (t : Topic) : Prop := ∀ i, (t.shards i).Quiet

theorem Level5ShardState.Quiet.shard (h : sh.Quiet) (clock : PassClock) (t : Topic) (input : List PendingBatch5)
    (b : Nat) : ((processLevel5BatchesShard P clock t sh input).shelf []).Unparked b (messagesOf b input) := by
  have hmoves := Pass.moves_shard (P := P) clock t sh input
  rw [h.deferred, append_nil] at hmoves
  exact hmoves.invariant (fun _ _ hm hv => hv.move hm) (.inr ⟨h.held, Nat.le_refl _⟩)

theorem messagesOf_filter_succ (b n : Nat) (f : PendingBatch5 → Nat) (l : List PendingBatch5) :
    messagesOf b (l.filter (f · < n + 1)) = messagesOf b (l.filter (f · < n)) + messagesOf b (l.filter (f · = n)) := by
  have hsplit : (l.filter (f · < n) ++ l.filter (f · = n)).Perm (l.filter (f · < n + 1)) := by
    have hperm := filter_append_perm (f · < n) (l.filter (f · < n + 1))
    rw [filter_filter, filter_filter] at hperm
    convert hperm using 3
    · funext p
      grind
    · funext p
      grind
  rw [← messagesOf_perm hsplit, messagesOf_append]

def Topic.ParksNothing (P : Platform) (t : Topic) (ready : List PendingBatch5) : Prop :=
  (∀ p ∈ ready, p.isHeldMarker = false) ∧
    ∀ i < P.numShards, (t.shards i).deferredLevel5 = [] ∧ (t.shards i).backpressuredLevel5Slots = []

instance (P : Platform) (t : Topic) (ready : List PendingBatch5) : Decidable (t.ParksNothing P ready) :=
  inferInstanceAs (Decidable (_ ∧ _))

theorem Topic.Quiet.foldl_processShard (h : t.Quiet) (clock : PassClock) (level5 : List PendingBatch5)
    (b n : Nat) (hn : n ≤ P.numShards) :
    let s := (List.range n).foldl (processShard P clock level5) (t, [])
    (∀ i, n ≤ i → s.1.shards i = t.shards i) ∧ ((∃ p ∈ s.2, p.isHeldMarker = true) ∨
        (∀ i k, (s.1.shards i).holdBuffer k = []) ∧
          messagesOf b s.2 ≤ messagesOf b (level5.filter (·.clientId % P.numShards < n))) := by
  induction n with
  | zero => exact ⟨fun _ _ => rfl, .inr ⟨fun i => (h i).held, Nat.zero_le _⟩⟩
  | succ n ih =>
    rw [range_succ, foldl_append, foldl_cons, foldl_nil]
    obtain ⟨hrest, hdone⟩ := ih (Nat.le_of_succ_le hn)
    generalize (List.range n).foldl (processShard P clock level5) (t, []) = s at hrest hdone
    have hshards := congrArg Topic.shards (Pass.frame_shard (P := P) clock s.1 (s.1.shards n)
      (level5.filter (·.clientId % P.numShards = n)))
    dsimp only [Topic.frame] at hshards
    have hquiet : (s.1.shards n).Quiet := hrest n (Nat.le_refl _) ▸ h n
    have hnew := hquiet.shard (P := P) clock s.1 (level5.filter (·.clientId % P.numShards = n)) b
    rw [processShard]
    dsimp only
    rw [hshards]
    refine ⟨fun i hi => ?_, ?_⟩
    · rw [Function.update_of_ne (by omega)]
      exact hrest i (by omega)
    · cases hdone with
      | inl hmarker =>
        exact .inl (hmarker.imp fun p hp => hp.imp_left (mem_append_left _))
      | inr hdone =>
        refine hnew.imp (fun hmarker => ?_) fun hnew => ⟨?_, ?_⟩
        · exact hmarker.imp fun p hp => hp.imp_left (mem_append_right _)
        · exact (Function.forall_update_iff s.1.shards fun _ sh => ∀ k, sh.holdBuffer k = []).mpr
            ⟨hnew.1, fun j _ => hdone.1 j⟩
        · rw [messagesOf_append, messagesOf_filter_succ]
          exact Nat.add_le_add hdone.2 ((Nat.le_add_left _ _).trans hnew.2)

theorem Topic.Quiet.process (h : t.Quiet) (clock : PassClock) (level5 : List PendingBatch5)
    (hpark : (processLevel5Batches P clock t level5).1.ParksNothing P (processLevel5Batches P clock t level5).2) :
    (processLevel5Batches P clock t level5).1.Quiet ∧
      ∀ b, messagesOf b (processLevel5Batches P clock t level5).2 ≤ messagesOf b level5 := by
  rw [processLevel5Batches_eq] at hpark ⊢
  split
  · exact ⟨h, fun b => Nat.zero_le _⟩
  next hx =>
    rw [if_neg hx] at hpark
    have hfold := fun b => h.foldl_processShard clock level5 b P.numShards (Nat.le_refl _)
    refine ⟨fun i => ?_, fun b => ?_⟩
    · obtain ⟨hrest, hmarker | hdone⟩ := hfold 0
      · obtain ⟨p, hp, hm⟩ := hmarker
        exact absurd (hpark.1 p hp) (hm ▸ Bool.noConfusion)
      · cases Nat.lt_or_ge i P.numShards with
        | inl hi => exact ⟨hdone.1 i, (hpark.2 i hi).1, (hpark.2 i hi).2⟩
        | inr hi => exact hrest i hi ▸ h i
    · obtain ⟨-, hmarker | hdone⟩ := hfold b
      · obtain ⟨p, hp, hm⟩ := hmarker
        exact absurd (hpark.1 p hp) (hm ▸ Bool.noConfusion)
      · exact hdone.2.trans (messagesOf_sublist filter_sublist)

def HoldBatchMetadata.messageEnd (m : HoldBatchMetadata) : Nat := m.startLogicalOffset + m.numMsg

def Level5ShardState.Within (frontier : Nat → Nat) (sh : Level5ShardState) : Prop :=
  ∀ b, sh.cvLogicalOnlyCumulative b ≤ frontier b

def PendingBatch5.Within (frontier : Nat → Nat) (p : PendingBatch5) : Prop :=
  p.cachedMeta.messageEnd ≤ frontier p.brokerId

namespace Pass

variable {frontier : Nat → Nat} {x : Pass} {k : SessionKey} {p : PendingBatch5}
  {l : List PendingBatch5}

theorem within_accumulate (sh : Level5ShardState) {m : HoldBatchMetadata} (h : sh.Within frontier)
    (hm : m.messageEnd ≤ frontier m.brokerId) : (sh.accumulateLogicalOnly m).Within frontier := by
  intro b
  rw [Level5ShardState.accumulateLogicalOnly]
  dsimp only
  split
  · rw [update_apply]
    split
    next hb =>
      rw [hb]
      exact max_le (h _) hm
    · exact h b
  · exact h b

theorem within_emitNext (seq id : Nat) (h : x.shard.Within frontier) :
    (emitNext k seq id p x).shard.Within frontier := by
  rw [emitNext]
  split
  · exact h
  · exact h

theorem within_dropLate (h : x.shard.Within frontier) (hp : p.Within frontier) :
    (dropLate k p x).shard.Within frontier := by
  rw [dropLate]
  split
  · exact h
  · exact within_accumulate (Level5ShardState.checkAndInsertBatchId _ _).2 h hp

theorem within_park (nowNs : Nat) (h : x.shard.Within frontier) : (park nowNs k p x).shard.Within frontier := by
  rw [park]
  split
  · split
    · exact h
    · split
      · exact h
      · exact h
  · split
    · exact h
    · exact h

theorem within_classifyOne (nowNs : Nat) (h : x.shard.Within frontier) (hp : p.Within frontier) :
    (classifyOne nowNs k p x).shard.Within frontier := by
  rw [classifyOne]
  split
  · exact within_accumulate _ h hp
  · split
    · exact within_accumulate _ h hp
    · split
      · exact within_accumulate (x.shard.setState k _) h hp
      · split
        · exact within_emitNext _ _ h
        · split
          · exact within_dropLate h hp
          · exact within_park nowNs h

theorem within_classifyGroups (clock : PassClock) (epoch : Nat) :
    ∀ (current : Option SessionKey) {x : Pass}, x.shard.Within frontier →
      (∀ p ∈ l, p.Within frontier) →
      (classifyGroups clock epoch current l x).shard.Within frontier := by
  induction l with
  | nil => exact fun _ _ h _ => h
  | cons p rest ih =>
    intro current x h hl
    rw [classifyGroups]
    apply ih _ _ fun q hq => hl q (mem_cons_of_mem _ hq)
    apply within_classifyOne _ _ (hl p mem_cons_self)
    split
    · exact h
    · exact h

theorem within_foldl {α : Type} {f : Pass → α → Pass} {as : List α}
    (hf : ∀ x, ∀ a ∈ as, x.shard.Within frontier → (f x a).shard.Within frontier) :
    ∀ {x : Pass}, x.shard.Within frontier → (as.foldl f x).shard.Within frontier := by
  induction as with
  | nil => exact fun h => h
  | cons a as ih =>
    exact fun h => ih (fun x a' ha' => hf x a' (mem_cons_of_mem _ ha')) (hf _ a mem_cons_self h)

theorem within_recordFence (h : x.shard.Within frontier) : (recordFence P k x).shard.Within frontier := by
  rw [recordFence]
  dsimp only
  split
  · exact h
  · split
    · exact h
    · split
      · exact h
      · exact h

theorem within_skipAll (frontier : Nat → Nat) (epoch : Nat) (level5 : List PendingBatch5)
    (h : x.shard.Within frontier) :
    (skipAll P epoch level5 x).shard.Within frontier := by
  refine within_foldl (fun x p _ hx => ?_) h
  rw [skipOne]
  dsimp only
  split
  · rw [targetedSkip]
    dsimp only
    split
    · exact within_recordFence (x := { x with shard := x.shard.setState p.key _ }) hx
    · exact hx
  · exact hx

variable {S : PendingBatch5 → Prop}

theorem within_drainOne {he : HoldEntry5} (h : x.shard.Within frontier)
    (hhe : he.holdMeta.messageEnd ≤ frontier he.holdMeta.brokerId) : (drainOne P k he x).shard.Within frontier := by
  rw [drainOne]
  dsimp only
  split
  · exact within_accumulate (Level5ShardState.setState _ k _) h hhe
  · exact within_emitNext _ _ h

theorem within_drainLoop (hS : ∀ p, S p → p.Within frontier) (fuel : Nat) : ∀ {x : Pass},
    x.shard.Within frontier → (x.shelf l).From S → (drainLoop P k fuel x).shard.Within frontier := by
  induction fuel with
  | zero => exact fun h _ => h
  | succ fuel ih =>
    intro x h hfrom
    rw [drainLoop]
    split
    · exact h
    next he hhe =>
      have hmem := hfrom.held k _ (Assoc.mem_of_lookup hhe)
      refine ih (within_drainOne h ?_) (hfrom.move (move_drainOne hhe))
      rw [hmem.2]
      exact hS _ hmem.1

theorem within_drainHeld (hS : ∀ p, S p → p.Within frontier) (epoch : Nat) (h : x.shard.Within frontier)
    (hfrom : (x.shelf l).From S) : (drainHeld P epoch x).shard.Within frontier := by
  rw [drainHeld]
  generalize P.iterate x.shard.clientsWithHeldBatches = ks
  induction ks generalizing x with
  | nil => exact h
  | cons k ks ih =>
    refine ih ?_ ((moves_drainSession (P := P) epoch).invariant (fun _ _ hm hv => hv.move hm) hfrom)
    rw [drainSession]
    split
    · exact h
    · dsimp only
      have hloop := within_drainLoop (P := P) (k := k) hS (x.shard.holdBuffer k).length
        (x := { x with shard := x.shard.setState k { x.shard.clientState k with lastEpoch := epoch } }) h hfrom
      split
      · exact hloop
      · exact hloop

theorem within_expireHeld (clock : PassClock) (epoch : Nat) (h : x.shard.Within frontier) :
    (expireHeld P clock epoch x).shard.Within frontier := by
  rw [expireHeld]
  refine within_foldl (fun x k _ hx => ?_) ?_
  · exact within_recordFence (x := { x with shard := x.shard.setState k _ }) hx
  · rw [sweep_frame]
    exact h

theorem within_clientGc (epoch : Nat) (h : sh.Within frontier) : (sh.clientGc epoch).Within frontier := by
  rw [Level5ShardState.clientGc]
  split
  · exact h
  · exact h

theorem within_generalPath (hS : ∀ p, S p → p.Within frontier) (clock : PassClock) (epoch : Nat)
    (h : x.shard.Within frontier) (hfrom : (x.shelf l).From S) :
    (generalPath P clock epoch l x).shard.Within frontier := by
  have hperm := P.sort_perm sessionOrder l
  have hclass := within_classifyGroups (l := P.sort sessionOrder l) clock epoch none h
    fun p hp => hS p (hfrom.pending p (hperm.mem_iff.mp hp))
  have hfrom₁ := (((Move.reorder (P := P) hperm).moves).trans
    (moves_classifyGroups clock epoch _ none x)).invariant (fun _ _ hm hv => hv.move hm) hfrom
  have hdrain := within_drainHeld (P := P) hS epoch hclass hfrom₁
  have hfrom₂ := ((moves_drainHeld (P := P) epoch).trans (moves_expireHeld clock epoch)).invariant
    (fun _ _ hm hv => hv.move hm) hfrom₁
  have hend := within_drainHeld (P := P) hS epoch (within_expireHeld clock epoch hdrain) hfrom₂
  rw [generalPath]
  dsimp only
  split
  · exact hend
  · exact within_clientGc epoch hend

theorem within_shard (hS : ∀ p, S p → p.Within frontier) (clock : PassClock) (t : Topic)
    (sh : Level5ShardState) (input : List PendingBatch5)
    (hfrom : ((start t sh (input ++ sh.deferredLevel5)).shelf (input ++ sh.deferredLevel5)).From S) :
    (processLevel5BatchesShard P clock t sh input).shard.Within frontier := by
  have hskips := within_skipAll (P := P) frontier t.currentEpochForHold
    (input ++ sh.deferredLevel5) (x := start t sh (input ++ sh.deferredLevel5)) fun _ => Nat.zero_le _
  have hfrom₁ := (moves_skipped (P := P) t sh input).invariant (fun _ _ hm hv => hv.move hm) hfrom
  rcases processLevel5BatchesShard_cases P clock t sh input with heq | ⟨_, _, heq⟩
  · rw [heq]
    exact within_generalPath hS clock _ hskips hfrom₁
  · rw [heq]
    refine within_clientGc _ (within_classifyGroups clock _ none hskips fun p hp => hS p (hfrom₁.pending p ?_))
    exact (P.sort_perm _ _).mem_iff.mp hp

end Pass

theorem Topic.From.within_process {S : PendingBatch5 → Prop} {frontier : Nat → Nat} (hS : ∀ p, S p → p.Within frontier)
    (h : t.From S []) (hw : ∀ i, (t.shards i).Within frontier) (clock : PassClock) {level5 : List PendingBatch5}
    (hl : ∀ p ∈ level5, S p) : ∀ i, ((processLevel5Batches P clock t level5).1.shards i).Within frontier := by
  refine (processLevel5Batches_induction (I := fun s => s.1.From S s.2 ∧
    ∀ i, (s.1.shards i).Within frontier) ⟨h, hw⟩ fun i s hs => ?_).2
  refine ⟨(hs.1.processShard (P := P) clock hl i).1, ?_⟩
  have hshards := congrArg Topic.shards (Pass.frame_shard (P := P) clock s.1 (s.1.shards i)
    (level5.filter (·.clientId % P.numShards = i)))
  dsimp only [Topic.frame] at hshards
  rw [Embarcadero.processShard]
  dsimp only
  rw [hshards]
  exact (Function.forall_update_iff s.1.shards fun _ sh => sh.Within frontier).mpr
    ⟨Pass.within_shard hS clock s.1 _ _ (hs.1.start hl i), fun j _ => hs.2 j⟩

end Embarcadero
