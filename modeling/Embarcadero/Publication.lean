import Embarcadero.ClassifyPass

namespace Embarcadero

open Function (update comp_def)
open List

namespace Commit

def keeps (table : SessionTable) (p : PendingBatch5) : Bool :=
  p.isMarker || p.commitMeta.sessionEpoch = 0 || !rejects (table.get p.commitMeta.key) p.commitMeta.batchSeq

structure GuardOk (c : CxlMemory) (g₀ : Guarded) (ready : List PendingBatch5) (g : Guarded) :
    Prop where
  get : g.table.get = g₀.table.get
  memory : (c.writes g.writes).sessions = g.table
  claimed : ∀ k, (g₀.table.entry k).isSome → (g.table.entry k).isSome
  keys : g₀.table.KeysOk → g.table.KeysOk
  kept : g.admissionFailed = false → g.kept = g₀.kept ++ ready.filter (keeps g₀.table) ∧
    ∀ p ∈ ready, p.isMarker = false → p.commitMeta.sessionEpoch ≠ 0 →
      (g.table.entry p.commitMeta.key).isSome

theorem GuardOk.guardOne {c : CxlMemory} {g₀ g : Guarded} {ready : List PendingBatch5} (h : GuardOk c g₀ ready g)
    (p : PendingBatch5) : GuardOk c g₀ (ready ++ [p]) (guardOne g p) := by
  unfold Commit.guardOne
  dsimp only
  split
  next hp =>
    have hkeep : keeps g₀.table p = true := by simp [keeps, hp]
    refine ⟨h.get, h.memory, h.claimed, h.keys, fun hf => ?_⟩
    obtain ⟨hkept, hsome⟩ := h.kept hf
    refine ⟨by simp [hkept, hkeep], fun q hq hm he => ?_⟩
    rcases mem_append.mp hq with hq | hq
    · exact hsome q hq hm he
    · rw [mem_singleton.mp hq] at hm he
      simp [hm, he] at hp
  rename_i hp
  split
  · exact ⟨h.get, h.memory, h.claimed, h.keys, fun hf => by cases hf⟩
  rename_i table hfind
  obtain ⟨hget, hself, hmono⟩ := SessionTable.findOrCreate_eq_some hfind
  have hmem : (c.writes (g.writes ++ [.claimSession p.commitMeta.key])).sessions = table := by
    rw [CxlMemory.writes_append, CxlMemory.writes_cons, CxlMemory.writes_nil, CxlMemory.write, h.memory, hfind]
    rfl
  have hentries : g.admissionFailed = false → ∀ q ∈ ready ++ [p], q.isMarker = false →
      q.commitMeta.sessionEpoch ≠ 0 → (table.entry q.commitMeta.key).isSome := by
    intro hf q hq hm he
    rcases mem_append.mp hq with hq | hq
    · exact hmono _ ((h.kept hf).2 q hq hm he)
    · rw [mem_singleton.mp hq]
      exact hself
  have hverdict : keeps g₀.table p = !rejects (table.get p.commitMeta.key) p.commitMeta.batchSeq := by
    simp only [Bool.or_eq_true, decide_eq_true_eq, not_or, Bool.not_eq_true] at hp
    simp [keeps, hp.1, hp.2, hget, h.get]
  split
  next hrej =>
    refine ⟨hget.trans h.get, ?_, fun k hk => hmono k (h.claimed k hk),
      fun hk => (h.keys hk).findOrCreate hfind, fun hf => ⟨?_, hentries hf⟩⟩
    · rw [CxlMemory.writes_append, CxlMemory.sessions_writes, hmem]
      intro w hw
      cases hh : p.hdr with
      | none => simp [hh] at hw
      | some a =>
        simp only [hh, Option.map_some, Option.toList_some, mem_singleton] at hw
        simp [hw, CxlWrite.region]
    · rw [(h.kept hf).1]
      simp [hverdict, hrej]
  next hrej =>
    refine ⟨hget.trans h.get, hmem, fun k hk => hmono k (h.claimed k hk),
      fun hk => (h.keys hk).findOrCreate hfind, fun hf => ⟨?_, hentries hf⟩⟩
    dsimp only
    rw [(h.kept hf).1]
    simp [hverdict, hrej]

theorem guardOk_foldl (c : CxlMemory) (g₀ : Guarded) (rest : List PendingBatch5) :
    ∀ {ready : List PendingBatch5} {g : Guarded}, GuardOk c g₀ ready g →
      GuardOk c g₀ (ready ++ rest) (rest.foldl Commit.guardOne g) := by
  induction rest with
  | nil => exact fun h => by simpa using h
  | cons p rest ih =>
    intro ready g h
    have := ih (h.guardOne p)
    rwa [append_assoc, singleton_append] at this

theorem guardOk_guardAll (t : Topic) (ready : List PendingBatch5) :
    GuardOk t.cxl { table := t.cxl.sessions } ready (guardAll t ready) := by
  have hnone : GuardOk t.cxl { table := t.cxl.sessions } [] { table := t.cxl.sessions } :=
    ⟨rfl, rfl, fun _ => id, id, fun _ => by simp⟩
  have := guardOk_foldl t.cxl { table := t.cxl.sessions } ready hnone
  rwa [nil_append] at this

end Commit

def CxlWrite.store? (k : SessionKey) : CxlWrite → Option SessionStore
  | .session k' s => if k' = k then some s else none
  | _ => none

variable {c : CxlMemory} {ws : List CxlWrite} {k : SessionKey}

theorem CxlMemory.isSome_entry_write (w : CxlWrite) (h : (c.sessions.entry k).isSome) :
    ((c.write w).sessions.entry k).isSome := by
  cases w with
  | claimSession k' =>
    rw [CxlMemory.write]
    dsimp only
    cases hf : c.sessions.findOrCreate k' with
    | none => exact h
    | some table => exact (SessionTable.findOrCreate_eq_some hf).2.2 k h
  | session k' s => simpa [CxlMemory.write] using h
  | _ => exact h

theorem CxlMemory.get_write {w : CxlWrite} (h : (c.sessions.entry k).isSome ∨ w.store? k = none) :
    (c.write w).sessions.get k = (w.store? k).toList.foldl SessionEntry.apply (c.sessions.get k) := by
  cases w with
  | claimSession k' =>
    rw [CxlMemory.write]
    dsimp only
    cases hf : c.sessions.findOrCreate k' with
    | none => rfl
    | some table =>
      rw [Option.getD_some, (SessionTable.findOrCreate_eq_some hf).1]
      rfl
  | session k' s =>
    by_cases hk : k' = k
    · subst hk
      have hsome : (c.sessions.entry k').isSome := h.resolve_right (by simp [CxlWrite.store?])
      simp [CxlMemory.write, CxlWrite.store?, SessionTable.get_store_self hsome]
    · simp [CxlMemory.write, CxlWrite.store?, hk, SessionTable.get_store_of_ne (Ne.symm hk)]
  | _ => rfl

theorem CxlMemory.get_writes :
    ∀ {c : CxlMemory}, ((c.sessions.entry k).isSome ∨ ws.filterMap (CxlWrite.store? k) = []) →
      (c.writes ws).sessions.get k =
        (ws.filterMap (CxlWrite.store? k)).foldl SessionEntry.apply (c.sessions.get k) := by
  induction ws with
  | nil => exact fun _ => rfl
  | cons w ws ih =>
    intro c h
    rw [CxlMemory.writes_cons]
    cases hs : w.store? k with
    | none =>
      rw [filterMap_cons_none hs] at h ⊢
      rw [ih (h.imp_left (CxlMemory.isSome_entry_write w)), CxlMemory.get_write (.inr hs), hs]
      rfl
    | some s =>
      rw [filterMap_cons_some hs] at h ⊢
      have hsome := h.resolve_right (cons_ne_nil _ _)
      rw [ih (.inl (CxlMemory.isSome_entry_write w hsome)), CxlMemory.get_write (.inl hsome), hs]
      rfl

theorem CxlMemory.keysOk_writes : ∀ {c : CxlMemory}, c.sessions.KeysOk → (c.writes ws).sessions.KeysOk := by
  induction ws with
  | nil => exact fun h => h
  | cons w ws ih =>
    intro c h
    refine ih (c := c.write w) ?_
    cases w with
    | claimSession k =>
      rw [CxlMemory.write]
      dsimp only
      cases hf : c.sessions.findOrCreate k with
      | none => exact h
      | some table => exact h.findOrCreate hf
    | session k s => exact h.store k s
    | _ => exact h

namespace Commit

variable {kept : List PendingBatch5} {k : SessionKey}

theorem store?_eq_none {w : CxlWrite} (h : w.region ≠ .sessions) :
    w.store? k = none := by cases w <;> first | rfl | exact absurd rfl h

theorem store?_guardOne {g : Guarded} (hg : ∀ w ∈ g.writes, w.store? k = none) (p : PendingBatch5) :
    ∀ w ∈ (guardOne g p).writes, w.store? k = none := by
  have hclear : ∀ w ∈ (p.hdr.map CxlWrite.clearPublishState).toList, w.store? k = none := by
    cases p.hdr <;> simp [CxlWrite.store?]
  intro w hw
  unfold guardOne at hw
  dsimp only at hw
  split at hw
  · exact hg w hw
  split at hw
  · exact hg w hw
  split at hw
  · simp only [append_assoc, mem_append, mem_singleton] at hw
    rcases hw with hw | rfl | hw
    · exact hg w hw
    · rfl
    · exact hclear w hw
  · simp only [mem_append, mem_singleton] at hw
    rcases hw with hw | rfl
    · exact hg w hw
    · rfl

theorem store?_guardAll (k : SessionKey) (t : Topic) (ready : List PendingBatch5) :
    ∀ w ∈ (guardAll t ready).writes, w.store? k = none := by
  rw [guardAll]
  apply List.foldlRecOn (motive := fun g : Guarded => ∀ w ∈ g.writes, w.store? k = none)
  · simp
  · exact fun g hg p _ => store?_guardOne hg p

theorem store?_publish (k k' : SessionKey) (ss : List SessionStore) :
    (ss.map (CxlWrite.session k')).filterMap (CxlWrite.store? k) = if k' = k then ss else [] := by
  by_cases h : k' = k
  · simp [h, CxlWrite.store?, comp_def]
  · simp [h, CxlWrite.store?, comp_def]

theorem store?_flatMap (k : SessionKey) (stores : SessionKey → List SessionStore)
    (keys : List SessionKey) (hnd : keys.Nodup) :
    (keys.flatMap fun k' => (stores k').map (CxlWrite.session k')).filterMap (CxlWrite.store? k) =
      if k ∈ keys then stores k else [] := by
  induction keys with
  | nil => rfl
  | cons k' keys ih =>
    obtain ⟨hk', hnd⟩ := nodup_cons.mp hnd
    rw [flatMap_cons, filterMap_append, store?_publish, ih hnd]
    by_cases h : k' = k
    · subst h
      simp [hk']
    · simp [h, Ne.symm h]

theorem store?_sessionWrites (P : Platform) (k : SessionKey) (ms : List HoldBatchMetadata) :
    (sessionWrites P ms).filterMap (CxlWrite.store? k) =
      if k ∈ publishedKeys ms then SessionTable.publishStores (sessionSnapshot ms k) else [] := by
  have hperm := P.iterate_perm (publishedKeys ms)
  rw [sessionWrites, store?_flatMap k (fun k => SessionTable.publishStores (sessionSnapshot ms k))
    _ (hperm.nodup_iff.mpr (nodup_dedup _))]
  simp only [hperm.mem_iff]

theorem store?_writes (P : Platform) (t : Topic) (f : EpochInFlight) (k : SessionKey)
    (hx : t.capacityExhausted = false) :
    (writes P t f).filterMap (CxlWrite.store? k) =
      if k ∈ publishedKeys (committed (accepted t f)) then
        SessionTable.publishStores (sessionSnapshot (committed (accepted t f)) k)
      else [] := by
  have hnil : ∀ {ws : List CxlWrite}, (∀ w ∈ ws, w.region ≠ .sessions) →
      ws.filterMap (CxlWrite.store? k) = [] := fun h =>
    filterMap_eq_nil_iff.mpr fun w hw => store?_eq_none (h w hw)
  have hguard : (guardAll t f.ready).writes.filterMap (CxlWrite.store? k) = [] :=
    filterMap_eq_nil_iff.mpr (store?_guardAll k t f.ready)
  have hadvance : ∀ contiguous, (advanceConsumedThrough P t.shards f contiguous).2.filterMap
      (CxlWrite.store? k) = [] := fun contiguous => hnil fun w hw => by
    simp [region_advanceConsumedThrough P _ _ _ w hw]
  cases ho : outcome t (guardAll t f.ready) with
  | stopped => simp [writes, ho, hguard, accepted, hx, committed, publishedKeys]
  | nothingReady => simp [writes, ho, hguard, hadvance, accepted, hx, committed, publishedKeys]
  | committed kept firstGoi n firstMessage msgs =>
    have hgoi : ∀ c index order cumulative, (goiWrites c index order cumulative kept).filterMap
        (CxlWrite.store? k) = [] := fun c index order cumulative => hnil fun w hw hr => by
      have := region_goiWrites c kept index order cumulative w hw
      simp [hr] at this
    have hexport : ∀ order s, (exportWrites P order s kept).1.filterMap (CxlWrite.store? k) = [] :=
      fun order s => hnil fun w hw => by simp [region_exportWrites P kept order s w hw]
    have hordered : (orderedWrites (committed kept)).filterMap (CxlWrite.store? k) = [] :=
      hnil fun w hw => by simp [region_orderedWrites _ w hw]
    simp [writes, ho, hguard, hgoi, hexport, hordered, hadvance, accepted, hx, store?_sessionWrites]

theorem mem_publishedKeys {ms : List HoldBatchMetadata} :
    k ∈ publishedKeys ms ↔ k.sessionEpoch ≠ 0 ∧ ∃ m ∈ ms, m.key = k := by
  simp [publishedKeys, and_comm]

theorem isSome_entry_of_mem_publishedKeys {t : Topic} {f : EpochInFlight}
    (h : k ∈ publishedKeys (committed (accepted t f))) : ((guardAll t f.ready).table.entry k).isSome := by
  obtain ⟨he, m, hm, rfl⟩ := mem_publishedKeys.mp h
  obtain ⟨p, hp, rfl⟩ := mem_map.mp hm
  obtain ⟨hp, hmark⟩ := mem_filter.mp hp
  have hg := guardOk_guardAll t f.ready
  have hready := accepted_subset t f p hp
  unfold accepted at hp
  split at hp
  · cases hp
  split at hp
  next ho =>
    obtain ⟨-, hfail, -⟩ := outcome_committed ho
    exact (hg.kept hfail).2 p hready (by simpa using hmark) he
  · cases hp

theorem writes_guard_append (P : Platform) (t : Topic) (f : EpochInFlight) :
    ∃ rest, writes P t f = (guardAll t f.ready).writes ++ rest := by
  unfold writes
  dsimp only
  split
  · exact ⟨[], (append_nil _).symm⟩
  · exact ⟨_, rfl⟩
  · simp only [append_assoc]
    exact ⟨_, rfl⟩

theorem get_take (P : Platform) (t : Topic) (f : EpochInFlight) (k : SessionKey)
    (hx : t.capacityExhausted = false) (n : Nat) :
    (t.cxl.writes ((writes P t f).take n)).sessions.get k =
      (((writes P t f).take n).filterMap (CxlWrite.store? k)).foldl SessionEntry.apply (t.cxl.sessions.get k) := by
  obtain ⟨rest, hw⟩ := writes_guard_append P t f
  have hguard := store?_guardAll k t f.ready
  have hg := guardOk_guardAll t f.ready
  by_cases hmem : k ∈ publishedKeys (committed (accepted t f))
  · rw [hw, take_append, CxlMemory.writes_append, filterMap_append]
    have hnil : ((guardAll t f.ready).writes.take n).filterMap (CxlWrite.store? k) = [] :=
      filterMap_eq_nil_iff.mpr fun w hm => hguard w (mem_of_mem_take hm)
    have hget : (t.cxl.writes ((guardAll t f.ready).writes.take n)).sessions.get k =
        t.cxl.sessions.get k := by rw [CxlMemory.get_writes (.inr hnil), hnil, foldl_nil]
    rw [CxlMemory.get_writes, hget, hnil, nil_append]
    by_cases hn : (guardAll t f.ready).writes.length ≤ n
    · left
      rw [take_of_length_le hn, hg.memory]
      exact isSome_entry_of_mem_publishedKeys hmem
    · right
      rw [Nat.sub_eq_zero_of_le (Nat.le_of_not_le hn)]
      rfl
  · refine CxlMemory.get_writes (.inr ?_)
    have hall := store?_writes P t f k hx
    rw [if_neg hmem] at hall
    exact filterMap_eq_nil_iff.mpr fun w hm =>
      filterMap_eq_nil_iff.mp hall w (mem_of_mem_take hm)

theorem foldl_recordSessionPublish (ms : List HoldBatchMetadata) :
    ∀ {first n : Nat} {s : SessionPublishSnapshot}, (∀ m ∈ ms, m.key = k) →
      ms.map (·.batchSeq) = List.range' first (n + 1) → s.expectedSeq ≤ first →
      s.committedHwm ≤ first →
      (ms.foldl recordSessionPublish s).expectedSeq = first + n + 1 ∧
        (ms.foldl recordSessionPublish s).committedHwm = first + n ∧
        (ms.foldl recordSessionPublish s).sessionEpoch = k.sessionEpoch ∧
        (ms.foldl recordSessionPublish s).fenced = s.fenced := by
  induction ms with
  | nil => intro first n s _ h; simp at h
  | cons m ms ih =>
    intro first n s hkey h he hh
    rw [List.range'_succ, map_cons, List.cons.injEq] at h
    obtain ⟨rfl, hrest⟩ := h
    have hm : m.sessionEpoch = k.sessionEpoch := congrArg SessionKey.sessionEpoch (hkey m (.head _))
    rw [foldl_cons]
    cases n with
    | zero =>
      cases ms with
      | nil =>
        simp only [foldl_nil, recordSessionPublish]
        refine ⟨?_, ?_, hm, trivial⟩ <;> omega
      | cons _ _ => simp at hrest
    | succ n =>
      obtain ⟨h₁, h₂, h₃, h₄⟩ := ih (s := recordSessionPublish s m) (fun q hq => hkey q (.tail _ hq)) hrest
        (by simp only [recordSessionPublish]; omega) (by simp only [recordSessionPublish]; omega)
      refine ⟨?_, ?_, h₃, h₄⟩ <;> omega

theorem sessionSnapshot_spec {first n : Nat} (h : seqsOf k kept = List.range' first (n + 1)) :
    (sessionSnapshot (committed kept) k).expectedSeq = first + n + 1 ∧
      (sessionSnapshot (committed kept) k).committedHwm = first + n ∧
      (sessionSnapshot (committed kept) k).sessionEpoch = k.sessionEpoch ∧
      (sessionSnapshot (committed kept) k).fenced = false :=
  foldl_recordSessionPublish _ (fun _ hm => of_decide_eq_true (mem_filter.mp hm).2) h (Nat.zero_le _) (Nat.zero_le _)

theorem mem_publishedKeys_iff_seqsOf (hk : k.Admitted) : k ∈ publishedKeys (committed kept) ↔ seqsOf k kept ≠ [] := by
  simp [mem_publishedKeys, seqsOf, hk.2]

end Commit

end Embarcadero
