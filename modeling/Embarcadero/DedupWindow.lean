import Embarcadero.Lib.Residue
import Embarcadero.Lib.Tombstones
import Embarcadero.SequencerUtils

namespace Embarcadero

open Function (update)
open Tombstones (Cell Passed Holds)

namespace FastDeduplicator

structure Recorded where
  d : FastDeduplicator := {}
  stores : List Nat := []

def Recorded.call (c : DedupConfig) (r : Recorded) (id : Nat) : Recorded where
  d := (r.d.checkAndInsert c id).2
  stores := match probe c r.d.table id c.maxProbes (c.hash id % c.tableSize) none with
    | .insertAt _ => r.stores ++ [id]
    | _ => r.stores

def Live (c : DedupConfig) (stores : List Nat) (id : Nat) : Prop :=
  ∃ m, stores[m]? = some id ∧ stores.length ≤ m + c.ringSize

def path (c : DedupConfig) (id p : Nat) : Nat := (c.hash id % c.tableSize + p) % c.tableSize

def cell (entry : Nat) : Cell Nat :=
  if entry = emptyId then .vacant else if entry = tombstone then .buried else .key entry

variable {c : DedupConfig} {d : FastDeduplicator} {table : Nat → Nat} {stores : List Nat} {id id' old i idx : Nat}

theorem cell_eq_vacant : cell id = .vacant ↔ id = emptyId := by
  rw [cell]
  split
  · simp [*]
  next hne =>
    split
    · exact ⟨nofun, fun heq => absurd heq hne⟩
    · exact ⟨nofun, fun heq => absurd heq hne⟩

theorem cell_eq_key : cell id = .key id' ↔ id = id' ∧ id ≠ emptyId ∧ id ≠ tombstone := by
  rw [cell]
  split
  · simp [*]
  · split
    · simp [*]
    · simp [*]

theorem cell_of_lt (h : id < tombstone) : cell id = .key id :=
  cell_eq_key.mpr ⟨rfl, by simp only [tombstone, emptyId] at *; omega, Nat.ne_of_lt h⟩

theorem cell_update (table : Nat → Nat) (i v : Nat) : cell ∘ update table i v = update (cell ∘ table) i (cell v) :=
  Function.comp_update ..

theorem succ_place (idx p n : Nat) : ((idx + 1) % n + p) % n = (idx + (p + 1)) % n := by
  rw [Nat.mod_add_mod, Nat.add_assoc, Nat.add_comm 1 p]

theorem probe_absent (fuel : Nat) : ∀ {idx insertAt}, idx < c.tableSize →
    probe c table id fuel idx insertAt ≠ .duplicate →
    ∀ p < fuel, (∀ q < p, table ((idx + q) % c.tableSize) ≠ emptyId) → table ((idx + p) % c.tableSize) ≠ id := by
  induction fuel with
  | zero => exact fun _ _ p hp => absurd hp (Nat.not_lt_zero p)
  | succ fuel ih =>
    intro idx insertAt hidx hprobe p hp hpassed
    have hhere : (idx + 0) % c.tableSize = idx := Nat.mod_eq_of_lt hidx
    rw [probe] at hprobe
    split at hprobe
    · exact absurd rfl hprobe
    rename_i hne
    cases p with
    | zero =>
      rw [hhere]
      exact hne
    | succ p =>
      have hfull : table idx ≠ emptyId := hhere ▸ hpassed 0 (Nat.succ_pos p)
      rw [if_neg hfull] at hprobe
      have hlt := Nat.mod_lt (idx + 1) (Nat.zero_lt_of_lt hidx)
      have hrest := ih hlt hprobe p (Nat.lt_of_succ_lt_succ hp) fun q hq => by
        rw [succ_place]
        exact hpassed (q + 1) (Nat.succ_lt_succ hq)
      rw [succ_place] at hrest
      exact hrest

theorem probe_insertAt (fuel : Nat) : ∀ {idx insertAt}, idx < c.tableSize →
    probe c table id fuel idx insertAt = .insertAt i →
    insertAt = some i ∨ ∃ p < fuel, (idx + p) % c.tableSize = i ∧ (table i = emptyId ∨ table i = tombstone) ∧
      ∀ q < p, table ((idx + q) % c.tableSize) ≠ emptyId := by
  induction fuel with
  | zero =>
    intro idx insertAt _ hprobe
    cases insertAt with
    | none => cases hprobe
    | some j =>
      cases hprobe
      exact .inl rfl
  | succ fuel ih =>
    intro idx insertAt hidx hprobe
    have hhere : (idx + 0) % c.tableSize = idx := Nat.mod_eq_of_lt hidx
    rw [probe] at hprobe
    split at hprobe
    · cases hprobe
    split at hprobe
    next hempty =>
      cases insertAt with
      | none =>
        cases hprobe
        exact .inr ⟨0, Nat.succ_pos _, hhere, .inl hempty, fun q hq => absurd hq (Nat.not_lt_zero q)⟩
      | some j =>
        cases hprobe
        exact .inl rfl
    rename_i hfull
    cases ih (Nat.mod_lt (idx + 1) (Nat.zero_lt_of_lt hidx)) hprobe with
    | inl hsome =>
      split at hsome
      next htomb =>
        cases hsome
        exact .inr ⟨0, Nat.succ_pos _, hhere, .inr htomb.1, fun q hq => absurd hq (Nat.not_lt_zero q)⟩
      · exact .inl hsome
    | inr hlater =>
      obtain ⟨p, hp, hi, hfree, hpassed⟩ := hlater
      refine .inr ⟨p + 1, Nat.succ_lt_succ hp, by rw [← succ_place, hi], hfree, fun q hq => ?_⟩
      cases q with
      | zero =>
        rw [hhere]
        exact hfull
      | succ q =>
        rw [← succ_place]
        exact hpassed q (Nat.lt_of_succ_lt_succ hq)

theorem bury_eq (honce : ∀ j, table j = old → j = i) (fuel : Nat) : ∀ {idx}, idx < c.tableSize →
    (∃ p < fuel, table ((idx + p) % c.tableSize) = old ∧ ∀ q < p, table ((idx + q) % c.tableSize) ≠ emptyId) →
    bury c old fuel idx table = update table i tombstone := by
  induction fuel with
  | zero => exact fun _ ⟨p, hp, _⟩ => absurd hp (Nat.not_lt_zero p)
  | succ fuel ih =>
    intro idx hidx ⟨p, hp, hat, hpassed⟩
    have hhere : (idx + 0) % c.tableSize = idx := Nat.mod_eq_of_lt hidx
    rw [bury]
    split
    next heq => rw [honce idx heq]
    rename_i hne
    cases p with
    | zero => exact absurd (hhere ▸ hat) hne
    | succ p =>
      have hfull : table idx ≠ emptyId := hhere ▸ hpassed 0 (Nat.succ_pos p)
      rw [if_neg hfull]
      refine ih (Nat.mod_lt (idx + 1) (Nat.zero_lt_of_lt hidx)) ⟨p, Nat.lt_of_succ_lt_succ hp, ?_, fun q hq => ?_⟩
      · rw [succ_place]
        exact hat
      · rw [succ_place]
        exact hpassed (q + 1) (Nat.succ_lt_succ hq)

def Kept (c : DedupConfig) (stores : List Nat) (id : Nat) : Prop :=
  ∃ m, stores[m]? = some id ∧ stores.length + 1 ≤ m + c.ringSize

/-- The table holds the last `RING_SIZE` ids stored, and store `m` is in the ring at `m % RING_SIZE`. -/
structure Window (c : DedupConfig) (d : FastDeduplicator) (stores : List Nat) : Prop where
  skip : d.skip = false
  holds : Holds (path c) c.maxProbes (cell ∘ d.table) (Live c stores)
  head : d.ringHead = stores.length % c.ringSize
  count : d.count = min stores.length c.ringSize
  ring : ∀ m id, stores[m]? = some id → stores.length ≤ m + c.ringSize → d.ring (m % c.ringSize) = id
  blank : ∀ i, d.ring i ≠ emptyId → ∃ m < stores.length, stores.length ≤ m + c.ringSize ∧ m % c.ringSize = i
  ids : ∀ id ∈ stores, id < tombstone
  once : ∀ m m' id, stores[m]? = some id → stores[m']? = some id → stores.length ≤ m + c.ringSize →
    stores.length ≤ m' + c.ringSize → m = m'

theorem window_empty : Window c {} [] where
  skip := rfl
  holds := by
    have hcell : cell ∘ ({} : FastDeduplicator).table = fun _ => .vacant :=
      funext fun _ => cell_eq_vacant.mpr rfl
    rw [hcell]
    exact Holds.empty.congr fun id => ⟨fun ⟨m, hm, _⟩ => (nomatch hm), False.elim⟩
  head := (Nat.zero_mod _).symm
  count := (Nat.zero_min _).symm
  ring m id hm := nomatch hm
  blank i hi := absurd rfl hi
  ids := nofun
  once m m' id hm := nomatch hm

theorem getElem?_concat_eq_some {m : Nat} : (stores ++ [id])[m]? = some id' ↔
    stores[m]? = some id' ∨ m = stores.length ∧ id' = id := by
  rcases Nat.lt_trichotomy m stores.length with hlt | heq | hgt
  · rw [List.getElem?_append_left hlt]
    exact ⟨.inl, fun h => h.resolve_right fun h => absurd h.1 (Nat.ne_of_lt hlt)⟩
  · subst heq
    simp [eq_comm]
  · have hnone : stores[m]? = none := List.getElem?_eq_none (Nat.le_of_lt hgt)
    rw [List.getElem?_eq_none (by simpa using Nat.succ_le_of_lt hgt), hnone]
    exact ⟨nofun, fun h => absurd (h.resolve_left nofun).1 (Nat.ne_of_gt hgt)⟩

theorem live_concat (hr : 0 < c.ringSize) : Live c (stores ++ [id]) id' ↔ Kept c stores id' ∨ id' = id := by
  rw [Live, Kept, List.length_append, List.length_singleton]
  constructor
  · rintro ⟨m, hm, hlive⟩
    cases getElem?_concat_eq_some.mp hm with
    | inl hold => exact .inl ⟨m, hold, hlive⟩
    | inr hnew => exact .inr hnew.2
  · rintro (⟨m, hm, hlive⟩ | heq)
    · exact ⟨m, getElem?_concat_eq_some.mpr (.inl hm), hlive⟩
    · exact ⟨stores.length, getElem?_concat_eq_some.mpr (.inr ⟨rfl, heq⟩), by omega⟩

theorem evict_table (i : Nat) : (d.evict c).table i = tombstone ∨ (d.evict c).table i = d.table i := by
  rw [evict]
  split
  · exact .inr rfl
  · dsimp only
    split
    · exact bury_subset
    · exact .inr rfl

namespace Window

theorem duplicate_iff (h : Window c d stores) (hn : 0 < c.tableSize) (hid : id < tombstone) :
    probe c d.table id c.maxProbes (c.hash id % c.tableSize) none = .duplicate ↔ Live c stores id := by
  constructor
  · intro hprobe
    obtain ⟨i, hi⟩ := probe_duplicate hprobe
    refine h.holds.live i id ?_
    rw [Function.comp_apply, hi]
    exact cell_of_lt hid
  · intro hlive
    by_contra hprobe
    obtain ⟨p, hp, hat, hpassed⟩ := h.holds.reach id hlive
    refine probe_absent c.maxProbes (Nat.mod_lt _ hn) hprobe p hp (fun q hq => ?_) (cell_eq_key.mp hat).1
    exact fun hempty => hpassed q hq (cell_eq_vacant.mpr hempty)

theorem evict (h : Window c d stores) (hn : 0 < c.tableSize) (hr : 0 < c.ringSize) :
    Holds (path c) c.maxProbes (cell ∘ (d.evict c).table) (Kept c stores) ∧ (d.evict c).ringHead = d.ringHead ∧
      (d.evict c).count + 1 = min (stores.length + 1) c.ringSize ∧
      (∀ i, i ≠ d.ringHead → (d.evict c).ring i = d.ring i) ∧ (d.evict c).skip = d.skip := by
  have hcount := h.count
  rw [FastDeduplicator.evict]
  split
  next hroom =>
    have hlt : stores.length < c.ringSize := by omega
    refine ⟨h.holds.congr fun id => ?_, rfl, by omega, fun _ _ => rfl, rfl⟩
    exact exists_congr fun m => and_congr_right fun _ => ⟨fun _ => by omega, fun _ => by omega⟩
  next hfull =>
    have hle : c.ringSize ≤ stores.length := by omega
    have holdest : (d.ringHead + c.ringSize - d.count) % c.ringSize = d.ringHead := by
      rw [hcount, Nat.min_eq_right hle, Nat.add_sub_cancel, h.head, Nat.mod_mod]
    obtain ⟨old, hold⟩ : ∃ old, stores[stores.length - c.ringSize]? = some old :=
      ⟨_, List.getElem?_eq_getElem (by omega)⟩
    have hring : d.ring d.ringHead = old := by
      have hat := h.ring _ old hold (by omega)
      rw [← Nat.add_mod_right, Nat.sub_add_cancel hle] at hat
      rw [h.head]
      exact hat
    have hsmall : old < tombstone := h.ids old (List.mem_of_getElem? hold)
    obtain ⟨p, hp, hat, hpassed⟩ := h.holds.reach old ⟨_, hold, by omega⟩
    have hbury : bury c old c.maxProbes (c.hash old % c.tableSize) d.table =
        update d.table (path c old p) tombstone := by
      refine bury_eq (fun j hj => h.holds.once j _ old ?_ hat) c.maxProbes (Nat.mod_lt _ hn)
        ⟨p, hp, (cell_eq_key.mp hat).1, fun q hq hempty => hpassed q hq (cell_eq_vacant.mpr hempty)⟩
      rw [Function.comp_apply, hj]
      exact cell_of_lt hsmall
    simp only [holdest, hring, if_pos hsmall, hbury]
    refine ⟨?_, trivial, by omega, fun i hi => Function.update_of_ne hi .., trivial⟩
    have htomb : cell tombstone = .buried := if_neg (by decide)
    rw [cell_update, htomb]
    refine (h.holds.bury hat).congr fun id => ?_
    constructor
    · rintro ⟨m, hm, hkept⟩
      refine ⟨⟨m, hm, by omega⟩, fun heq => ?_⟩
      subst heq
      have := h.once m _ id hm hold (by omega) (by omega)
      omega
    · rintro ⟨⟨m, hm, hlive⟩, hne⟩
      refine ⟨m, hm, ?_⟩
      rcases Nat.lt_or_eq_of_le hlive with hlt | heq
      · exact hlt
      · rw [show stores.length - c.ringSize = m by omega, hm] at hold
        exact absurd (Option.some.inj hold) hne

theorem store (h : Window c d stores) (hn : 0 < c.tableSize) (hr : 0 < c.ringSize) (hid : id < tombstone)
    (hprobe : probe c d.table id c.maxProbes (c.hash id % c.tableSize) none = .insertAt i) :
    Window c { d.evict c with
      table := update (d.evict c).table i id
      ring := update (d.evict c).ring (d.evict c).ringHead id
      ringHead := ((d.evict c).ringHead + 1) % c.ringSize
      count := (d.evict c).count + 1 } (stores ++ [id]) := by
  obtain ⟨hholds, hhead, hcount, hring, hskip⟩ := h.evict hn hr
  have hnew : ¬Live c stores id := by
    rw [← h.duplicate_iff hn hid, hprobe]
    nofun
  have hlength : (stores ++ [id]).length = stores.length + 1 := by simp
  -- a store of the window other than the oldest is not in the slot of the ring that is written
  have hother : ∀ m, m < stores.length → stores.length + 1 ≤ m + c.ringSize → m % c.ringSize ≠ d.ringHead := by
    intro m hlt hm heq
    rw [h.head] at heq
    have := Residue.add_le_of_mod_eq hlt heq
    omega
  refine {
    skip := hskip.trans h.skip
    holds := ?_
    head := ?_
    count := by rw [hlength, hcount]
    ring := fun m id' hm hlive => ?_
    blank := fun j hj => ?_
    ids := fun id' hid' => ?_
    once := fun m m' id' hm hm' hlive hlive' => ?_ }
  · obtain ⟨p, hp, hi, hfree, hpassed⟩ :=
      (probe_insertAt c.maxProbes (Nat.mod_lt _ hn) hprobe).resolve_left nofun
    change path c id p = i at hi
    subst hi
    dsimp only
    rw [cell_update, cell_of_lt hid]
    refine (hholds.put (fun hkept => hnew ?_) hp (fun q hq hempty => ?_) fun l hl => ?_).congr fun l => live_concat hr
    · obtain ⟨m, hm, hlive⟩ := hkept
      exact ⟨m, hm, by omega⟩
    · rcases evict_table (c := c) (d := d) (path c id q) with htomb | hsame
      · rw [Function.comp_apply, htomb, cell_eq_vacant] at hempty
        exact absurd hempty (by decide)
      · rw [Function.comp_apply, hsame, cell_eq_vacant] at hempty
        exact hpassed q hq hempty
    · obtain ⟨-, hne, hne'⟩ := cell_eq_key.mp hl
      rcases evict_table (c := c) (d := d) (path c id p) with htomb | hsame
      · exact hne' htomb
      · rw [hsame] at hne hne'
        exact hfree.elim hne hne'
  · dsimp only
    rw [hlength, hhead, h.head, Nat.mod_add_mod]
  · dsimp only
    rw [hhead]
    rw [hlength] at hlive
    cases getElem?_concat_eq_some.mp hm with
    | inl hold =>
      have hne := hother m (List.getElem?_eq_some_iff.mp hold).1 hlive
      rw [Function.update_of_ne hne, hring _ hne]
      exact h.ring m id' hold (by omega)
    | inr hlast =>
      rw [hlast.1, hlast.2, ← h.head]
      exact Function.update_self ..
  · dsimp only at hj
    rw [hhead] at hj
    rw [hlength]
    by_cases hjh : j = d.ringHead
    · exact ⟨stores.length, Nat.lt_succ_self _, by omega, by rw [hjh, h.head]⟩
    · rw [Function.update_of_ne hjh, hring j hjh] at hj
      obtain ⟨m, hlt, hlive, hm⟩ := h.blank j hj
      refine ⟨m, Nat.lt_succ_of_lt hlt, ?_, hm⟩
      -- the oldest store of a full ring is the one whose slot is written
      rcases Nat.lt_or_eq_of_le hlive with hlater | heq
      · exact hlater
      · refine absurd ?_ hjh
        rw [← hm, h.head, heq, Nat.add_mod_right]
  · cases List.mem_append.mp hid' with
    | inl hold => exact h.ids id' hold
    | inr hlast => exact List.mem_singleton.mp hlast ▸ hid
  · rw [hlength] at hlive hlive'
    rcases getElem?_concat_eq_some.mp hm with hold | hlast
    · rcases getElem?_concat_eq_some.mp hm' with hold' | hlast'
      · exact h.once m m' id' hold hold' (by omega) (by omega)
      · exact absurd ⟨m, hlast'.2 ▸ hold, by omega⟩ hnew
    · rcases getElem?_concat_eq_some.mp hm' with hold' | hlast'
      · exact absurd ⟨m', hlast.2 ▸ hold', by omega⟩ hnew
      · exact hlast.1.trans hlast'.1.symm

theorem call {r : Recorded} (h : Window c r.d r.stores) (hn : 0 < c.tableSize) (hr : 0 < c.ringSize)
    (hid : id < tombstone) : Window c (r.call c id).d (r.call c id).stores := by
  rw [Recorded.call, checkAndInsert, if_neg (by rw [h.skip]; nofun), if_neg (Nat.not_le.mpr hid)]
  cases hprobe : probe c r.d.table id c.maxProbes (c.hash id % c.tableSize) none with
  | duplicate => exact h
  | noRoom => exact h
  | insertAt i => exact h.store hn hr hid hprobe

theorem answer_iff (h : Window c d stores) (hn : 0 < c.tableSize) (hid : id < tombstone) :
    (d.checkAndInsert c id).1 = true ↔ Live c stores id := by
  rw [← h.duplicate_iff hn hid, checkAndInsert, if_neg (by rw [h.skip]; nofun), if_neg (Nat.not_le.mpr hid)]
  cases hprobe : probe c d.table id c.maxProbes (c.hash id % c.tableSize) none with
  | duplicate => simp
  | noRoom => simp
  | insertAt i => simp

theorem calls (hn : 0 < c.tableSize) (hr : 0 < c.ringSize) {ids : List Nat} (hids : ∀ id ∈ ids, id < tombstone) :
    ∀ {r : Recorded}, Window c r.d r.stores →
      Window c (ids.foldl (Recorded.call c) r).d (ids.foldl (Recorded.call c) r).stores := by
  induction ids with
  | nil => exact fun h => h
  | cons id ids ih =>
    intro r h
    exact ih (fun id' hid' => hids id' (List.mem_cons_of_mem _ hid')) (h.call hn hr (hids id List.mem_cons_self))

end Window

/-- After any calls, the next one answers `true` exactly if its id is live; the table holds the live ids and nothing
else but tombstones, each id at one place that its probes reach; and the ring holds the live ids. -/
theorem dedup_window_exact (c : DedupConfig) (hn : 0 < c.tableSize) (hr : 0 < c.ringSize) (ids : List Nat)
    (hids : ∀ id ∈ ids, id < tombstone) :
    let r := ids.foldl (Recorded.call c) {}
    (∀ id < tombstone, (r.d.checkAndInsert c id).1 = true ↔ Live c r.stores id) ∧
    (∀ i, r.d.table i = emptyId ∨ r.d.table i = tombstone ∨ Live c r.stores (r.d.table i)) ∧
    (∀ id, Live c r.stores id → ∃ p < c.maxProbes, (∀ i, r.d.table i = id ↔ i = path c id p) ∧
      ∀ q < p, r.d.table (path c id q) ≠ emptyId) ∧
    ∀ id < tombstone, (∃ i, r.d.ring i = id) ↔ Live c r.stores id := by
  intro r
  have h : Window c r.d r.stores := Window.calls hn hr hids window_empty
  have hsmall : ∀ id, Live c r.stores id → id < tombstone := fun id ⟨m, hm, _⟩ => h.ids id (List.mem_of_getElem? hm)
  refine ⟨fun id hid => h.answer_iff hn hid, fun i => ?_, fun id hlive => ?_, fun id hid => ⟨?_, ?_⟩⟩
  · by_cases hempty : r.d.table i = emptyId
    · exact .inl hempty
    by_cases htomb : r.d.table i = tombstone
    · exact .inr (.inl htomb)
    · exact .inr (.inr (h.holds.live i _ (cell_eq_key.mpr ⟨rfl, hempty, htomb⟩)))
  · obtain ⟨p, hp, hat, hpassed⟩ := h.holds.reach id hlive
    refine ⟨p, hp, fun i => ⟨fun hi => h.holds.once i _ id ?_ hat, fun hi => hi ▸ (cell_eq_key.mp hat).1⟩, ?_⟩
    · rw [Function.comp_apply, hi]
      exact cell_of_lt (hsmall id hlive)
    · exact fun q hq hempty => hpassed q hq (cell_eq_vacant.mpr hempty)
  · rintro ⟨i, hi⟩
    have hne : r.d.ring i ≠ emptyId := by
      rw [hi]
      simp only [tombstone, emptyId] at *
      omega
    obtain ⟨m, hlt, hlive, hm⟩ := h.blank i hne
    have hget := List.getElem?_eq_getElem hlt
    refine ⟨m, ?_, hlive⟩
    rw [hget, ← hi, ← hm, h.ring m _ hget hlive]
  · rintro ⟨m, hm, hlive⟩
    exact ⟨m % c.ringSize, h.ring m id hm hlive⟩

def collidingDedup : DedupConfig := ⟨4, 2, 3, fun id => id % 2⟩

theorem dedup_window_exact_collidingIds :
    let r := [1, 3, 5, 7].foldl (Recorded.call collidingDedup) {}
    r.d.table 1 = 7 ∧ ¬Live collidingDedup r.stores 3 ∧ Live collidingDedup r.stores 5 ∧
      Live collidingDedup r.stores 7 := by
  have h := (dedup_window_exact collidingDedup (by decide) (by decide) [1, 3, 5, 7] (by decide)).1
  refine ⟨by decide +kernel, ?_, (h 5 (by decide)).mp (by decide +kernel), (h 7 (by decide)).mp (by decide +kernel)⟩
  rw [← h 3 (by decide)]
  decide +kernel

end FastDeduplicator

end Embarcadero
