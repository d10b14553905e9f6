import Embarcadero.Scalog.LocalSequencer

namespace Embarcadero.Scalog

open List
open Function (update)
open Shares (positions share total)

/-- `ScalogReplicationServiceImpl`, as far as it orders.  Its file holds the first `stored` messages of the log. -/
structure Replica where
  brokerId : Nat
  stored : Nat
  nextGlobalSequenceNumber : Nat := 0
  nextSequencingDiskOffset : Nat := 0
  totalOrder : Nat → Option Nat := fun _ => none

/-- The local variables of one call of `ScalogSequencer`, and the headers as they are in the file. -/
structure Pass where
  currentSeq : Nat
  currentDiskOffset : Nat
  totalOrder : Nat → Option Nat

namespace Pass

def stamp (p : Pass) : Pass where
  currentSeq := (p.currentSeq + 1) % 2 ^ 64
  currentDiskOffset := p.currentDiskOffset + 1
  totalOrder := update p.totalOrder p.currentDiskOffset (some p.currentSeq)

def stampLoop (stored : Nat) : Nat → Pass → Except Pass Pass
  | 0, p => .ok p
  | n + 1, p => if p.currentDiskOffset < stored then stampLoop stored n p.stamp else .error p

def applyEntry (brokerId stored : Nat) (p : Pass) (e : Nat × Int) : Except Pass Pass :=
  if e.1 = brokerId then p.stampLoop stored e.2.toNat
  else .ok { p with currentSeq := ((p.currentSeq + e.2) % 2 ^ 64).toNat }

end Pass

namespace Replica

def scalogSequencer (r : Replica) (cut : GlobalCut) : Replica :=
  match cut.foldlM (Pass.applyEntry r.brokerId r.stored)
      ⟨r.nextGlobalSequenceNumber, r.nextSequencingDiskOffset, r.totalOrder⟩ with
  | .ok p => { r with
      nextGlobalSequenceNumber := p.currentSeq
      nextSequencingDiskOffset := p.currentDiskOffset
      totalOrder := p.totalOrder }
  | .error p => { r with totalOrder := p.totalOrder }

def receiveGlobalCut (r : Replica) (cut : GlobalCut) : Replica :=
  r.scalogSequencer (cut.map fun e => (e.1, e.2.bmod (2 ^ 32)))

end Replica

structure FitsInt (cut : GlobalCut) : Prop where
  entry : ∀ e ∈ cut, e.2 < 2 ^ 31
  sum : total (cut.map fun e => (e.1, e.2.toNat)) < 2 ^ 64

instance (cut : GlobalCut) : Decidable (FitsInt cut) :=
  decidable_of_iff ((∀ e ∈ cut, e.2 < 2 ^ 31) ∧ total (cut.map fun e => (e.1, e.2.toNat)) < 2 ^ 64)
    ⟨fun h => ⟨h.1, h.2⟩, fun h => ⟨h.1, h.2⟩⟩

namespace Pass

structure Tracks (p : Pass) (l : List Nat) : Prop where
  totalOrder : ∀ j, p.totalOrder j = l[j]?
  next : p.currentDiskOffset = l.length

variable {p : Pass} {l : List Nat} {stored brokerId : Nat}

theorem Tracks.stamp (h : p.Tracks l) : p.stamp.Tracks (l ++ [p.currentSeq]) := by
  refine ⟨fun j => ?_, ?_⟩
  · change update p.totalOrder p.currentDiskOffset (some p.currentSeq) j = _
    rw [h.next]
    exact Shares.update_length h.totalOrder _ j
  · rw [length_append]
    exact congrArg (· + 1) h.next

theorem Tracks.stampLoop (stored n : Nat) : ∀ {p : Pass} {l : List Nat}, p.Tracks l → l.length + n ≤ stored →
    p.currentSeq + n < 2 ^ 64 →
    ∃ p', p.stampLoop stored n = .ok p' ∧ p'.Tracks (l ++ List.range' p.currentSeq n) ∧
      p'.currentSeq = p.currentSeq + n := by
  induction n with
  | zero =>
    intro p l h _ _
    rw [List.range'_zero, append_nil]
    exact ⟨p, rfl, h, rfl⟩
  | succ n ih =>
    intro p l h hstored hseq
    have hnext : p.stamp.currentSeq = p.currentSeq + 1 := Nat.mod_eq_of_lt (by omega)
    have hlen : (l ++ [p.currentSeq]).length = l.length + 1 := length_append
    obtain ⟨p', hp', htracks, hcount⟩ := ih h.stamp (by omega) (by omega)
    refine ⟨p', ?_, ?_, by omega⟩
    · rw [Pass.stampLoop, if_pos (by rw [h.next]; omega)]
      exact hp'
    · rw [hnext, append_assoc] at htracks
      exact htracks

theorem Tracks.foldlM (brokerId stored : Nat) (cut : GlobalCut) : ∀ {p : Pass} {l : List Nat}, p.Tracks l →
    (∀ e ∈ cut, 0 ≤ e.2) →
    l.length + share brokerId (cut.map fun e => (e.1, e.2.toNat)) ≤ stored →
    p.currentSeq + total (cut.map fun e => (e.1, e.2.toNat)) < 2 ^ 64 →
    ∃ p', cut.foldlM (applyEntry brokerId stored) p = .ok p' ∧
      p'.Tracks (l ++ positions brokerId p.currentSeq (cut.map fun e => (e.1, e.2.toNat))) := by
  induction cut with
  | nil =>
    intro p l h _ _ _
    refine ⟨p, rfl, ?_⟩
    rw [map_nil, positions, append_nil]
    exact h
  | cons e cut ih =>
    intro p l h hpos hstored hseq
    have hnonneg := hpos e mem_cons_self
    have hrest : ∀ e' ∈ cut, 0 ≤ e'.2 := fun e' he' => hpos e' (mem_cons_of_mem _ he')
    rw [map_cons, Shares.share_cons] at hstored
    rw [map_cons, Shares.total_cons] at hseq
    rw [foldlM_cons, applyEntry, map_cons, positions]
    dsimp only at hstored
    by_cases he : e.1 = brokerId
    · rw [if_pos he] at hstored
      rw [if_pos he, if_pos he]
      obtain ⟨p₁, hp₁, htracks, hcount⟩ := h.stampLoop stored e.2.toNat (by omega) (by omega)
      have hlen : (l ++ List.range' p.currentSeq e.2.toNat).length = l.length + e.2.toNat := by
        rw [length_append, length_range']
      obtain ⟨p₂, hp₂, hall⟩ := ih htracks hrest (by omega) (by omega)
      refine ⟨p₂, ?_, ?_⟩
      · rw [hp₁]
        exact hp₂
      · rw [hcount, append_assoc] at hall
        exact hall
    · rw [if_neg he] at hstored
      rw [if_neg he, if_neg he, nil_append]
      have hskip : ((p.currentSeq + e.2) % 2 ^ 64).toNat = p.currentSeq + e.2.toNat := by omega
      rw [hskip]
      exact ih (p := { p with currentSeq := p.currentSeq + e.2.toNat }) ⟨h.totalOrder, h.next⟩ hrest
        (by omega) (by dsimp only; omega)

end Pass

section Lockstep

variable {n b stored : Nat} {cut : GlobalCut} {cuts zeros : List GlobalCut}

theorem Replica.receive_cut (hpos : ∀ e ∈ cut, 0 ≤ e.2) (hfit : FitsInt cut)
    (hstored : share b (cut.map fun e => (e.1, e.2.toNat)) ≤ stored) (j : Nat) :
    (Replica.receiveGlobalCut { brokerId := b, stored := stored } cut).totalOrder j =
      (positions b 0 (cut.map fun e => (e.1, e.2.toNat)))[j]? := by
  have hnarrow : (cut.map fun e => (e.1, e.2.bmod (2 ^ 32))) = cut := by
    refine (map_congr_left fun e he => ?_).trans (map_id cut)
    have hlow := hpos e he
    have hhigh := hfit.entry e he
    have hself : e.2.bmod (2 ^ 32) = e.2 := Int.bmod_eq_of_le (by omega) (by omega)
    rw [hself]
    rfl
  rw [receiveGlobalCut, hnarrow, scalogSequencer]
  have hstart : Pass.Tracks ⟨0, 0, fun _ => none⟩ [] := ⟨fun _ => rfl, rfl⟩
  obtain ⟨p, hp, htracks⟩ := hstart.foldlM b stored cut hpos
    (by rw [length_nil, Nat.zero_add]; exact hstored) (by rw [Nat.zero_add]; exact hfit.sum)
  dsimp only
  rw [hp]
  exact htracks.totalOrder j

theorem Replica.receive_zeros (hzero : ∀ cut ∈ zeros, ∀ e ∈ cut, e.2 = 0) :
    zeros.foldl Replica.receiveGlobalCut { brokerId := b, stored := stored } =
      { brokerId := b, stored := stored } := by
  induction zeros with
  | nil => rfl
  | cons cut zeros ih =>
    have hpass : ∀ c : GlobalCut, (∀ e ∈ c, e.2 = 0) →
        (c.map fun e => (e.1, e.2.bmod (2 ^ 32))).foldlM (Pass.applyEntry b stored) ⟨0, 0, fun _ => none⟩ =
          .ok ⟨0, 0, fun _ => none⟩ := by
      intro c
      induction c with
      | nil => exact fun _ => rfl
      | cons e c ih =>
        intro hc
        have hentry : Pass.applyEntry b stored ⟨0, 0, fun _ => none⟩ (e.1, e.2.bmod (2 ^ 32)) =
            .ok ⟨0, 0, fun _ => none⟩ := by
          rw [hc e mem_cons_self, Pass.applyEntry]
          split <;> rfl
        rw [map_cons, foldlM_cons, hentry]
        exact ih fun e' he' => hc e' (mem_cons_of_mem _ he')
    have hkeep : Replica.receiveGlobalCut { brokerId := b, stored := stored } cut =
        { brokerId := b, stored := stored } := by
      rw [receiveGlobalCut, scalogSequencer, hpass cut (hzero cut mem_cons_self)]
    rw [foldl_cons, hkeep]
    exact ih fun c hc => hzero c (mem_cons_of_mem _ hc)

theorem positions_cutDelta_zero (seq : Nat) :
    positions b seq (cutDelta (fun _ => 0) cut) = positions b seq (cut.map fun e => (e.1, e.2.toNat)) := by
  induction cut generalizing seq with
  | nil => rfl
  | cons e cut ih =>
    rw [cutDelta, filterMap_cons, map_cons, positions]
    split
    next hnone =>
      split at hnone
      · cases hnone
      · rw [Int.toNat_of_nonpos (by omega), List.range'_zero, ite_self, nil_append]
        exact ih seq
    next d hd =>
      obtain ⟨-, rfl⟩ := Runs.of_guard hd
      rw [positions, Int.sub_zero]
      exact congrArg _ (ih _)

theorem deltas_zeros (hzero : ∀ cut ∈ zeros, ∀ e ∈ cut, e.2 = 0) : deltas zeros = [] := by
  induction zeros using List.reverseRecOn with
  | nil => rfl
  | append_singleton zeros cut ih =>
    rw [deltas_concat, ih fun c hc => hzero c (mem_append_left _ hc), nil_append]
    refine filterMap_eq_nil_iff.mpr fun e he => if_neg ?_
    rw [hzero cut (mem_append_right _ mem_cons_self) e he]
    exact Int.lt_irrefl 0

theorem Sent.left {rest : List GlobalCut} (h : Sent n (cuts ++ rest)) : Sent n cuts := by
  intro k cut hk
  have hlt := (List.getElem?_eq_some_iff.mp hk).1
  have hk' := h k cut ((List.getElem?_append_left hlt).trans hk)
  rw [take_append_of_le_length (Nat.le_of_lt hlt)] at hk'
  exact hk'

theorem LocalSequencer.Clear.mono {s : LocalSequencer} {m n : Nat} (hmn : m ≤ n) :
    ∀ {j off : Nat}, s.Clear n j off → s.Clear m j off := by
  induction m generalizing n with
  | zero => exact fun _ => trivial
  | succ m ih =>
    cases n with
    | zero => exact absurd hmn (Nat.not_succ_le_zero m)
    | succ n => exact fun h => ⟨h.1, ih (Nat.le_of_succ_le_succ hmn) h.2⟩

theorem LocalSequencer.receive_idle {s : LocalSequencer} (hnodup : (cut.map (·.1)).Nodup)
    (hsame : ∀ e ∈ cut, (s.lastAppliedGlobalCut e.1).getD 0 = e.2) :
    ∃ f, s.receiveGlobalCut cut = { s with lastAppliedGlobalCut := f } ∧
      ∀ b, (f b).getD 0 = (s.lastAppliedGlobalCut b).getD 0 := by
  have hle : ∀ e ∈ cut, (s.lastAppliedGlobalCut e.1).getD 0 ≤ e.2 := fun e he => Int.le_of_eq (hsame e he)
  obtain ⟨hdelta, hvalue⟩ := foldl_collect hnodup s.lastAppliedGlobalCut [] hle
  have hshare := share_cutDelta hnodup (v := fun b => (s.lastAppliedGlobalCut b).getD 0) hle
  have hnone : cutDelta (fun b => (s.lastAppliedGlobalCut b).getD 0) cut = [] := by
    refine filterMap_eq_nil_iff.mpr fun e he => if_neg ?_
    dsimp only
    rw [hsame e he, Int.sub_self]
    exact Int.lt_irrefl 0
  rw [hnone] at hdelta hshare
  refine ⟨(cut.foldl collect (s.lastAppliedGlobalCut, [])).1, ?_, fun b => ?_⟩
  · rw [receiveGlobalCut]
    exact if_pos hdelta
  · rw [hvalue, ← hshare]
    exact Int.add_zero _

def LocalSequencer.start (b batchSize logOffset validEnd : Nat) (log : Nat → MessageHeader) : LocalSequencer :=
  { brokerId := b, batchSize, logOffset, log, validatedWrittenByteOffset := validEnd }

variable {batchSize logOffset validEnd : Nat} {log : Nat → MessageHeader}

theorem LocalSequencer.receive_zeros (b batchSize logOffset validEnd : Nat) (log : Nat → MessageHeader)
    (hsent : Sent n zeros) (hzero : ∀ cut ∈ zeros, ∀ e ∈ cut, e.2 = 0) :
    ∃ f, zeros.foldl receiveGlobalCut (start b batchSize logOffset validEnd log) =
        { start b batchSize logOffset validEnd log with lastAppliedGlobalCut := f } ∧
      ∀ b, (f b).getD 0 = 0 := by
  induction zeros using List.reverseRecOn with
  | nil => exact ⟨_, rfl, fun _ => rfl⟩
  | append_singleton zeros cut ih =>
    have hcut : Follows n _ cut := hsent zeros.length cut List.getElem?_concat_length
    obtain ⟨f, hf, hnone⟩ := ih hsent.left fun c hc => hzero c (mem_append_left _ hc)
    rw [foldl_append, hf, foldl_cons, foldl_nil]
    obtain ⟨f', hf', hsame⟩ := receive_idle
      (s := { start b batchSize logOffset validEnd log with lastAppliedGlobalCut := f })
      (hcut.sorted.imp Nat.ne_of_lt) fun e he =>
        (hnone e.1).trans (hzero cut (mem_append_right _ mem_cons_self) e he).symm
    exact ⟨f', hf', fun b => (hsame b).trans (hnone b)⟩

theorem LocalSequencer.receive_first (hsent : Sent n (zeros ++ [cut])) (hzero : ∀ cut ∈ zeros, ∀ e ∈ cut, e.2 = 0)
    (hvalid : (start b batchSize logOffset validEnd log).Clear stored 0 logOffset)
    (hstored : ∀ e ∈ cut, e.1 = b → e.2 ≤ stored) (j : Nat) :
    ((zeros ++ [cut]).foldl receiveGlobalCut (start b batchSize logOffset validEnd log)).totalOrder j =
      (positions b 0 (cut.map fun e => (e.1, e.2.toNat)))[j]? := by
  obtain ⟨f, hf, hnone⟩ := receive_zeros b batchSize logOffset validEnd log hsent.left hzero
  rw [foldl_append, hf, foldl_cons, foldl_nil]
  have hdeltas := deltas_zeros hzero
  have happlied : Applied { start b batchSize logOffset validEnd log with lastAppliedGlobalCut := f }
      (zeros ++ [cut]) zeros.length := by
    refine ⟨?_, fun b => ?_⟩ <;> rw [take_left, hdeltas]
    · exact ⟨rfl, fun _ => rfl, rfl, rfl⟩
    · exact hnone b
  have hclear : ∀ e ∈ cutDelta (fun b => (f b).getD 0) cut, e.1 = b →
      Clear { start b batchSize logOffset validEnd log with lastAppliedGlobalCut := f } e.2 0 logOffset := by
    intro e he heq
    refine .congr (s := start b batchSize logOffset validEnd log) ?_ ?_ ?_ (hvalid.mono ?_)
    · rfl
    · rfl
    · rfl
    · obtain ⟨e', he', hfrom⟩ := mem_filterMap.mp he
      simp only [hnone, Int.sub_zero] at hfrom
      obtain ⟨-, rfl⟩ := Runs.of_guard hfrom
      exact Int.toNat_le.mpr (hstored e' he' heq)
  obtain ⟨hafter, hid⟩ := happlied.receive hsent List.getElem?_concat_length hclear
  rw [hafter.inStep.totalOrder, take_of_length_le (by rw [length_append]; rfl), deltas_concat, hdeltas,
    nil_append, hid]
  exact congrArg (·[j]?) (positions_cutDelta_zero 0)

/-- Up to the first cut that orders a message, the replica stamps what the primary stamps. -/
theorem replica_stamps_primary_order (hsent : Sent n cuts) (hfirst : ∀ cut ∈ cuts.dropLast, ∀ e ∈ cut, e.2 = 0)
    (hfit : ∀ cut ∈ cuts, FitsInt cut)
    (hvalid : (LocalSequencer.start b batchSize logOffset validEnd log).Clear stored 0 logOffset)
    (hstored : ∀ cut ∈ cuts, ∀ e ∈ cut, e.1 = b → e.2 ≤ stored) (j : Nat) :
    (cuts.foldl Replica.receiveGlobalCut { brokerId := b, stored := stored }).totalOrder j =
      (cuts.foldl LocalSequencer.receiveGlobalCut (.start b batchSize logOffset validEnd log)).totalOrder j := by
  cases cuts using List.reverseRecOn with
  | nil => rfl
  | append_singleton zeros cut =>
    rw [dropLast_concat] at hfirst
    have hmem : cut ∈ zeros ++ [cut] := mem_append_right _ mem_cons_self
    have hcut : Follows n _ cut := hsent zeros.length cut List.getElem?_concat_length
    have hnodup : ((cut.map fun e => (e.1, e.2.toNat)).map (·.1)).Nodup := by
      rw [map_map]
      exact hcut.sorted.imp Nat.ne_of_lt
    have hpos : ∀ e ∈ cut, 0 ≤ e.2 := by
      intro e he
      have hle := hcut.monotone e he
      rw [← hsent.share_deltas] at hle
      exact Int.le_trans (Int.natCast_nonneg _) hle
    have hshare : share b (cut.map fun e => (e.1, e.2.toNat)) ≤ stored := by
      refine Shares.share_le hnodup fun e he heq => ?_
      obtain ⟨e', he', rfl⟩ := mem_map.mp he
      exact Int.toNat_le.mpr (hstored cut hmem e' he' heq)
    rw [LocalSequencer.receive_first hsent hfirst hvalid (hstored cut hmem), foldl_append,
      Replica.receive_zeros hfirst]
    exact Replica.receive_cut hpos (hfit cut hmem) hshare j

end Lockstep

def evenSizes (j : Nat) : MessageHeader := ⟨64, 64, j⟩

theorem replica_stamps_primary_order_firstCut :
    let cuts : List GlobalCut := [[(0, 0), (1, 0)], [(0, 2), (1, 3)]]
    (cuts.foldl Replica.receiveGlobalCut { brokerId := 1, stored := 3 }).totalOrder 2 =
        (cuts.foldl LocalSequencer.receiveGlobalCut (.start 1 4096 1024 1216 evenSizes)).totalOrder 2 ∧
      (cuts.foldl Replica.receiveGlobalCut { brokerId := 1, stored := 3 }).totalOrder 2 = some 4 := by
  have hsent : Sent 2 [[(0, 0), (1, 0)], [(0, 2), (1, 3)]] :=
    (Sent.nil.concat (by decide)).concat (by decide)
  exact ⟨replica_stamps_primary_order hsent (by decide) (by decide) (by decide) (by decide) 2, by decide +kernel⟩

theorem replica_misses_primary_order :
    let cuts : List GlobalCut := [[(0, 1), (1, 1)], [(0, 2), (1, 2)]]
    Sent 2 cuts ∧ (LocalSequencer.start 1 4096 1024 1152 evenSizes).Clear 2 0 1024 ∧
      (∀ cut ∈ cuts, ∀ e ∈ cut, e.1 = 1 → e.2 ≤ (2 : Nat)) ∧
      ¬ ∀ j, (cuts.foldl Replica.receiveGlobalCut { brokerId := 1, stored := 2 }).totalOrder j =
        (cuts.foldl LocalSequencer.receiveGlobalCut (.start 1 4096 1024 1152 evenSizes)).totalOrder j := by
  have hsent : Sent 2 [[(0, 1), (1, 1)], [(0, 2), (1, 2)]] :=
    (Sent.nil.concat (by decide)).concat (by decide)
  exact ⟨hsent, by decide, by decide, fun h => absurd (h 1) (by decide +kernel)⟩

end Embarcadero.Scalog
