import Mathlib

namespace Shares

open List

variable {β : Type*}

def total (r : List (β × Nat)) : Nat := (r.map (·.2)).sum

@[simp] theorem total_nil : total ([] : List (β × Nat)) = 0 := rfl

@[simp] theorem total_cons (b : β) (n : Nat) (r : List (β × Nat)) : total ((b, n) :: r) = n + total r := by
  rw [total, map_cons, sum_cons]
  rfl

theorem total_append (r r' : List (β × Nat)) : total (r ++ r') = total r + total r' := by
  rw [total, map_append, sum_append]
  rfl

variable [DecidableEq β]

def positions (me : β) : Nat → List (β × Nat) → List Nat
  | _, [] => []
  | seq, (b, n) :: r => (if b = me then List.range' seq n else []) ++ positions me (seq + n) r

def share (me : β) (r : List (β × Nat)) : Nat := total (r.filter (·.1 = me))

variable {me b b' : β} {seq p j j' : Nat} {r r' : List (β × Nat)}

theorem positions_append (me : β) (seq : Nat) (r r' : List (β × Nat)) :
    positions me seq (r ++ r') = positions me seq r ++ positions me (seq + total r) r' := by
  induction r generalizing seq with
  | nil => rfl
  | cons e r ih =>
    obtain ⟨b, n⟩ := e
    rw [cons_append, positions, ih, positions, total_cons, append_assoc, Nat.add_assoc]

theorem share_append (me : β) (r r' : List (β × Nat)) : share me (r ++ r') = share me r + share me r' := by
  rw [share, filter_append, total_append]
  rfl

theorem share_cons (me : β) (e : β × Nat) (r : List (β × Nat)) :
    share me (e :: r) = (if e.1 = me then e.2 else 0) + share me r := by
  rw [share, filter_cons]
  by_cases he : e.1 = me
  · rw [if_pos (by simpa using he), if_pos he, total_cons]
    rfl
  · rw [if_neg (by simpa using he), if_neg he, Nat.zero_add]
    rfl

def add (b : β) (n : Nat) : List (β × Nat) → List (β × Nat)
  | [] => [(b, n)]
  | (b', n') :: r => if b' = b then (b', n' + n) :: r else (b', n') :: add b n r

theorem total_add (b : β) (n : Nat) (r : List (β × Nat)) : total (add b n r) = total r + n := by
  induction r with
  | nil => simp [add]
  | cons e r ih =>
    rw [add]
    split
    · rw [total_cons, total_cons, Nat.add_right_comm]
    · rw [total_cons, total_cons, ih, Nat.add_assoc]

theorem share_add (me b : β) (n : Nat) (r : List (β × Nat)) :
    share me (add b n r) = share me r + if b = me then n else 0 := by
  induction r with
  | nil =>
    rw [add, share_cons]
    exact Nat.add_comm _ _
  | cons e r ih =>
    rw [add]
    split
    next heq =>
      rw [share_cons, share_cons, heq]
      dsimp only
      split <;> omega
    · rw [share_cons, share_cons, ih, Nat.add_assoc]

theorem share_le_total (me : β) (r : List (β × Nat)) : share me r ≤ total r := by
  induction r with
  | nil => exact Nat.le_refl _
  | cons e r ih =>
    rw [share_cons, total_cons]
    split <;> omega

theorem share_eq_zero (h : me ∉ r.map (·.1)) : share me r = 0 := by
  rw [share, filter_eq_nil_iff.mpr]
  · rfl
  · intro e he heq
    exact h (of_decide_eq_true heq ▸ mem_map_of_mem he)

theorem share_le {n : Nat} (hnodup : (r.map (·.1)).Nodup) (h : ∀ e ∈ r, e.1 = me → e.2 ≤ n) : share me r ≤ n := by
  induction r with
  | nil => exact Nat.zero_le n
  | cons e r ih =>
    rw [map_cons, nodup_cons] at hnodup
    rw [share_cons]
    split
    next he =>
      rw [share_eq_zero (he ▸ hnodup.1)]
      exact h e mem_cons_self he
    · rw [Nat.zero_add]
      exact ih hnodup.2 fun e' he' => h e' (mem_cons_of_mem _ he')

theorem sum_share {bs : List β} (hbs : bs.Nodup) (h : ∀ e ∈ r, e.1 ∈ bs) :
    (bs.map fun b => share b r).sum = total r := by
  induction r with
  | nil => exact sum_eq_zero (by simp [share])
  | cons e r ih =>
    have hone : (bs.map fun b => if e.1 = b then e.2 else 0).sum = e.2 := by
      rw [sum_map_eq_nsmul_single e.1 _ fun b hb _ => if_neg (Ne.symm hb), if_pos rfl,
        count_eq_one_of_mem hbs (h e mem_cons_self), one_nsmul]
    simp only [share_cons, sum_map_add]
    rw [hone, ih fun e' he' => h e' (mem_cons_of_mem _ he')]
    exact (total_cons e.1 e.2 r).symm

theorem length_positions (me : β) (seq : Nat) (r : List (β × Nat)) : (positions me seq r).length = share me r := by
  induction r generalizing seq with
  | nil => rfl
  | cons e r ih =>
    obtain ⟨b, n⟩ := e
    rw [positions, length_append, ih, share_cons]
    by_cases hb : b = me
    · rw [if_pos hb, if_pos hb, length_range']
    · rw [if_neg hb, if_neg hb, length_nil]

theorem bounds_of_mem (h : p ∈ positions me seq r) : seq ≤ p ∧ p < seq + total r := by
  induction r generalizing seq with
  | nil => cases h
  | cons e r ih =>
    obtain ⟨b, n⟩ := e
    rw [total_cons]
    cases mem_append.mp h with
    | inl hown =>
      split at hown
      · have hr := List.mem_range'_1.mp hown
        omega
      · cases hown
    | inr hrest =>
      have hr := ih hrest
      omega

theorem pairwise_positions (me : β) (seq : Nat) (r : List (β × Nat)) : (positions me seq r).Pairwise (· < ·) := by
  induction r generalizing seq with
  | nil => exact .nil
  | cons e r ih =>
    obtain ⟨b, n⟩ := e
    refine pairwise_append.mpr ⟨?_, ih _, fun p hp q hq => ?_⟩
    · split
      · exact pairwise_lt_range'
      · exact .nil
    · split at hp
      · have hr := List.mem_range'_1.mp hp
        have hq := (bounds_of_mem hq).1
        omega
      · cases hp

theorem party_unique (h : p ∈ positions b seq r) (h' : p ∈ positions b' seq r) : b = b' := by
  induction r generalizing seq with
  | nil => cases h
  | cons e r ih =>
    obtain ⟨c, n⟩ := e
    have hown : ∀ {a : β}, p ∈ positions a seq ((c, n) :: r) →
        (c = a ∧ p < seq + n) ∨ (seq + n ≤ p ∧ p ∈ positions a (seq + n) r) := by
      intro a ha
      cases mem_append.mp ha with
      | inl hin =>
        split at hin
        · exact .inl ⟨‹_›, (List.mem_range'_1.mp hin).2⟩
        · cases hin
      | inr hrest => exact .inr ⟨(bounds_of_mem hrest).1, hrest⟩
    cases hown h with
    | inl hb =>
      cases hown h' with
      | inl hb' => exact hb.1.symm.trans hb'.1
      | inr hb' => omega
    | inr hb =>
      cases hown h' with
      | inl hb' => omega
      | inr hb' => exact ih hb.2 hb'.2

theorem position_unique (h : (positions b seq r)[j]? = some p) (h' : (positions b' seq r)[j']? = some p) :
    b = b' ∧ j = j' := by
  obtain rfl := party_unique (mem_of_getElem? h) (mem_of_getElem? h')
  have hnodup : (positions b seq r).Nodup := (pairwise_positions b seq r).imp Nat.ne_of_lt
  obtain ⟨hj, -⟩ := List.getElem?_eq_some_iff.mp h
  exact ⟨rfl, (List.getElem?_inj hj hnodup).mp (h.trans h'.symm)⟩

theorem exists_position (hle : seq ≤ p) (hlt : p < seq + total r) : ∃ b ∈ r.map (·.1), p ∈ positions b seq r := by
  induction r generalizing seq with
  | nil => exact absurd hlt (Nat.not_lt.mpr hle)
  | cons e r ih =>
    obtain ⟨b, n⟩ := e
    rw [total_cons] at hlt
    by_cases hfirst : p < seq + n
    · refine ⟨b, mem_cons_self, mem_append_left _ ?_⟩
      rw [if_pos rfl]
      exact List.mem_range'_1.mpr ⟨hle, hfirst⟩
    · obtain ⟨b', hb', hp⟩ := ih (Nat.not_lt.mp hfirst) (by omega)
      exact ⟨b', mem_cons_of_mem _ hb', mem_append_right _ hp⟩

theorem update_length {f : Nat → Option Nat} {l : List Nat} (h : ∀ j, f j = l[j]?) (p j : Nat) :
    Function.update f l.length (some p) j = (l ++ [p])[j]? := by
  rw [Function.update_apply, List.getElem?_append]
  split
  next hj =>
    rw [hj, if_neg (Nat.lt_irrefl _), Nat.sub_self]
    rfl
  next hj =>
    rw [h j]
    split
    · rfl
    · rw [List.getElem?_eq_none (by omega), List.getElem?_eq_none]
      rw [length_singleton]
      omega

theorem positions_eq_nil (h : me ∉ r.map (·.1)) : positions me seq r = [] := by
  rw [← length_eq_zero_iff, length_positions, share_eq_zero h]

theorem positions_concat (me b : β) (seq n : Nat) (r : List (β × Nat)) :
    positions me seq (r ++ [(b, n)]) = positions me seq r ++ if b = me then List.range' (seq + total r) n else [] := by
  rw [positions_append, positions, positions, append_nil]

structure Taken (r : List (β × Nat)) (me : β) (start n : Nat) : Prop where
  mem : (me, n) ∈ r
  range : positions me 0 r = List.range' start n

structure Ledger (r : List (β × Nat)) (value : Nat) (taken : β → Option (Nat × Nat)) : Prop where
  value : value = total r
  nodup : (r.map (·.1)).Nodup
  untaken : ∀ b, taken b = none → b ∉ r.map (·.1)
  taken : ∀ b start n, taken b = some (start, n) → Taken r b start n

namespace Ledger

variable {value : Nat} {taken : β → Option (Nat × Nat)}

theorem empty : Ledger ([] : List (β × Nat)) 0 fun _ => none where
  value := rfl
  nodup := .nil
  untaken _ _ := not_mem_nil
  taken _ _ _ h := nomatch h

theorem fetchAdd (h : Ledger r value taken) (hb : taken b = none) (n : Nat) :
    Ledger (r ++ [(b, n)]) (value + n) (Function.update taken b (some (value, n))) := by
  have hnew := h.untaken b hb
  refine ⟨?_, ?_, fun b' hb' => ?_, fun b' start m hb' => ?_⟩
  · rw [total_append, ← h.value]
    rfl
  · rw [map_append, nodup_append]
    refine ⟨h.nodup, nodup_singleton b, fun a ha c hc heq => hnew ?_⟩
    obtain rfl : c = b := mem_singleton.mp hc
    exact heq ▸ ha
  · rw [Function.update_apply] at hb'
    split at hb'
    · cases hb'
    · rw [map_append, mem_append, not_or]
      exact ⟨h.untaken b' hb', fun hmem => absurd (mem_singleton.mp hmem) ‹_›⟩
  · rw [Function.update_apply] at hb'
    split at hb'
    next heq =>
      cases hb'
      subst heq
      refine ⟨mem_append_right _ mem_cons_self, ?_⟩
      rw [positions_concat, positions_eq_nil hnew, if_pos rfl, nil_append, Nat.zero_add, h.value]
    next hne =>
      have hold := h.taken b' start m hb'
      refine ⟨mem_append_left _ hold.mem, ?_⟩
      rw [positions_concat, if_neg (Ne.symm hne), append_nil]
      exact hold.range

theorem lt_of_taken (h : Ledger r value taken) {start n : Nat} (hb : taken b = some (start, n)) (hn : 0 < n) :
    start < value := by
  have hmem : start ∈ positions b 0 r := by
    rw [(h.taken b start n hb).range]
    exact List.mem_range'_1.mpr ⟨Nat.le_refl _, Nat.lt_add_of_pos_right hn⟩
  have hbound := bounds_of_mem hmem
  rw [Nat.zero_add, ← h.value] at hbound
  exact hbound.2

end Ledger

def Apart (ranges : List (Nat × Nat)) : Prop :=
  ranges.Pairwise fun e e' => ∀ p, e.1 ≤ p → p < e.1 + e.2 → e'.1 ≤ p → ¬ p < e'.1 + e'.2

def Cover (ranges : List (Nat × Nat)) : Prop :=
  ∀ p, p < (ranges.map (·.2)).sum ↔ ∃ e ∈ ranges, e.1 ≤ p ∧ p < e.1 + e.2

section Ranges

variable {γ : Type*} {l : List γ} {owner : γ → β} {start len : γ → Nat}

theorem apart_of_taken (hnodup : (l.map owner).Nodup) (h : ∀ g ∈ l, Taken r (owner g) (start g) (len g)) :
    Apart (l.map fun g => (start g, len g)) := by
  rw [Apart, pairwise_map]
  refine (pairwise_map.mp hnodup).imp_of_mem fun {g g'} hg hg' hne p hp hlt hp' hlt' => hne ?_
  have hmem : p ∈ positions (owner g) 0 r := (h g hg).range ▸ List.mem_range'_1.mpr ⟨hp, hlt⟩
  have hmem' : p ∈ positions (owner g') 0 r := (h g' hg').range ▸ List.mem_range'_1.mpr ⟨hp', hlt'⟩
  exact party_unique hmem hmem'

theorem cover_of_taken (h : ∀ g ∈ l, Taken r (owner g) (start g) (len g))
    (hperm : r.Perm (l.map fun g => (owner g, len g))) : Cover (l.map fun g => (start g, len g)) := by
  intro p
  have hsum : ((l.map fun g => (start g, len g)).map (·.2)).sum = total r := by
    have hlen := (hperm.map (·.2)).sum_nat
    rw [total, hlen, map_map, map_map]
    rfl
  rw [hsum]
  constructor
  · intro hp
    obtain ⟨b, hb, hmem⟩ := exists_position (Nat.zero_le p) (Nat.lt_of_lt_of_eq hp (Nat.zero_add _).symm)
    obtain ⟨e, he, rfl⟩ := mem_map.mp hb
    obtain ⟨g, hg, rfl⟩ := mem_map.mp (hperm.mem_iff.mp he)
    rw [(h g hg).range] at hmem
    exact ⟨_, mem_map_of_mem hg, List.mem_range'_1.mp hmem⟩
  · rintro ⟨e, he, hle, hlt⟩
    obtain ⟨g, hg, rfl⟩ := mem_map.mp he
    have hmem : p ∈ positions (owner g) 0 r := (h g hg).range ▸ List.mem_range'_1.mpr ⟨hle, hlt⟩
    have hbound := bounds_of_mem hmem
    rw [Nat.zero_add] at hbound
    exact hbound.2

variable {value : Nat} {taken : β → Option (Nat × Nat)}

theorem Ledger.apart (h : Ledger r value taken) (hnodup : (l.map owner).Nodup)
    (htaken : ∀ g ∈ l, taken (owner g) = some (start g, len g)) : Apart (l.map fun g => (start g, len g)) :=
  apart_of_taken hnodup fun g hg => h.taken _ _ _ (htaken g hg)

theorem Ledger.cover (h : Ledger r value taken) (hnodup : (l.map owner).Nodup)
    (htaken : ∀ g ∈ l, taken (owner g) = some (start g, len g))
    (hall : ∀ b e, taken b = some e → ∃ g ∈ l, owner g = b) : Cover (l.map fun g => (start g, len g)) := by
  refine cover_of_taken (fun g hg => h.taken _ _ _ (htaken g hg)) ?_
  have hnodup' : (l.map fun g => (owner g, len g)).Nodup := by
    refine .of_map Prod.fst ?_
    rw [map_map]
    exact hnodup
  refine (perm_ext_iff_of_nodup h.nodup.of_map hnodup').mpr fun e => ⟨fun he => ?_, fun he => ?_⟩
  · obtain ⟨b, n⟩ := e
    have hkey : b ∈ r.map (·.1) := mem_map_of_mem he
    cases hb : taken b with
    | none => exact absurd hkey (h.untaken b hb)
    | some e =>
      obtain ⟨g, hg, rfl⟩ := hall b e hb
      have hown := (h.taken _ _ _ (htaken g hg)).mem
      rw [inj_on_of_nodup_map h.nodup he hown rfl]
      exact mem_map_of_mem hg
  · obtain ⟨g, hg, rfl⟩ := mem_map.mp he
    exact (h.taken _ _ _ (htaken g hg)).mem

end Ranges

end Shares
