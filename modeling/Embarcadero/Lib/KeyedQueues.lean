import Mathlib

namespace KeyedQueues

open Function (update update_of_ne update_self)
open List

variable {K V : Type*} {m : K → List V} {keys : List K} {size : Nat} {k : K}

structure Counted (m : K → List V) (keys : List K) (size : Nat) : Prop where
  nodup : keys.Nodup
  covered : ∀ k, m k ≠ [] → k ∈ keys
  size : size = (keys.map fun k => (m k).length).sum

theorem Counted.empty : Counted (fun _ : K => ([] : List V)) [] 0 := ⟨.nil, fun _ h => absurd rfl h, rfl⟩

theorem Counted.eq_nil_of_not_mem (h : Counted m keys size) (hk : k ∉ keys) : m k = [] :=
  by_contra fun hne => hk (h.covered k hne)

theorem Counted.length_le (h : Counted m keys size) (k : K) : (m k).length ≤ size := by
  by_cases hk : k ∈ keys
  · rw [h.size]
    exact le_sum_of_mem (mem_map_of_mem (f := fun j => (m j).length) hk)
  · rw [h.eq_nil_of_not_mem hk]
    exact Nat.zero_le _

variable [DecidableEq K]

theorem sum_update (hn : keys.Nodup) (hk : k ∈ keys) (l : List V) :
    (keys.map fun j => (update m k l j).length).sum + (m k).length =
      (keys.map fun j => (m j).length).sum + l.length := by
  induction keys with
  | nil => cases hk
  | cons a rest ih =>
    rw [nodup_cons] at hn
    rw [map_cons, map_cons, sum_cons, sum_cons]
    by_cases ha : k = a
    · subst ha
      have hrest : (rest.map fun j => (update m k l j).length) = rest.map fun j => (m j).length := by
        apply map_congr_left
        intro j hj
        rw [update_of_ne (ne_of_mem_of_not_mem hj hn.1)]
      rw [hrest, update_self]
      omega
    · have hrest := ih hn.2 ((mem_cons.mp hk).resolve_left ha)
      rw [update_of_ne (Ne.symm ha)]
      omega

namespace Counted

theorem set (h : Counted m keys size) (hk : k ∈ keys) {l : List V} {size' : Nat}
    (hsize : size' + (m k).length = size + l.length) : Counted (update m k l) keys size' where
  nodup := h.nodup
  covered j hj := by
    by_cases hjk : j = k
    · exact hjk ▸ hk
    · exact h.covered j (by rwa [update_of_ne hjk] at hj)
  size := by
    have hsum := sum_update (m := m) h.nodup hk l
    rw [← h.size] at hsum
    omega

theorem enroll (h : Counted m keys size) (k : K) :
    Counted m (if k ∈ keys then keys else keys ++ [k]) size ∧ k ∈ if k ∈ keys then keys else keys ++ [k] := by
  split
  · exact ⟨h, ‹_›⟩
  next hk =>
    refine ⟨⟨?_, fun j hj => mem_append_left _ (h.covered j hj), ?_⟩, mem_append_right _ mem_cons_self⟩
    · rw [nodup_append]
      exact ⟨h.nodup, nodup_singleton k, fun a ha b hb heq => hk (mem_singleton.mp hb ▸ heq ▸ ha)⟩
    · rw [map_append, sum_append, ← h.size, map_singleton, sum_singleton,
        h.eq_nil_of_not_mem hk, length_nil, Nat.add_zero]

theorem forget (h : Counted m keys size) (hk : m k = []) : Counted m (keys.filter (· ≠ k)) size where
  nodup := h.nodup.filter _
  covered j hj := by
    refine mem_filter.mpr ⟨h.covered j hj, decide_eq_true ?_⟩
    rintro rfl
    exact hj hk
  size := by
    rw [h.size]
    clear h
    induction keys with
    | nil => rfl
    | cons a rest ih =>
      rw [map_cons, sum_cons, filter_cons, ih]
      split
      · rw [map_cons, sum_cons]
      next ha => rw [of_not_not (of_decide_eq_false (Bool.eq_false_iff.mpr ha)), hk, length_nil, Nat.zero_add]

theorem clear (h : Counted m keys size) (k : K) :
    Counted (update m k []) (keys.filter (· ≠ k)) (size - (m k).length) := by
  by_cases hk : k ∈ keys
  · have hsize : size - (m k).length + (m k).length = size + ([] : List V).length :=
      Nat.sub_add_cancel (h.length_le k)
    exact (h.set hk hsize).forget (update_self ..)
  · have hnil := h.eq_nil_of_not_mem hk
    have hsame : update m k [] = m := by rw [← hnil, Function.update_eq_self]
    rw [hsame, hnil]
    exact h.forget hnil

end Counted

end KeyedQueues
