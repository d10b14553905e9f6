import Mathlib

namespace Assoc

open List

variable {κ α : Type*} [BEq κ] [LawfulBEq κ] {l : List (κ × α)} {k : κ} {v w : α}

theorem mem_of_lookup (h : l.lookup k = some v) : (k, v) ∈ l := by
  obtain ⟨l₁, l₂, rfl, -⟩ := lookup_eq_some_iff.mp h
  simp

theorem lookup_eq_none (h : k ∉ l.map (·.1)) : l.lookup k = none := by
  rw [lookup_eq_none_iff]
  intro e he
  rw [bne_iff_ne]
  intro heq
  exact h (heq ▸ mem_map_of_mem he)

theorem not_mem_of_lookup (h : l.lookup k = none) : k ∉ l.map (·.1) := by
  intro hmem
  obtain ⟨e, he, heq⟩ := mem_map.mp hmem
  exact bne_iff_ne.mp (lookup_eq_none_iff.mp h e he) heq.symm

theorem lookup_of_mem (hn : (l.map (·.1)).Nodup) (h : (k, v) ∈ l) : l.lookup k = some v := by
  induction l with
  | nil => cases h
  | cons d rest ih =>
    rw [map_cons, nodup_cons] at hn
    rw [lookup_cons]
    cases mem_cons.mp h with
    | inl heq => rw [← heq, beq_self_eq_true]
    | inr hmem =>
      have hne : k ≠ d.1 := fun heq => hn.1 (heq ▸ mem_map_of_mem hmem)
      rw [beq_eq_false_iff_ne.mpr hne]
      exact ih hn.2 hmem

theorem mem_unique (hn : (l.map (·.1)).Nodup) (h : (k, v) ∈ l) (h' : (k, w) ∈ l) : v = w :=
  Option.some.inj ((lookup_of_mem hn h).symm.trans (lookup_of_mem hn h'))

theorem length_filter_ne [DecidableEq κ] (hn : (l.map (·.1)).Nodup) (h : l.lookup k = some v) :
    (l.filter (·.1 ≠ k)).length + 1 = l.length := by
  obtain ⟨l₁, l₂, rfl, -⟩ := lookup_eq_some_iff.mp h
  rw [map_append, map_cons, nodup_middle, nodup_cons, ← map_append] at hn
  have hrest : ∀ e ∈ l₁ ++ l₂, decide (e.1 ≠ k) = true := fun e he =>
    decide_eq_true (ne_of_mem_of_not_mem (mem_map_of_mem he) hn.1)
  rw [filter_append, filter_cons_of_neg (by simp), ← filter_append,
    filter_eq_self.mpr hrest, length_append, length_append, length_cons]
  rfl

end Assoc
