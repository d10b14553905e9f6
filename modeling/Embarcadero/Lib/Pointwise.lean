import Mathlib

namespace Pointwise

open Function (update update_apply)

variable {ι α : Type*}

theorem forall_update [DecidableEq ι] {Q : ι → α → Prop} {f : ι → α} {i : ι} {a : α} (h : ∀ j, Q j (f j)) (ha : Q i a) :
    ∀ j, Q j (update f i a j) :=
  (Function.forall_update_iff f Q).mpr ⟨ha, fun j _ => h j⟩

theorem forall_concat {Q : α → Prop} {l : List α} {a : α} (h : ∀ b ∈ l, Q b) (ha : Q a) : ∀ b ∈ l ++ [a], Q b :=
  List.forall_mem_append.mpr ⟨h, List.forall_mem_singleton.mpr ha⟩

end Pointwise
