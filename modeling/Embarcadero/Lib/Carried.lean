import Mathlib

namespace Carried

open Function (update)

variable {ι α : Type*} [Fintype ι] [DecidableEq ι]

theorem sum_update (f : α → Nat) (g : ι → α) (i : ι) (a : α) :
    (∑ j, f (update g i a j)) + f (g i) = (∑ j, f (g j)) + f a := by
  rw [← Finset.add_sum_erase _ (fun j => f (update g i a j)) (Finset.mem_univ i),
    ← Finset.add_sum_erase _ (fun j => f (g j)) (Finset.mem_univ i), Function.update_self]
  have hrest : ∀ j ∈ Finset.univ.erase i, f (update g i a j) = f (g j) := fun j hj => by
    rw [Function.update_of_ne (Finset.ne_of_mem_erase hj)]
  rw [Finset.sum_congr rfl hrest]
  omega

end Carried
