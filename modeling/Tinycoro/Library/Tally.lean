import Mathlib.Algebra.BigOperators.Group.Finset.Basic

/-! Totals over a finite family of which one member changes. -/
namespace Tally

variable {ι M : Type*} [Fintype ι] [DecidableEq ι] [AddCommMonoid M]

/-- Two families that differ at one index have totals that differ by it. -/
theorem sum_add_of_eq_off {f g : ι → M} {i : ι} (h : ∀ j, j ≠ i → g j = f j) :
    ∑ j, g j + f i = ∑ j, f j + g i := by
  have hRest : ∑ j ∈ Finset.univ.erase i, g j = ∑ j ∈ Finset.univ.erase i, f j :=
    Finset.sum_congr rfl (fun j hj => h j (Finset.ne_of_mem_erase hj))
  rw [← Finset.add_sum_erase _ g (Finset.mem_univ i), ← Finset.add_sum_erase _ f
    (Finset.mem_univ i), hRest, add_right_comm, add_comm (g i), add_right_comm]

/-- The total of what the members hold when one of them is replaced. What comes in
and what goes out is settled by the member alone. -/
theorem sum_update_flow {α N : Type*} [AddCancelCommMonoid N] (f : α → N) (w : ι → α) {i : ι}
    {old new : α} {a b : N} (hOld : w i = old) (h : f new + a = f old + b) :
    ∑ j, f (Function.update w i new j) + a = ∑ j, f (w j) + b := by
  have hOff : ∀ j, j ≠ i → (f ∘ Function.update w i new) j = (f ∘ w) j := by
    intro j hj
    rw [Function.comp_apply, Function.update_of_ne hj, Function.comp_apply]
  have hSum : ∑ j, f (Function.update w i new j) + f old = ∑ j, f (w j) + f new := by
    have hBoth := sum_add_of_eq_off hOff
    rw [Function.comp_apply, hOld, Function.comp_apply, Function.update_self] at hBoth
    exact hBoth
  apply add_right_cancel (b := f old)
  rw [add_right_comm, hSum, add_assoc, h, add_left_comm, add_comm]

end Tally
