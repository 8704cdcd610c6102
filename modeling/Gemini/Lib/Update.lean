/-
Sums over a family of which one member changes.
-/
import Mathlib.Algebra.BigOperators.Group.Finset.Basic
import Mathlib.Tactic.Abel

namespace Gemini.Lib

variable {ι β M : Type*} [DecidableEq ι] [AddCommMonoid M] {s : Finset ι} {i : ι}

/-- The change of a member is the change of the sum. -/
theorem sum_update_add (f : ι → β) (hi : i ∈ s) (w : β → M) (v : β) :
    (∑ k ∈ s, w (Function.update f i v k)) + w (f i) = (∑ k ∈ s, w (f k)) + w v := by
  have hrest : ∑ k ∈ s.erase i, w (Function.update f i v k) = ∑ k ∈ s.erase i, w (f k) := by
    apply Finset.sum_congr rfl
    intro k hk
    rw [Function.update_of_ne (Finset.ne_of_mem_erase hk)]
  calc (∑ k ∈ s, w (Function.update f i v k)) + w (f i)
      = w v + (∑ k ∈ s.erase i, w (f k)) + w (f i) := by
        rw [← Finset.add_sum_erase _ _ hi, Function.update_self, hrest]
    _ = (w (f i) + ∑ k ∈ s.erase i, w (f k)) + w v := by abel
    _ = (∑ k ∈ s, w (f k)) + w v := by rw [Finset.add_sum_erase _ (fun k => w (f k)) hi]

/-- A member outside of the sum does not matter. -/
theorem sum_update_of_notMem (f : ι → β) (hi : i ∉ s) (w : β → M) (v : β) :
    ∑ k ∈ s, w (Function.update f i v k) = ∑ k ∈ s, w (f k) := by
  apply Finset.sum_congr rfl
  intro k hk
  have hne : k ≠ i := by
    rintro rfl
    exact hi hk
  rw [Function.update_of_ne hne]

end Gemini.Lib
