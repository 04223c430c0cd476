import Mathlib

/-! Sums of the first entries of a list: in ascending order they are the least. -/
namespace PrefixSums

variable {α : Type*} {weight : α → ℕ} {a : α} {l m : List α}

/-- The weight of the entries of a list. -/
def total (weight : α → ℕ) (l : List α) : ℕ := (l.map weight).sum

@[simp] theorem total_nil : total weight [] = 0 := rfl

theorem total_append : total weight (l ++ m) = total weight l + total weight m := by simp [total]

theorem total_perm (h : l.Perm m) : total weight l = total weight m := (h.map weight).sum_eq

end PrefixSums
