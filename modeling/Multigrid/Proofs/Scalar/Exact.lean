import Multigrid.Scalar.Storage
import Mathlib

/-!
# Exact arithmetic

For the rationals the operations of the kernels are the usual ones.  Extremes that a kernel takes
one item at a time are extremes of lists, and so are sums, whatever is added in between.

## Main definitions

* `exceedsGuard`: the test of a denominator against the guard

## Main results

* `magnitude_eq_abs`, `divisionGuard_eq`: the magnitude and the guard of a division
* `isLeast_foldl_least`, `isGreatest_foldl_greatest`: extremes that are taken one item at a time
* `foldl_add_eq_sum_map`, `foldl_ite_add_eq_sum`: sums that are taken one item at a time
-/

namespace Multigrid

theorem magnitude_eq_abs (x : Rat) : Arith.magnitude x = |x| := by
  show (if x < 0 then -x else x) = |x|
  split_ifs with h
  · exact (abs_of_neg h).symm
  · exact (abs_of_nonneg (not_lt.mp h)).symm

theorem divisionGuard_eq : (divisionGuard : Rat) = 1e-32 := rfl

theorem divisionGuard_pos : 0 < (divisionGuard : Rat) := by
  rw [divisionGuard_eq]
  norm_num

/-- Is a denominator above the guard in magnitude? -/
def exceedsGuard (x : Rat) : Bool := divisionGuard < |x|

/-- A test against the guard says the same of two denominators. -/
theorem guard_lt_magnitude_congr {x y : Rat} (h : exceedsGuard x = exceedsGuard y) :
    divisionGuard < Arith.magnitude x ↔ divisionGuard < Arith.magnitude y := by
  rw [magnitude_eq_abs, magnitude_eq_abs]
  exact decide_eq_decide.mp h

/-! ## Extremes -/

theorem least_eq_min (a b : Rat) : Arith.least a b = min a b := by
  show (if a < b then a else if a ≤ a then b else a) = min a b
  rw [if_pos (le_refl a)]
  split_ifs with h
  · exact (min_eq_left h.le).symm
  · exact (min_eq_right (not_lt.mp h)).symm

theorem greatest_eq_max (a b : Rat) : Arith.greatest a b = max a b := by
  show (if b < a then a else if a ≤ a then b else a) = max a b
  rw [if_pos (le_refl a)]
  split_ifs with h
  · exact (max_eq_left h.le).symm
  · exact (max_eq_right (not_lt.mp h)).symm

theorem isLeast_foldl_least (start : Rat) (items : List Rat) :
    IsLeast {x | x ∈ start :: items} (items.foldl Arith.least start) := by
  rw [show (Arith.least : Rat → Rat → Rat) = min from funext₂ least_eq_min]
  exact List.min?_eq_some_iff.mp List.min?_cons'

theorem isGreatest_foldl_greatest (start : Rat) (items : List Rat) :
    IsGreatest {x | x ∈ start :: items} (items.foldl Arith.greatest start) := by
  rw [show (Arith.greatest : Rat → Rat → Rat) = max from funext₂ greatest_eq_max]
  exact List.max?_eq_some_iff.mp List.max?_cons'

/-! ## Sums -/

variable {α : Type}

theorem foldl_add_eq_sum_map (f : α → Rat) (items : List α) (start : Rat) :
    items.foldl (fun sum x => sum + f x) start = start + (items.map f).sum := by
  induction items generalizing start with
  | nil => simp
  | cons x items ih => rw [List.foldl_cons, ih, List.map_cons, List.sum_cons, add_assoc]

theorem foldl_ite_add_eq_sum (p : α → Prop) [DecidablePred p] (f : α → Rat) (items : List α)
    (start : Rat) :
    items.foldl (fun sum x => if p x then sum + f x else sum) start =
      start + (items.map fun x => if p x then f x else 0).sum := by
  rw [← foldl_add_eq_sum_map]
  congr 1
  funext sum x
  split_ifs
  · rfl
  · rw [add_zero]

/-- Items that are at most zero make a sum smaller. -/
theorem sum_le_sum_of_sublist {xs ys : List Rat} (h : xs.Sublist ys) (hys : ∀ y ∈ ys, y ≤ 0) :
    ys.sum ≤ xs.sum :=
  List.Sublist.sum_le_sum (M := Ratᵒᵈ) h hys

theorem sum_map_filter (p : α → Bool) (f : α → Rat) (items : List α) :
    ((items.filter p).map f).sum = (items.map fun x => if p x then f x else 0).sum := by
  rw [List.sum_map_ite]
  simp

end Multigrid
