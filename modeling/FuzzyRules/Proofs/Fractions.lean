import Mathlib.Algebra.BigOperators.Group.List.Basic
import Mathlib.Algebra.Order.Ring.Rat
import FuzzyRules.Scalar

/-!
# Scalars read over exact fractions

Over the rational numbers the operations of a scalar are the usual ones: the least of two numbers
is their minimum, and the mean of a list is its sum divided by its length.
-/

namespace FuzzyRules.Scalar

@[simp] theorem ofCount_rat (n : Nat) : (ofCount n : ℚ) = n := rfl

@[simp] theorem isFinite_rat (x : ℚ) : isFinite x = true := rfl

theorem least_rat (x y : ℚ) : least x y = min x y := by
  change (if y < x then y else if decide (x = x) then x else y) = min x y
  rw [decide_eq_true rfl, if_pos rfl]
  by_cases h : y < x
  · rw [if_pos h, min_eq_right h.le]
  · rw [if_neg h, min_eq_left (not_lt.1 h)]

theorem sumFrom_rat (first : ℚ) (rest : List ℚ) : sumFrom first rest = (first :: rest).sum := by
  induction rest generalizing first with
  | nil => simp
  | cons x rest ih =>
    rw [sumFrom_cons, ih]
    change ((first + x) :: rest).sum = _
    rw [List.sum_cons, List.sum_cons, List.sum_cons, add_assoc]

theorem mean_rat (first : ℚ) (rest : List ℚ) :
    mean first rest = (first :: rest).sum / (first :: rest).length := by
  change sumFrom first rest / ((rest.length + 1 : Nat) : ℚ) = _
  rw [sumFrom_rat, List.length_cons]

end FuzzyRules.Scalar
