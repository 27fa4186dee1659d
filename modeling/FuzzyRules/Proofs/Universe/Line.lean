import FuzzyRules.Universe.Interpolation
import Mathlib.Algebra.Order.Field.Basic
import Mathlib.Algebra.Order.Field.Rat
import Mathlib.Tactic.FieldSimp
import Mathlib.Tactic.Linarith
import Mathlib.Tactic.Ring

/-!
# The line through two terms

Over exact fractions the line through two terms with different centers meets both of them, stays
between their values on the way from one to the other, and climbs at one rate.
-/

namespace FuzzyRules.Universe

variable {a b : Term ℚ} {q : ℚ}

/-- How much the value changes with the coordinate. -/
def rate (a b : Term ℚ) : ℚ := (b.value - a.value) / (b.center - a.center)

theorem line_rat (a b : Term ℚ) (q : ℚ) :
    line a b q = a.value + (b.value - a.value) * (q - a.center) / (b.center - a.center) := rfl

theorem line_center_left (a b : Term ℚ) : line a b a.center = a.value := by
  rw [line_rat, sub_self, mul_zero, zero_div, add_zero]

theorem line_center_right (hab : b.center - a.center ≠ 0) : line a b b.center = b.value := by
  rw [line_rat, mul_div_cancel_right₀ _ hab, add_sub_cancel]

theorem line_sub_line (a b : Term ℚ) (p q : ℚ) :
    line a b q - line a b p = rate a b * (q - p) := by
  rw [line_rat, line_rat, rate]
  ring

theorem line_collinear (hab : b.center - a.center ≠ 0) (q : ℚ) :
    (line a b q - a.value) * (b.center - a.center) = (b.value - a.value) * (q - a.center) := by
  rw [line_rat]
  field_simp
  ring

theorem line_bounds (hab : a.center < b.center) (haq : a.center ≤ q) (hqb : q ≤ b.center) :
    min a.value b.value ≤ line a b q ∧ line a b q ≤ max a.value b.value := by
  have hpos : 0 < b.center - a.center := sub_pos.2 hab
  -- the share of the way from the first term to the second one
  have hlow : 0 ≤ (q - a.center) / (b.center - a.center) := div_nonneg (sub_nonneg.2 haq) hpos.le
  have hhigh : (q - a.center) / (b.center - a.center) ≤ 1 :=
    (div_le_one hpos).2 (sub_le_sub_right hqb _)
  rw [line_rat, mul_div_assoc]
  rcases le_total a.value b.value with hle | hle
  · rw [min_eq_left hle, max_eq_right hle]
    constructor <;> nlinarith
  · rw [min_eq_right hle, max_eq_left hle]
    constructor <;> nlinarith

end FuzzyRules.Universe
