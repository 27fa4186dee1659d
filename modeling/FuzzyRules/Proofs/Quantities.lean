import FuzzyRules.Proofs.Universe.Values
import Mathlib.Algebra.Order.Ring.Rat

/-!
# Fractions and what is not a number

A quantity is an exact fraction, or it is not a number. The latter compares with nothing, not even
with itself, and spoils every operation. A quotient by zero is not a number either, so a quantity
that is one has been computed without such a quotient.
-/

namespace FuzzyRules

inductive Quantity where
  | number (q : ℚ)
  | notANumber

namespace Quantity

def combine (f : ℚ → ℚ → ℚ) : Quantity → Quantity → Quantity
  | .number p, .number q => .number (f p q)
  | _, _ => .notANumber

def divide : Quantity → Quantity → Quantity
  | .number p, .number q => if q = 0 then .notANumber else .number (p / q)
  | _, _ => .notANumber

def Related (r : ℚ → ℚ → Prop) : Quantity → Quantity → Prop
  | .number p, .number q => r p q
  | _, _ => False

instance (r : ℚ → ℚ → Prop) [DecidableRel r] : DecidableRel (Related r)
  | .number p, .number q => inferInstanceAs (Decidable (r p q))
  | .number _, .notANumber => inferInstanceAs (Decidable False)
  | .notANumber, _ => inferInstanceAs (Decidable False)

instance : Scalar Quantity where
  add := combine (· + ·)
  sub := combine (· - ·)
  mul := combine (· * ·)
  div := divide
  le := Related (· ≤ ·)
  lt := Related (· < ·)
  beq a b := decide (Related (· = ·) a b)
  ofCount n := .number n
  isFinite
    | .number _ => true
    | .notANumber => false
  decidableLE := inferInstanceAs (DecidableRel (Related (· ≤ ·)))
  decidableLT := inferInstanceAs (DecidableRel (Related (· < ·)))

variable {p q : ℚ}

@[simp] theorem number_add (p q : ℚ) : number p + number q = number (p + q) := rfl

@[simp] theorem number_sub (p q : ℚ) : number p - number q = number (p - q) := rfl

@[simp] theorem number_mul (p q : ℚ) : number p * number q = number (p * q) := rfl

theorem number_div (hq : q ≠ 0) : number p / number q = number (p / q) := if_neg hq

@[simp] theorem number_le : number p ≤ number q ↔ p ≤ q := Iff.rfl

@[simp] theorem number_bne : (number p != number q) = !decide (p = q) := rfl

@[simp] theorem number_beq {x : Quantity} : (number p == x) = true ↔ x = number p := by
  cases x with
  | number q =>
    rw [number.injEq]
    exact (decide_eq_true_iff (p := p = q)).trans eq_comm
  | notANumber => exact iff_of_false Bool.false_ne_true Quantity.noConfusion

theorem not_lt_notANumber (x : Quantity) : ¬ x < notANumber := by
  cases x <;> exact id

theorem exists_number_of_le {x y : Quantity} (h : x ≤ y) :
    (∃ p, x = number p) ∧ ∃ q, y = number q := by
  cases x with
  | notANumber => exact h.elim
  | number p =>
    cases y with
    | notANumber => exact h.elim
    | number q => exact ⟨⟨p, rfl⟩, q, rfl⟩

/-- The fractions among the quantities are ordered, and nothing else compares. -/
theorem ordered_number : Scalar.Ordered fun x : Quantity => ∃ q, x = number q where
  total := by
    rintro _ _ ⟨p, rfl⟩ ⟨q, rfl⟩
    exact le_total p q
  trans := by
    rintro _ _ _ ⟨p, rfl⟩ ⟨q, rfl⟩ ⟨r, rfl⟩ hpq hqr
    exact le_trans (α := ℚ) hpq hqr
  proper_of_le := exists_number_of_le
  lt_iff := by
    rintro _ _ ⟨p, rfl⟩ ⟨q, rfl⟩
    exact not_le (α := ℚ).symm
  beq_of_le := by
    intro x y hxy hyx
    obtain ⟨⟨p, rfl⟩, q, rfl⟩ := exists_number_of_le hxy
    rw [number_beq, le_antisymm (α := ℚ) hxy hyx]

end Quantity

end FuzzyRules
