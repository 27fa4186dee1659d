import FuzzyRules.Proofs.Universe.Arrangement

/-!
# The order of doubles

Two doubles that are numbers are compared by their range, then by their exponent and then by their
mantissa, and on the negative side the other way round. So they can all be compared with each other.
-/

namespace FuzzyRules.Double

open Float.Model (UnpackedFloat)

/-- From negative infinity to positive infinity. -/
def range : UnpackedFloat → Int
  | .infinity .negative => -2
  | .finite .negative .. => -1
  | .finite .positive .. => 1
  | .infinity .positive => 2
  | .zero _ | .notANumber => 0

def exponent : UnpackedFloat → Int
  | .finite .negative _ e _ => -e
  | .finite .positive _ e _ => e
  | _ => 0

def mantissa : UnpackedFloat → Int
  | .finite .negative m _ _ => -m
  | .finite .positive m _ _ => m
  | _ => 0

def Precedes (a b : UnpackedFloat) : Prop :=
  range a < range b ∨ range a = range b ∧
    (exponent a < exponent b ∨ exponent a = exponent b ∧ mantissa a ≤ mantissa b)

variable {a b c : UnpackedFloat}

theorem isLE_compare_iff {e e' : Int} {m m' : Nat} :
    ((compare e e').then (compare m m')).isLE = true ↔ e < e' ∨ e = e' ∧ m ≤ m' := by
  rw [Ordering.isLE_then_iff_or, Int.compare_eq_lt, Int.compare_eq_eq, Nat.isLE_compare]

theorem isGE_compare_iff {e e' : Int} {m m' : Nat} :
    ((compare e e').then (compare m m')).isGE = true ↔ e' < e ∨ e = e' ∧ m' ≤ m := by
  rw [← Ordering.isLE_swap, Ordering.swap_then, Ordering.isLE_then_iff_or, Ordering.swap_eq_lt,
    Ordering.swap_eq_eq, Ordering.isLE_swap, Int.compare_eq_gt, Int.compare_eq_eq,
    Nat.isGE_compare]

theorem le_iff (ha : a.isNaN = false) (hb : b.isNaN = false) : a.le b = true ↔ Precedes a b := by
  unfold UnpackedFloat.le Precedes
  -- for each two shapes of doubles, both sides compute to comparisons of numbers
  cases a with
  | notANumber => cases ha
  | zero s =>
    cases b with
    | notANumber => cases hb
    | zero s' => cases s <;> cases s' <;> decide
    | infinity s' => cases s <;> cases s' <;> decide
    | finite s' =>
      cases s' <;> dsimp only [UnpackedFloat.compare, range, exponent, mantissa] <;> simp
  | infinity s =>
    cases b with
    | notANumber => cases hb
    | zero s' => cases s <;> cases s' <;> decide
    | infinity s' => cases s <;> cases s' <;> decide
    | finite s' =>
      cases s <;> cases s' <;> dsimp only [UnpackedFloat.compare, range, exponent, mantissa] <;>
        simp
  | finite s m e h =>
    cases b with
    | notANumber => cases hb
    | zero s' =>
      cases s <;> dsimp only [UnpackedFloat.compare, range, exponent, mantissa] <;> simp
    | infinity s' =>
      cases s <;> cases s' <;> dsimp only [UnpackedFloat.compare, range, exponent, mantissa] <;>
        simp
    | finite s' m' e' h' =>
      cases s <;> cases s' <;> dsimp only [UnpackedFloat.compare, range, exponent, mantissa] <;>
        simp [isLE_compare_iff, isGE_compare_iff]

theorem precedes_total (a b : UnpackedFloat) : Precedes a b ∨ Precedes b a := by
  unfold Precedes
  omega

theorem precedes_trans (hab : Precedes a b) (hbc : Precedes b c) : Precedes a c := by
  unfold Precedes at *
  omega

theorem le_iff_precedes {x y : Float} (hx : x.isNaN = false) (hy : y.isNaN = false) :
    x ≤ y ↔ Precedes x.toModel.unpack y.toModel.unpack := by
  change x.le y = true ↔ _
  rw [Float.le, decide_eq_true_iff, ← le_iff hx hy]
  rfl

/-- Doubles other than the one that is no number can be compared. -/
theorem comparable_isNaN_false : Scalar.Comparable fun x : Float => x.isNaN = false where
  total hx hy := by
    rw [le_iff_precedes hx hy, le_iff_precedes hy hx]
    exact precedes_total _ _
  trans hx hy hz hxy hyz := by
    rw [le_iff_precedes hx hy] at hxy
    rw [le_iff_precedes hy hz] at hyz
    rw [le_iff_precedes hx hz]
    exact precedes_trans hxy hyz

end FuzzyRules.Double
