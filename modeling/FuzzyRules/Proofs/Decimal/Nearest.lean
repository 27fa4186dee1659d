import Mathlib.Data.Int.Log
import Mathlib.Data.Rat.Floor
import Mathlib.Tactic.GCongr
import Mathlib.Tactic.Positivity
import Mathlib.Tactic.Ring
import FuzzyRules.Decimal.Rounding

/-!
# The double nearest to a double

A ratio that is a double already is rounded to itself. Its leading bit is found with the binary
logarithm, which fixes the exponent, and at that exponent nothing is left to round.
-/

namespace FuzzyRules.Decimal

theorem roundRatio_mul (n : Nat) {den : Nat} (h : 0 < den) : roundRatio (n * den) den = n := by
  simp only [roundRatio, Nat.mul_mod_left, Nat.mul_div_cancel n h, Nat.mul_zero, h, if_true]

namespace Binary

variable {num den s j k : Nat}

/-- Every place is that of a significand, which has its leading bit unless the place is one of the
first. -/
theorem exists_place (p : Nat) :
    ∃ s j, p = s + j * hiddenBit ∧ s < 2 * hiddenBit ∧ (j = 0 ∨ hiddenBit ≤ s) := by
  have hpos : 0 < hiddenBit := Nat.pow_pos (by decide)
  have hmod := Nat.mod_lt p hpos
  cases hdiv : p / hiddenBit with
  | zero =>
    have hlt := (Nat.div_eq_zero_iff_lt hpos).1 hdiv
    exact ⟨p, 0, by omega, by omega, .inl rfl⟩
  | succ j =>
    have hp := Nat.div_add_mod p hiddenBit
    rw [hdiv, Nat.mul_add_one] at hp
    refine ⟨p % hiddenBit + hiddenBit, j, ?_, by omega, .inr (by omega)⟩
    rw [Nat.mul_comm j]
    omega

theorem mul_pow_le_iff (a b : Nat) (power : Int) :
    a * Nat.pow 2 power.toNat ≤ b * Nat.pow 2 (-power).toNat ↔ (a : ℚ) * 2 ^ power ≤ b := by
  rcases Int.eq_nat_or_neg power with ⟨n, rfl | rfl⟩
  · have hneg : (-(n : Int)).toNat = 0 := by omega
    simp only [Int.toNat_natCast, hneg, zpow_natCast, Nat.pow_eq, pow_zero, mul_one]
    exact_mod_cast Iff.rfl
  · have hneg : (-(n : Int)).toNat = 0 := by omega
    have hpos : (0 : ℚ) < 2 ^ n := by positivity
    simp only [neg_neg, Int.toNat_natCast, hneg, zpow_neg, zpow_natCast, Nat.pow_eq, pow_zero,
      mul_one]
    rw [← div_eq_mul_inv, div_le_iff₀ hpos]
    exact_mod_cast Iff.rfl

theorem log_eq_of_bounds {r : ℚ} (hr : 0 < r) {power : Int} (hlow : (2 : ℚ) ^ power ≤ r)
    (hhigh : r < 2 ^ (power + 1)) : Int.log 2 r = power := by
  have hle := (Int.zpow_le_iff_le_log (b := 2) (by decide) hr).1 (by exact_mod_cast hlow)
  have hlt := (Int.lt_zpow_iff_log_lt (b := 2) (by decide) hr).1 (by exact_mod_cast hhigh)
  omega

theorem ratio_bounds (hnum : 0 < num) (hden : 0 < den) :
    (2 : ℚ) ^ ((Nat.log2 num : Int) - Nat.log2 den - 1) ≤ num / den ∧
      (num / den : ℚ) < 2 ^ ((Nat.log2 num : Int) - Nat.log2 den + 1) := by
  have hden' : (0 : ℚ) < den := by exact_mod_cast hden
  have hnum_low : (2 : ℚ) ^ Nat.log2 num ≤ num := by
    exact_mod_cast Nat.log2_self_le hnum.ne'
  have hnum_high : (num : ℚ) < 2 ^ (Nat.log2 num + 1) := by
    exact_mod_cast Nat.lt_log2_self
  have hden_low : (2 : ℚ) ^ Nat.log2 den ≤ den := by
    exact_mod_cast Nat.log2_self_le hden.ne'
  have hden_high : (den : ℚ) < 2 ^ (Nat.log2 den + 1) := by
    exact_mod_cast Nat.lt_log2_self
  constructor
  · calc (2 : ℚ) ^ ((Nat.log2 num : Int) - Nat.log2 den - 1)
        = 2 ^ Nat.log2 num / 2 ^ (Nat.log2 den + 1) := by
          rw [sub_sub, zpow_sub₀ two_ne_zero]
          norm_cast
      _ ≤ num / den := by gcongr
  · calc (num / den : ℚ) < 2 ^ (Nat.log2 num + 1) / 2 ^ Nat.log2 den := by
          gcongr
      _ = 2 ^ ((Nat.log2 num : Int) - Nat.log2 den + 1) := by
          rw [sub_add_eq_add_sub, zpow_sub₀ two_ne_zero]
          norm_cast

theorem leadingPower_eq_log (hnum : 0 < num) (hden : 0 < den) :
    leadingPower num den = Int.log 2 (num / den : ℚ) := by
  have hden' : (0 : ℚ) < den := by exact_mod_cast hden
  have hratio : (0 : ℚ) < num / den := by positivity
  obtain ⟨hlow, hhigh⟩ := ratio_bounds hnum hden
  rw [leadingPower]
  simp only [mul_pow_le_iff, ← le_div_iff₀' hden']
  split_ifs with h
  · exact (log_eq_of_bounds hratio h hhigh).symm
  · rw [not_le] at h
    refine (log_eq_of_bounds hratio hlow ?_).symm
    rwa [sub_add_cancel]

/-- A ratio that is a significand times a power of two has its leading bit where the significand
has its own. -/
theorem leadingPower_of_eq (hs : 0 < s) (hden : 0 < den) (h : num * 2 ^ k = s * 2 ^ j * den) :
    leadingPower num den = (Nat.log 2 s : Int) + j - k := by
  have hden' : (0 : ℚ) < den := by exact_mod_cast hden
  have hnum : 0 < num := by
    have hpos : 0 < num * 2 ^ k := by
      rw [h]
      positivity
    exact Nat.pos_of_mul_pos_right hpos
  have hratio : (num / den : ℚ) = s * 2 ^ ((j : Int) - k) := by
    have h' : (num : ℚ) * 2 ^ k = s * 2 ^ j * den := by exact_mod_cast h
    rw [zpow_sub₀ two_ne_zero, zpow_natCast, zpow_natCast, ← mul_div_assoc,
      div_eq_div_iff hden'.ne' (by positivity), h']
  have hscale : (0 : ℚ) < 2 ^ ((j : Int) - k) := zpow_pos two_pos _
  have hpower (n : Nat) : (2 : ℚ) ^ ((n : Int) + j - k) = 2 ^ n * 2 ^ ((j : Int) - k) := by
    rw [add_sub_assoc, zpow_add₀ two_ne_zero, zpow_natCast]
  have hlow : (2 : ℚ) ^ Nat.log 2 s ≤ s := by exact_mod_cast Nat.pow_log_le_self 2 hs.ne'
  have hhigh : (s : ℚ) < 2 ^ (Nat.log 2 s + 1) := by
    exact_mod_cast Nat.lt_pow_succ_log_self (by decide) s
  have hs' : (0 : ℚ) < s := by exact_mod_cast hs
  rw [leadingPower_eq_log hnum hden, hratio]
  refine log_eq_of_bounds (mul_pos hs' hscale) ?_ ?_
  · rw [hpower]
    exact mul_le_mul_of_nonneg_right hlow hscale.le
  · have hnext : (Nat.log 2 s : Int) + j - k + 1 = ((Nat.log 2 s + 1 : Nat) : Int) + j - k := by
      omega
    rw [hnext, hpower]
    exact mul_lt_mul_of_pos_right hhigh hscale

theorem roundRatio_of_eq (hden : 0 < den) (h : num * 2 ^ k = s * 2 ^ j * den) :
    roundRatio (num * Nat.pow 2 (-((j : Int) - k)).toNat) (den * Nat.pow 2 ((j : Int) - k).toNat) =
      s := by
  have hpos : 0 < den * Nat.pow 2 ((j : Int) - k).toNat :=
    Nat.mul_pos hden (Nat.pow_pos (by decide))
  have hwhole : num * Nat.pow 2 (-((j : Int) - k)).toNat =
      s * (den * Nat.pow 2 ((j : Int) - k).toNat) := by
    rcases Nat.le_total j k with hle | hle
    · obtain ⟨n, rfl⟩ := Nat.exists_eq_add_of_le hle
      have hdown : (-((j : Int) - (j + n : Nat))).toNat = n := by omega
      have hup : ((j : Int) - (j + n : Nat)).toNat = 0 := by omega
      have hcancel : 2 ^ j * (num * 2 ^ n) = 2 ^ j * (s * den) := by
        calc 2 ^ j * (num * 2 ^ n) = num * 2 ^ (j + n) := by rw [pow_add]; ring
          _ = 2 ^ j * (s * den) := by rw [h]; ring
      rw [hdown, hup]
      simpa using Nat.eq_of_mul_eq_mul_left (Nat.pow_pos (by decide)) hcancel
    · obtain ⟨n, rfl⟩ := Nat.exists_eq_add_of_le hle
      have hdown : (-((k + n : Nat) - (k : Int))).toNat = 0 := by omega
      have hup : (((k + n : Nat) : Int) - k).toNat = n := by omega
      have hcancel : 2 ^ k * num = 2 ^ k * (s * (den * 2 ^ n)) := by
        calc 2 ^ k * num = num * 2 ^ k := Nat.mul_comm ..
          _ = 2 ^ k * (s * (den * 2 ^ n)) := by rw [h, pow_add]; ring
      rw [hdown, hup]
      simpa using Nat.eq_of_mul_eq_mul_left (Nat.pow_pos (by decide)) hcancel
  rw [hwhole, roundRatio_mul s hpos]

/-- The ratio of a double is rounded to the double. -/
theorem nearestPlace_of_eq (hs : 0 < s) (hbits : s < 2 * hiddenBit)
    (hnormal : j = 0 ∨ hiddenBit ≤ s) (hfinite : s + j * hiddenBit < infinityPlace)
    (hden : 0 < den) (hk : k = 1074) (h : num * 2 ^ k = s * 2 ^ j * den) :
    nearestPlace num den = s + j * hiddenBit := by
  have hlog_le : Nat.log 2 s < 53 := Nat.log_lt_of_lt_pow hs.ne' hbits
  have hlog_ge : hiddenBit ≤ s → 52 ≤ Nat.log 2 s := fun hge =>
    Nat.le_log_of_pow_le (by decide) hge
  have hexponent : max (-1074) (leadingPower num den - 52) = (j : Int) - k := by
    rw [leadingPower_of_eq hs hden h]
    omega
  have hplace : place s ((j : Int) - k) = s + j * hiddenBit := by
    have hj : ((j : Int) - k + 1074).toNat = j := by omega
    rw [place, hj]
  simp only [nearestPlace, hexponent, roundRatio_of_eq hden h, hplace]
  exact min_eq_right hfinite.le

end Binary

end FuzzyRules.Decimal
