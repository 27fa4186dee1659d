import Mathlib
import FuzzyRules.Proofs.Decimal.Nearest
import FuzzyRules.Proofs.Words.Numerals

/-!
# Literals for doubles

Every finite double is a whole number of halves that have been halved up to 1074 times. So it has a
decimal with 1074 digits behind the dot, and with four hundred in front of it. As a literal this
decimal stands for the double.

Mathlib is imported as a whole for `Float.ofBits_toBits`, which no module of it brings in by itself.
-/

namespace FuzzyRules

namespace Decimal

variable {k m n s j : Nat}

theorem digitsValue_concat (ds : List Char) (c : Char) :
    digitsValue (ds ++ [c]) = 10 * digitsValue ds + digitValue c := by
  simp [digitsValue, List.foldl_append]

/-- Any number has a decimal of a given length that is long enough. -/
theorem exists_digits (h : n < 10 ^ k) : ∃ ds : List Char, ds.length = k ∧
    (∀ c ∈ ds, c.isDigit = true) ∧ digitsValue ds = n := by
  have hdigit : ∀ d < 10, (Nat.digitChar d).isDigit = true ∧ digitValue (Nat.digitChar d) = d := by
    decide
  induction k generalizing n with
  | zero =>
    rw [pow_zero, Nat.lt_one_iff] at h
    exact ⟨[], rfl, by simp, h.symm⟩
  | succ k ih =>
    obtain ⟨ds, hlength, hds, hvalue⟩ := ih (n := n / 10) (by omega)
    obtain ⟨hc, hcvalue⟩ := hdigit (n % 10) (Nat.mod_lt n (by decide))
    refine ⟨ds ++ [Nat.digitChar (n % 10)], by simp [hlength], ?_, ?_⟩
    · intro c hmem
      rcases List.mem_append.1 hmem with hmem | hmem
      · exact hds c hmem
      · rwa [List.mem_singleton.1 hmem]
    · rw [digitsValue_concat, hvalue, hcvalue, Nat.div_add_mod]

theorem lt_digitCount (hs : 0 < s) (hpos : 0 < m) (hm : 3 * m ≤ k) :
    2 * m < digitCount (s * 2 ^ j * 5 ^ k) := by
  have hle : 10 ^ (2 * m) ≤ s * 2 ^ j * 5 ^ k := by
    calc 10 ^ (2 * m) = (10 ^ 2) ^ m := pow_mul ..
      _ ≤ (5 ^ 3) ^ m := Nat.pow_le_pow_left (by decide) m
      _ = 5 ^ (3 * m) := (pow_mul ..).symm
      _ ≤ 5 ^ k := Nat.pow_le_pow_right (by decide) hm
      _ ≤ s * 2 ^ j * 5 ^ k := Nat.le_mul_of_pos_left _ (by positivity)
  rw [digitCount, ← not_le, Nat.length_toDigits_le_iff (by decide) (by omega), not_lt]
  exact hle

theorem lt_ten_pow (hbits : s < 2 ^ 53) (hm : 53 + j ≤ k + 3 * m) :
    s * 2 ^ j * 5 ^ k < 10 ^ (m + k) := by
  calc s * 2 ^ j * 5 ^ k < 2 ^ 53 * 2 ^ j * 5 ^ k := by gcongr
    _ = 2 ^ (53 + j) * 5 ^ k := by rw [pow_add]
    _ ≤ 2 ^ (k + 3 * m) * 5 ^ k := by gcongr; decide
    _ = (2 ^ 3) ^ m * (2 * 5) ^ k := by rw [pow_add, pow_mul, mul_pow]; ring
    _ ≤ 10 ^ m * 10 ^ k := Nat.mul_le_mul_right _ (Nat.pow_le_pow_left (by decide) m)
    _ = 10 ^ (m + k) := (pow_add ..).symm

/-- A double as a decimal with all the digits behind the dot that a double can need. -/
theorem place_of_decimal (hs : 0 < s) (hbits : s < 2 * Binary.hiddenBit)
    (hnormal : j = 0 ∨ Binary.hiddenBit ≤ s)
    (hfinite : s + j * Binary.hiddenBit < Binary.infinityPlace) (hj : j < 2047) (hk : k = 1074) :
    Numeral.place ⟨s * 2 ^ j * 5 ^ k, -(k : Int)⟩ = s + j * Binary.hiddenBit := by
  have hne : s * 2 ^ j * 5 ^ k ≠ 0 := by positivity
  have hmany := lt_digitCount (j := j) hs (show 0 < 337 by decide) (show 3 * 337 ≤ k by omega)
  have hfew : digitCount (s * 2 ^ j * 5 ^ k) ≤ 400 + k := by
    rw [digitCount, Nat.length_toDigits_le_iff (by decide) (by omega)]
    exact lt_ten_pow hbits (by omega)
  have hratio : s * 2 ^ j * 5 ^ k * 2 ^ k = s * 2 ^ j * 10 ^ k := by
    rw [show (10 : Nat) = 5 * 2 from rfl, mul_pow, ← mul_assoc]
  have hup : (-(k : Int)).toNat = 0 := by omega
  have hdown : (- -(k : Int)).toNat = k := by omega
  have hnearest := Binary.nearestPlace_of_eq hs hbits hnormal hfinite
    (Nat.pow_pos (by decide)) hk hratio
  simp only [Numeral.place, hne, if_false, Numeral.leadingBound, hup, hdown]
  rw [if_neg (by omega), if_neg (by omega)]
  simpa using hnearest

/-- Every place in front of the infinity is that of a decimal. -/
theorem exists_decimal {p : Nat} (hp : p < Binary.infinityPlace) (hk : k = 1074) :
    ∃ n < 10 ^ (400 + k), Numeral.place ⟨n, -(k : Int)⟩ = p := by
  have hhidden : 0 < Binary.hiddenBit := Nat.pow_pos (by decide)
  obtain ⟨s, j, rfl, hbits, hnormal⟩ := Binary.exists_place p
  have hj : j < 2047 :=
    Nat.lt_of_mul_lt_mul_right (Nat.lt_of_le_of_lt (Nat.le_add_left _ _) hp)
  refine ⟨s * 2 ^ j * 5 ^ k, lt_ten_pow hbits (by omega), ?_⟩
  rcases Nat.eq_zero_or_pos s with rfl | hs
  · rcases hnormal with rfl | hle
    · simp [Numeral.place]
    · omega
  · exact place_of_decimal hs hbits hnormal hp hj hk

end Decimal

open Decimal

section Bits

open Float.Model

theorem unpackExponent_ne_of_isFinite {b : BitVec 64}
    (h : (UnpackedFloat.unpack Format.binary64 b).isFinite = true) :
    @UnpackedFloat.unpackExponent Format.binary64 b ≠ -1#11 := by
  intro hexponent
  simp only [UnpackedFloat.unpack, hexponent] at h
  split_ifs at h <;> simp_all [UnpackedFloat.isFinite]

theorem toNat_unpackExponent (b : BitVec 64) :
    (@UnpackedFloat.unpackExponent Format.binary64 b).toNat =
      b.toNat / 2 ^ 52 % 2 ^ 11 := by
  simp only [UnpackedFloat.unpackExponent, BitVec.toNat_cast, BitVec.extractLsb_toNat,
    Nat.shiftRight_eq_div_pow]

end Bits

theorem place_lt_of_isFinite {x : Float} (hx : x.isFinite = true) :
    x.toBits.toNat % Binary.signBit < Binary.infinityPlace := by
  have hexponent : x.toBits.toNat / 2 ^ 52 % 2 ^ 11 ≠ 2047 := by
    intro h
    refine unpackExponent_ne_of_isFinite (b := x.toBits.toBitVec) hx (BitVec.eq_of_toNat_eq ?_)
    rw [toNat_unpackExponent]
    exact h
  simp only [Binary.signBit, Binary.infinityPlace, Binary.hiddenBit, Nat.pow_eq]
  omega

theorem exists_floatAt {x : Float} (hx : x.isFinite = true) :
    ∃ negative, ∃ p < Binary.infinityPlace, Binary.floatAt negative p = x := by
  have hp := place_lt_of_isFinite hx
  have hlt := x.toBits.toNat_lt
  have hdiv := Nat.div_add_mod x.toBits.toNat Binary.signBit
  by_cases hsign : Binary.signBit ≤ x.toBits.toNat
  · have hbits : Binary.signBit + x.toBits.toNat % Binary.signBit = x.toBits.toNat := by
      simp only [Binary.signBit, Nat.pow_eq] at hsign ⊢
      omega
    refine ⟨true, _, hp, ?_⟩
    simp only [Binary.floatAt, if_true, hbits, UInt64.ofNat_toNat, Float.ofBits_toBits]
  · have hbits : x.toBits.toNat % Binary.signBit = x.toBits.toNat :=
      Nat.mod_eq_of_lt (not_le.1 hsign)
    refine ⟨false, _, hp, ?_⟩
    simp only [Binary.floatAt, Bool.false_eq_true, if_false, hbits, UInt64.ofNat_toNat,
      Float.ofBits_toBits]

/-- Every finite double has a literal without an exponent. -/
theorem exists_literal {x : Float} (hx : x.isFinite = true) :
    ∃ n : NumberText, n.Valid ∧ literal? (String.ofList n.chars) = some x := by
  obtain ⟨negative, p, hp, rfl⟩ := exists_floatAt hx
  -- the number of digits stays a variable, so that no power is computed
  obtain ⟨k, hk⟩ : ∃ k, k = 1074 := ⟨_, rfl⟩
  obtain ⟨n, hn, rfl⟩ := exists_decimal hp hk
  obtain ⟨ds, hlength, hds, rfl⟩ := exists_digits hn
  have hdigits : (⟨negative, ds.take 400, some (ds.drop 400)⟩ : NumberText).digits = ds :=
    List.take_append_drop 400 ds
  have hne : ds ≠ [] := by
    rintro rfl
    simp at hlength
    omega
  have hplain : (⟨negative, ds.take 400, some (ds.drop 400)⟩ : NumberText).Plain := by
    rwa [NumberText.Plain, hdigits]
  have hnumeral : (⟨negative, ds.take 400, some (ds.drop 400)⟩ : NumberText).numeral =
      ⟨digitsValue ds, -(k : Int)⟩ := by
    rw [NumberText.numeral, hdigits]
    simp [hlength]
  refine ⟨_, ⟨hplain, by rwa [hdigits]⟩, ?_⟩
  rw [NumberText.literal?_chars hplain, if_neg (by rwa [hdigits]), hnumeral]

end FuzzyRules
