import Mathlib.Data.List.TakeWhile
import FuzzyRules.Proofs.Words.Pieces

/-!
# Numbers of the word grammar as literals

A number of the word grammar is a literal exactly if it has a digit. Its value is the double nearest
to its digits, scaled by a power of ten for every digit behind the dot.
-/

namespace FuzzyRules

namespace NumberText

open Decimal

/-- The number without its sign. -/
def unsigned (n : NumberText) : List Char := n.whole ++ dotted n.fraction

/-- The digits as an integer, and the power of ten that puts the dot in its place. -/
def numeral (n : NumberText) : Numeral :=
  ⟨digitsValue n.digits, -((n.fraction.getD []).length : Int)⟩

theorem digit_or_dot {n : NumberText} (h : n.Plain) :
    ∀ c ∈ n.unsigned, c.isDigit = true ∨ c = '.' := by
  obtain ⟨negative, whole, fraction⟩ := n
  intro c hc
  cases fraction with
  | none => exact .inl (h c (by simpa [unsigned, digits, dotted] using hc))
  | some tail =>
    have hc : c ∈ whole ∨ c = '.' ∨ c ∈ tail := by simpa [unsigned, dotted] using hc
    rcases hc with hc | hc | hc
    · exact .inl (h c (by simp [digits, hc]))
    · exact .inr hc
    · exact .inl (h c (by simp [digits, hc]))

theorem splitSign_chars {n : NumberText} (h : n.Plain) :
    splitSign n.chars = (n.negative, n.unsigned) := by
  have hunsigned := digit_or_dot h
  have hchars : n.chars = (if n.negative then ['-'] else []) ++ n.unsigned := by
    simp [chars, unsigned]
  rw [hchars]
  cases hn : n.negative with
  | true => rfl
  | false =>
    change splitSign n.unsigned = _
    generalize n.unsigned = cs at hunsigned
    unfold splitSign
    split
    · simp at hunsigned
    · simp at hunsigned
    · rfl

theorem toLower_eq_self {c : Char} (h : c.isDigit = true ∨ c = '.') : c.toLower = c := by
  rcases h with h | rfl
  · have hupper : ¬ (c.val ≥ 'A'.val ∧ c.val ≤ 'Z'.val) := by
      simp only [Char.isDigit, Bool.and_eq_true, decide_eq_true_eq, ge_iff_le,
        UInt32.le_iff_toNat_le] at h ⊢
      change 48 ≤ c.val.toNat ∧ c.val.toNat ≤ 57 at h
      change ¬ (65 ≤ c.val.toNat ∧ c.val.toNat ≤ 90)
      omega
    exact dif_neg hupper
  · rfl

theorem special?_eq_none {cs : List Char} (h : ∀ c ∈ cs, c.isDigit = true ∨ c = '.') :
    special? cs = none := by
  have hlower : cs.map Char.toLower = cs :=
    (List.map_congr_left fun c hc => toLower_eq_self (h c hc)).trans (List.map_id cs)
  have hword (first : Char) (tail : List Char) (hfirst : ¬ (first.isDigit = true ∨ first = '.')) :
      String.ofList cs ≠ String.ofList (first :: tail) := by
    intro heq
    rw [String.ofList_inj] at heq
    exact hfirst (h first (heq ▸ List.mem_cons_self))
  have hinf : String.ofList cs ≠ "inf" := hword 'i' ['n', 'f'] (by decide)
  have hinfinity : String.ofList cs ≠ "infinity" :=
    hword 'i' ['n', 'f', 'i', 'n', 'i', 't', 'y'] (by decide)
  have hnan : String.ofList cs ≠ "nan" := hword 'n' ['a', 'n'] (by decide)
  simp [special?, hlower, hinf, hinfinity, hnan]

theorem whole_isDigit {n : NumberText} (h : n.Plain) : ∀ c ∈ n.whole, c.isDigit = true :=
  fun c hc => h c (List.mem_append_left _ hc)

theorem takeWhile_unsigned {n : NumberText} (h : n.Plain) :
    n.unsigned.takeWhile Char.isDigit = n.whole := by
  rw [unsigned, List.takeWhile_append_of_pos (whole_isDigit h)]
  cases n.fraction <;> simp [dotted]

theorem dropWhile_unsigned {n : NumberText} (h : n.Plain) :
    n.unsigned.dropWhile Char.isDigit = dotted n.fraction := by
  rw [unsigned, List.dropWhile_append_of_pos (whole_isDigit h)]
  cases n.fraction <;> simp [dotted]

theorem splitFraction_dotted {n : NumberText} (h : n.Plain) :
    splitFraction (dotted n.fraction) = (n.fraction.getD [], []) := by
  obtain ⟨negative, whole, fraction⟩ := n
  cases fraction with
  | none => rfl
  | some tail =>
    have htail : ∀ c ∈ tail, c.isDigit = true := fun c hc => h c (by simp [digits, hc])
    have htake : tail.takeWhile Char.isDigit = tail := List.takeWhile_eq_self_iff.2 htail
    have hdrop : tail.dropWhile Char.isDigit = [] := List.dropWhile_eq_nil_iff.2 htail
    simp [splitFraction, dotted, htake, hdrop]

theorem numeral?_unsigned {n : NumberText} (h : n.Plain) :
    numeral? n.unsigned = if n.digits = [] then none else some n.numeral := by
  simp only [numeral?, takeWhile_unsigned h, dropWhile_unsigned h, splitFraction_dotted h]
  have hiff : n.whole = [] ∧ n.fraction.getD [] = [] ↔ n.digits = [] :=
    List.append_eq_nil_iff.symm
  rw [if_congr hiff rfl rfl]
  simp [exponent?, numeral, digits]

/-- The value of a number of the word grammar, which has one if there is a digit. -/
theorem literal?_chars {n : NumberText} (h : n.Plain) :
    literal? (String.ofList n.chars) =
      if n.digits = [] then none else some (Binary.floatAt n.negative n.numeral.place) := by
  have hmagnitude : magnitude? n.unsigned =
      if n.digits = [] then none else some n.numeral.place := by
    rw [magnitude?, special?_eq_none (digit_or_dot h), numeral?_unsigned h]
    split_ifs <;> rfl
  rw [literal?, String.toList_ofList, splitSign_chars h]
  change (magnitude? n.unsigned).map _ = _
  rw [hmagnitude]
  split_ifs <;> rfl

end NumberText

end FuzzyRules
