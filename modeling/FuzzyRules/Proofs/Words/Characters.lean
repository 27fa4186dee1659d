import Mathlib.Data.List.Basic
import FuzzyRules.Token.Classes

/-!
# Kinds of characters

Every character is of one kind, and each class of the word grammar other than `any` and `empty` is
the characters of one kind. In particular no letter is a blank.
-/

namespace FuzzyRules

inductive CharKind where
  | blank
  | comma
  | letter
  | quote
  | backslash
  | hyphen
  | digit
  | dot
  | other
  deriving DecidableEq

namespace CharKind

def of (c : Char) : CharKind :=
  if Text.isBlank c then .blank
  else if Text.isLetter c then .letter
  else if c.isDigit then .digit
  else if c = ',' then .comma
  else if c = '"' then .quote
  else if c = '\\' then .backslash
  else if c = '-' then .hyphen
  else if c = '.' then .dot
  else .other

theorem isLetter_of_isBlank {c : Char} (h : Text.isBlank c = true) : Text.isLetter c = false := by
  have hall : (Text.blankRanges.all fun r =>
      (List.range' r.1 (r.2 + 1 - r.1)).all fun n => !Text.letterRanges.has n) = true := by
    decide +kernel
  obtain ⟨r, hr, hlow, hhigh⟩ := Text.CodePoints.exists_range_of_has h
  have hrange := List.all_eq_true.1 (List.all_eq_true.1 hall r hr) c.toNat
  rw [List.mem_range'_1] at hrange
  simpa [Text.isLetter] using hrange ⟨hlow, by omega⟩

theorem digit_cases {c : Char} (h : c.isDigit = true) :
    Text.isBlank c = false ∧ Text.isLetter c = false := by
  have hall : ((List.range' 48 10).all fun n =>
      !Text.blankRanges.has n && !Text.letterRanges.has n) = true := by decide +kernel
  have hc := List.all_eq_true.1 hall c.toNat
  rw [List.mem_range'_1] at hc
  have hbounds : 48 ≤ c.toNat ∧ c.toNat ≤ 57 := by
    simpa [Char.isDigit, UInt32.le_iff_toNat_le] using h
  simpa [Text.isBlank, Text.isLetter] using hc ⟨hbounds.1, by omega⟩

theorem of_comma : of ',' = .comma := by decide +kernel

theorem of_quote : of '"' = .quote := by decide +kernel

theorem of_backslash : of '\\' = .backslash := by decide +kernel

theorem of_hyphen : of '-' = .hyphen := by decide +kernel

theorem of_dot : of '.' = .dot := by decide +kernel

/-- What a character of the kind is known to be. -/
def IsOf : CharKind → Char → Prop
  | blank, c => Text.isBlank c = true
  | letter, c => Text.isLetter c = true
  | digit, c => c.isDigit = true
  | comma, c => c = ','
  | quote, c => c = '"'
  | backslash, c => c = '\\'
  | hyphen, c => c = '-'
  | dot, c => c = '.'
  | other, _ => True

theorem isOf_of (c : Char) : (of c).IsOf c := by
  unfold of
  split_ifs with hblank hletter hdigit hcomma hquote hbackslash hhyphen hdot
  exacts [hblank, hletter, hdigit, hcomma, hquote, hbackslash, hhyphen, hdot, trivial]

theorem isOf_of_eq {k : CharKind} {c : Char} (h : of c = k) : k.IsOf c := h ▸ isOf_of c

theorem of_eq_blank_iff {c : Char} : of c = .blank ↔ Text.isBlank c = true :=
  ⟨isOf_of_eq, fun h => if_pos h⟩

theorem of_eq_letter_iff {c : Char} : of c = .letter ↔ Text.isLetter c = true := by
  refine ⟨isOf_of_eq, fun h => ?_⟩
  have hblank : ¬ Text.isBlank c = true := fun hblank =>
    Bool.eq_false_iff.1 (isLetter_of_isBlank hblank) h
  rw [of, if_neg hblank, if_pos h]

theorem of_eq_digit_iff {c : Char} : of c = .digit ↔ c.isDigit = true := by
  refine ⟨isOf_of_eq, fun h => ?_⟩
  obtain ⟨hblank, hletter⟩ := digit_cases h
  rw [of, if_neg (Bool.eq_false_iff.1 hblank), if_neg (Bool.eq_false_iff.1 hletter), if_pos h]

/-- The character of a kind that has only one. -/
def sole : CharKind → Option Char
  | comma => some ','
  | quote => some '"'
  | backslash => some '\\'
  | hyphen => some '-'
  | dot => some '.'
  | _ => none

theorem of_eq_iff_of_sole {k : CharKind} {c d : Char} (h : k.sole = some d) :
    of c = k ↔ c = d := by
  constructor
  · intro hk
    have hc := isOf_of_eq hk
    cases k <;> cases h <;> exact hc
  · rintro rfl
    cases k <;> cases h
    exacts [of_comma, of_quote, of_backslash, of_hyphen, of_dot]

theorem of_eq_comma_iff {c : Char} : of c = .comma ↔ c = ',' := of_eq_iff_of_sole rfl

theorem of_eq_quote_iff {c : Char} : of c = .quote ↔ c = '"' := of_eq_iff_of_sole rfl

theorem of_eq_backslash_iff {c : Char} : of c = .backslash ↔ c = '\\' := of_eq_iff_of_sole rfl

theorem of_eq_hyphen_iff {c : Char} : of c = .hyphen ↔ c = '-' := of_eq_iff_of_sole rfl

theorem of_eq_dot_iff {c : Char} : of c = .dot ↔ c = '.' := of_eq_iff_of_sole rfl

end CharKind

/-- Whether a class admits the characters of a kind. -/
def CharClass.admitsKind : CharClass → CharKind → Bool
  | .digit, k => k == .digit
  | .letter, k => k == .letter
  | .quote, k => k == .quote
  | .backslash, k => k == .backslash
  | .hyphen, k => k == .hyphen
  | .dot, k => k == .dot
  | .blank, k => k == .blank
  | .comma, k => k == .comma
  | .any, _ => true
  | .empty, _ => false

theorem CharClass.admits_some (k : CharClass) (c : Char) :
    k.admits (some c) = k.admitsKind (.of c) := by
  rw [Bool.eq_iff_iff]
  cases k <;>
    simp [admits, admitsChar, admitsKind, CharKind.of_eq_blank_iff, CharKind.of_eq_letter_iff,
      CharKind.of_eq_digit_iff, CharKind.of_eq_comma_iff, CharKind.of_eq_quote_iff,
      CharKind.of_eq_backslash_iff, CharKind.of_eq_hyphen_iff, CharKind.of_eq_dot_iff]

end FuzzyRules
