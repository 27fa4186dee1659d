/-!
# Hexadecimal digits

Code points are written in hexadecimal digits. A number that is no code point, or one half of a
pair of surrogates, names no character.
-/

namespace FuzzyRules.Text

def hexValue? (c : Char) : Option Nat :=
  if '0' ≤ c ∧ c ≤ '9' then some (c.toNat - '0'.toNat)
  else if 'a' ≤ c ∧ c ≤ 'f' then some (c.toNat - 'a'.toNat + 10)
  else if 'A' ≤ c ∧ c ≤ 'F' then some (c.toNat - 'A'.toNat + 10)
  else none

def charOfCode? (n : Nat) : Option Char := if n.isValidChar then some (Char.ofNat n) else none

/-- Lowercase digits without leading zeros. -/
def hexDigits (n : Nat) : List Char := Nat.toDigits 16 n

end FuzzyRules.Text
