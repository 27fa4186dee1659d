import FuzzyRules.Decimal.Binary

/-!
# Rounding to doubles

The doubles from zero upwards are numbered by their bits, with the infinity behind the largest
finite one. A ratio goes to the nearest of them, a tie to the one with the even significand.
-/

namespace FuzzyRules.Decimal

/-- The whole number nearest to a ratio. A tie goes to the even one. -/
def roundRatio (num den : Nat) : Nat :=
  let down := num / den
  let twice := 2 * (num % den)
  if twice < den then down
  else if den < twice then down + 1
  else if down % 2 = 0 then down
  else down + 1

namespace Binary

/-- The power of two of the leading bit of a ratio. -/
def leadingPower (num den : Nat) : Int :=
  let power : Int := (Nat.log2 num : Int) - (Nat.log2 den : Int)
  if den * Nat.pow 2 power.toNat ≤ num * Nat.pow 2 (-power).toNat then power else power - 1

/-- The place of `significand * 2 ^ exponent` among the doubles, where a significand of `2 ^ 53`
stands for the next power of two. -/
def place (significand : Nat) (exponent : Int) : Nat :=
  significand + (exponent + 1074).toNat * hiddenBit

def infinityPlace : Nat := 2047 * hiddenBit

def nanPlace : Nat := infinityPlace + hiddenBit / 2

/-- The place of the double nearest to a ratio. -/
def nearestPlace (num den : Nat) : Nat :=
  let exponent := max (-1074) (leadingPower num den - 52)
  let significand :=
    roundRatio (num * Nat.pow 2 (-exponent).toNat) (den * Nat.pow 2 exponent.toNat)
  min infinityPlace (place significand exponent)

def floatAt (negative : Bool) (place : Nat) : Float :=
  Float.ofBits (UInt64.ofNat (if negative then signBit + place else place))

end Binary

end FuzzyRules.Decimal
