import FuzzyRules.Decimal.Rounding
import FuzzyRules.Decimal.Shortest

/-!
# Number literals

A literal is an optional sign and either a word for a number that is not finite or digits with an
optional point and an optional exponent; there is at least one digit beside the point. Its value
is the double nearest to it.
-/

namespace FuzzyRules.Decimal

def digitValue (c : Char) : Nat := c.toNat - '0'.toNat

def digitsValue (digits : List Char) : Nat :=
  digits.foldl (fun n c => 10 * n + digitValue c) 0

/-- The number `significand * 10 ^ exponent`. -/
structure Numeral where
  significand : Nat
  exponent : Int
  deriving DecidableEq, Repr

namespace Numeral

/-- The leading powers of ten beyond which every decimal is infinite or zero as a double. -/
def leadingBound : Int := 400

/-- The place of the nearest double. -/
def place (n : Numeral) : Nat :=
  if n.significand = 0 then 0
  else
    let leading := n.exponent + (digitCount n.significand : Int) - 1
    if leadingBound < leading then Binary.infinityPlace
    else if leading < -leadingBound then 0
    else
      Binary.nearestPlace (n.significand * Nat.pow 10 n.exponent.toNat)
        (Nat.pow 10 (-n.exponent).toNat)

end Numeral

/-- Splits off an optional sign; true for a minus sign. -/
def splitSign : List Char → Bool × List Char
  | '-' :: rest => (true, rest)
  | '+' :: rest => (false, rest)
  | rest => (false, rest)

/-- The exponent at the end of a literal: nothing, or the mark, an optional sign and digits. -/
def exponent? : List Char → Option Int
  | [] => some 0
  | mark :: rest =>
    if mark = 'e' ∨ mark = 'E' then
      let (negative, digits) := splitSign rest
      if digits ≠ [] ∧ digits.all Char.isDigit then
        some (if negative then -(digitsValue digits : Int) else digitsValue digits)
      else none
    else none

def splitFraction : List Char → List Char × List Char
  | '.' :: rest => (rest.takeWhile Char.isDigit, rest.dropWhile Char.isDigit)
  | rest => ([], rest)

def numeral? (cs : List Char) : Option Numeral :=
  let whole := cs.takeWhile Char.isDigit
  let (fraction, rest) := splitFraction (cs.dropWhile Char.isDigit)
  if whole = [] ∧ fraction = [] then none
  else (exponent? rest).map fun e =>
    ⟨digitsValue (whole ++ fraction), e - (fraction.length : Int)⟩

/-- The place that a word stands for. -/
def special? (cs : List Char) : Option Nat :=
  let word := String.ofList (cs.map Char.toLower)
  if word = "inf" ∨ word = "infinity" then some Binary.infinityPlace
  else if word = "nan" then some Binary.nanPlace
  else none

def magnitude? (cs : List Char) : Option Nat :=
  match special? cs with
  | some place => some place
  | none => (numeral? cs).map Numeral.place

def literal? (s : String) : Option Float :=
  let (negative, cs) := splitSign s.toList
  (magnitude? cs).map (Binary.floatAt negative)

end FuzzyRules.Decimal
