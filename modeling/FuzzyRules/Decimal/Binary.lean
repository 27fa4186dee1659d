/-!
# Doubles as binary fractions

A finite double is a sign and a magnitude `significand * 2 ^ exponent` with a significand below `2
^ 53`. The reals that round to it reach half a unit up, and half a unit down unless the unit below
is half as large.
-/

namespace FuzzyRules.Decimal

inductive Binary where
  | nan
  | infinite (negative : Bool)
  | finite (negative : Bool) (significand : Nat) (exponent : Int)
  deriving DecidableEq, Repr

namespace Binary

/-- The leading bit of a significand, which is not stored. -/
def hiddenBit : Nat := Nat.pow 2 52

def signBit : Nat := Nat.pow 2 63

def ofBits (bits : Nat) : Binary :=
  let negative := decide (signBit ≤ bits)
  let fraction : Nat := bits % hiddenBit
  let biased : Nat := bits / hiddenBit % 2048
  if biased = 2047 then
    if fraction = 0 then .infinite negative else .nan
  else if biased = 0 then .finite negative fraction (-1074)
  else .finite negative (fraction + hiddenBit) ((biased : Int) - 1075)

def ofFloat (x : Float) : Binary := ofBits x.toBits.toNat

/-- The unit below a power of two is half the unit above it, except at the smallest exponent. -/
def narrowBelow (significand : Nat) (exponent : Int) : Bool :=
  decide (significand = hiddenBit ∧ -1074 < exponent)

end Binary

end FuzzyRules.Decimal
