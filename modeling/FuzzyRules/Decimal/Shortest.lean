import FuzzyRules.Decimal.Binary

/-!
# Shortest decimals

The shortest decimal of a double has the fewest digits among the decimals that round to it, and of
those it is the nearest one. For one digit, two digits and so on the two neighbours of the double
on the decimal grid are compared with the interval of reals that round to it; the first grid with
a hit is the answer.
-/

namespace FuzzyRules.Decimal

/-- Which of two decimals that are equally near is taken. -/
inductive Tie where
  | up
  | even
  deriving DecidableEq, Repr

/-- The number `digits * 10 ^ exponent`. -/
structure Digits where
  digits : Nat
  exponent : Int
  deriving DecidableEq, Repr

def digitCount (n : Nat) : Nat := (Nat.toDigits 10 n).length

namespace Digits

def trimZeros (digits : Nat) (exponent : Int) : Digits :=
  if h : digits ≠ 0 ∧ digits % 10 = 0 then trimZeros (digits / 10) (exponent + 1)
  else ⟨digits, exponent⟩
termination_by digits
decreasing_by exact Nat.div_lt_self (Nat.pos_of_ne_zero h.1) (by decide)

def text (d : Digits) : List Char := Nat.toDigits 10 d.digits

/-- The power of ten of the first digit. -/
def leading (d : Digits) : Int := d.exponent + (digitCount d.digits : Int) - 1

end Digits

/-- The reals from `low / unit` to `high / unit` around `value / unit`. -/
structure Interval where
  low : Nat
  value : Nat
  high : Nat
  unit : Nat
  closed : Bool
  deriving DecidableEq, Repr

namespace Interval

/-- The reals that round to `significand * 2 ^ exponent`. A tie goes to the even significand. -/
def around (significand : Nat) (exponent : Int) : Interval :=
  let below := if Binary.narrowBelow significand exponent then 1 else 2
  let scale := Nat.pow 2 exponent.toNat
  { low := (4 * significand - below) * scale
    value := 4 * significand * scale
    high := (4 * significand + 2) * scale
    unit := 4 * Nat.pow 2 (-exponent).toNat
    closed := significand % 2 == 0 }

/-- The interval with every number divided by `10 ^ e`. -/
def scaled (i : Interval) (e : Int) : Interval :=
  let up := Nat.pow 10 (-e).toNat
  { low := i.low * up
    value := i.value * up
    high := i.high * up
    unit := i.unit * Nat.pow 10 e.toNat
    closed := i.closed }

def holds (i : Interval) (n : Nat) : Bool :=
  if i.closed then decide (i.low ≤ n * i.unit ∧ n * i.unit ≤ i.high)
  else decide (i.low < n * i.unit ∧ n * i.unit < i.high)

/-- The power of ten of the first digit of the value. -/
def leading (i : Interval) : Int :=
  if i.unit ≤ i.value then (digitCount (i.value / i.unit) : Int) - 1
  else
    let inverse := (i.unit + i.value - 1) / i.value
    if inverse ≤ 1 then 0 else -(digitCount (inverse - 1) : Int)

/-- The whole number of the interval that is nearest to its value, if one of the two neighbours of
the value lies in it. -/
def nearest (tie : Tie) (i : Interval) : Option Nat :=
  let k := i.value / i.unit
  match i.holds k, i.holds (k + 1) with
  | false, false => none
  | true, false => some k
  | false, true => some (k + 1)
  | true, true =>
    let down := i.value - k * i.unit
    let up := (k + 1) * i.unit - i.value
    if down < up then some k
    else if up < down then some (k + 1)
    else match tie with
      | .up => some (k + 1)
      | .even => if k % 2 = 0 then some k else some (k + 1)

end Interval

def shortestWithin (tie : Tie) (i : Interval) (leading : Int) : Nat → Nat → Digits
  | 0, count => ⟨i.value / i.unit, leading - count + 1⟩
  | fuel + 1, count =>
    let e := leading - count + 1
    match (i.scaled e).nearest tie with
    | some n => Digits.trimZeros n e
    | none => shortestWithin tie i leading fuel (count + 1)

/-- Seventeen digits always tell a double from its neighbours. -/
def shortest (tie : Tie) (significand : Nat) (exponent : Int) : Digits :=
  if significand = 0 then ⟨0, 0⟩
  else
    let i := Interval.around significand exponent
    shortestWithin tie i i.leading 17 1

end FuzzyRules.Decimal
