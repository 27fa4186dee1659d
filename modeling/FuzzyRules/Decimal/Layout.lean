import FuzzyRules.Decimal.Shortest

/-!
# Written numbers

A layout fixes everything about a written double but its digits: where the exponent form begins,
whether a whole number shows a fraction, and what stands for the numbers that are not finite.
-/

namespace FuzzyRules.Decimal

structure Layout where
  tie : Tie
  /-- Powers of ten of the first digit that are written without an exponent; `none` for all. -/
  positional : Option (Int × Int)
  wholeFraction : List Char
  nan : List Char
  infinite : List Char
  negativeInfinite : List Char

namespace Layout

/-- The number as it stands in messages and listings. -/
def plain : Layout where
  tie := .up
  positional := none
  wholeFraction := []
  nan := ['N', 'a', 'N']
  infinite := ['i', 'n', 'f']
  negativeInfinite := ['-', 'i', 'n', 'f']

/-- The number as it stands in a JSON document, which has no word for the infinities. -/
def json : Layout where
  tie := .even
  positional := some (-5, 15)
  wholeFraction := ['.', '0']
  nan := ['n', 'u', 'l', 'l']
  infinite := ['n', 'u', 'l', 'l']
  negativeInfinite := ['n', 'u', 'l', 'l']

def isPositional (l : Layout) (leading : Int) : Bool :=
  match l.positional with
  | none => true
  | some (lo, hi) => decide (lo ≤ leading ∧ leading ≤ hi)

def withPoint (l : Layout) (digits : List Char) (leading : Int) : List Char :=
  if leading < 0 then
    '0' :: '.' :: (List.replicate (-leading - 1).toNat '0' ++ digits)
  else
    let whole := leading.toNat + 1
    if digits.length ≤ whole then
      digits ++ List.replicate (whole - digits.length) '0' ++ l.wholeFraction
    else digits.take whole ++ '.' :: digits.drop whole

def withExponent (digits : List Char) (leading : Int) : List Char :=
  let sign := if leading < 0 then '-' else '+'
  let exponent := 'e' :: sign :: Nat.toDigits 10 leading.natAbs
  match digits with
  | [] => exponent
  | [d] => d :: exponent
  | d :: rest => d :: '.' :: (rest ++ exponent)

def magnitude (l : Layout) (significand : Nat) (exponent : Int) : List Char :=
  let d := shortest l.tie significand exponent
  if l.isPositional d.leading then l.withPoint d.text d.leading
  else withExponent d.text d.leading

def render (l : Layout) (x : Float) : String :=
  String.ofList <| match Binary.ofFloat x with
    | .nan => l.nan
    | .infinite false => l.infinite
    | .infinite true => l.negativeInfinite
    | .finite false significand exponent => l.magnitude significand exponent
    | .finite true significand exponent => '-' :: l.magnitude significand exponent

end Layout

end FuzzyRules.Decimal
