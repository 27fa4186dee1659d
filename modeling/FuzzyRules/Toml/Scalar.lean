import FuzzyRules.Decimal.Literal
import FuzzyRules.Toml.Node
import FuzzyRules.Toml.Text

/-!
# TOML scalars

Booleans, whole numbers in four bases, numbers with a fraction or an exponent, and dates and
times. A scalar is a run of characters that no other part of a document can follow directly; only
a date may be followed by one space and a time.
-/

namespace FuzzyRules.Toml

def isScalarChar (c : Char) : Bool :=
  c.isAlphanum || c == '+' || c == '-' || c == '_' || c == '.' || c == ':'

/-- The digits without the underscores, each of which stands between two digits. -/
def ungrouped? (isDigit : Char → Bool) : Bool → List Char → Option (List Char)
  | behindDigit, [] => if behindDigit then some [] else none
  | behindDigit, c :: rest =>
    if isDigit c then (ungrouped? isDigit true rest).map (c :: ·)
    else if c = '_' ∧ behindDigit then ungrouped? isDigit false rest
    else none

def baseValue (base : Nat) (digits : List Char) : Nat :=
  digits.foldl (fun n c => base * n + (Text.hexValue? c).getD 0) 0

def isBaseDigit (base : Nat) (c : Char) : Bool :=
  match Text.hexValue? c with
  | some d => decide (d < base)
  | none => false

/-- Whole numbers fit a machine word with a sign. -/
def integerBound : Nat := Nat.pow 2 63

def isBased (base : Nat) (cs : List Char) : Bool :=
  match ungrouped? (isBaseDigit base) false cs with
  | some digits => decide (baseValue base digits < integerBound)
  | none => false

/-- Digits of a decimal number: no zero stands before another digit. -/
def wholeDigits? (cs : List Char) : Option (List Char) :=
  match cs with
  | '0' :: _ :: _ => none
  | _ => ungrouped? Char.isDigit false cs

def isWhole (cs : List Char) : Bool :=
  let (negative, digits) := Decimal.splitSign cs
  match wholeDigits? digits with
  | some digits =>
    let n := Decimal.digitsValue digits
    if negative then decide (n ≤ integerBound) else decide (n < integerBound)
  | none => false

def isInteger : List Char → Bool
  | '0' :: 'x' :: rest => isBased 16 rest
  | '0' :: 'o' :: rest => isBased 8 rest
  | '0' :: 'b' :: rest => isBased 2 rest
  | cs => isWhole cs

def isMark (c : Char) : Bool := c == 'e' || c == 'E'

def exponentDigits? : List Char → Option (List Char)
  | [] => some []
  | _ :: rest =>
    let (negative, digits) := Decimal.splitSign rest
    (ungrouped? Char.isDigit false digits).map fun digits =>
      'e' :: (if negative then '-' :: digits else digits)

/-- The number without its sign and its underscores. -/
def fractionText? (cs : List Char) : Option (List Char) := do
  let whole ← wholeDigits? (cs.takeWhile fun c => c != '.' && !isMark c)
  let rest := cs.dropWhile fun c => c != '.' && !isMark c
  match rest with
  | [] => none
  | '.' :: rest =>
    let fraction ← ungrouped? Char.isDigit false (rest.takeWhile fun c => !isMark c)
    let exponent ← exponentDigits? (rest.dropWhile fun c => !isMark c)
    return whole ++ '.' :: fraction ++ exponent
  | rest =>
    let exponent ← exponentDigits? rest
    return whole ++ exponent

/-- A number too large for a double is refused unless it is negative. -/
def isFraction (cs : List Char) : Bool :=
  let (negative, rest) := Decimal.splitSign cs
  if rest = ['i', 'n', 'f'] ∨ rest = ['n', 'a', 'n'] then true
  else
    match (fractionText? rest).bind Decimal.magnitude? with
    | some place => negative || decide (place < Decimal.Binary.infinityPlace)
    | none => false

def twoDigits? (a b : Char) : Option Nat :=
  if a.isDigit && b.isDigit then some (10 * Decimal.digitValue a + Decimal.digitValue b) else none

def isLeapYear (y : Nat) : Bool := y % 4 == 0 && (y % 100 != 0 || y % 400 == 0)

def daysInMonth (year month : Nat) : Nat :=
  if month = 2 then if isLeapYear year then 29 else 28
  else if month = 4 ∨ month = 6 ∨ month = 9 ∨ month = 11 then 30
  else 31

/-- Splits off a date. -/
def date? : List Char → Option (List Char)
  | y1 :: y2 :: y3 :: y4 :: '-' :: m1 :: m2 :: '-' :: d1 :: d2 :: rest => do
    let century ← twoDigits? y1 y2
    let year ← twoDigits? y3 y4
    let month ← twoDigits? m1 m2
    let day ← twoDigits? d1 d2
    let last := daysInMonth (100 * century + year) month
    if 1 ≤ month ∧ month ≤ 12 ∧ 1 ≤ day ∧ day ≤ last then some rest else none
  | _ => none

def hourMinute? : List Char → Option (List Char)
  | h1 :: h2 :: ':' :: m1 :: m2 :: rest => do
    let hour ← twoDigits? h1 h2
    let minute ← twoDigits? m1 m2
    if hour ≤ 23 ∧ minute ≤ 59 then some rest else none
  | _ => none

def secondFraction? : List Char → Option (List Char)
  | '.' :: c :: rest => if c.isDigit then some (rest.dropWhile Char.isDigit) else none
  | '.' :: [] => none
  | rest => some rest

/-- Splits off a time. -/
def time? (cs : List Char) : Option (List Char) :=
  match hourMinute? cs with
  | some (':' :: s1 :: s2 :: rest) => do
    let second ← twoDigits? s1 s2
    if second ≤ 60 then secondFraction? rest else none
  | _ => none

def isOffset : List Char → Bool
  | [] => true
  | [c] => c == 'Z' || c == 'z'
  | c :: rest => (c == '+' || c == '-') && hourMinute? rest == some []

def isTimeWithOffset (cs : List Char) : Bool :=
  match time? cs with
  | some rest => isOffset rest
  | none => false

def isMoment (cs : List Char) : Bool :=
  match date? cs with
  | some [] => true
  | some (c :: rest) => (c == 'T' || c == 't') && isTimeWithOffset rest
  | none => time? cs == some []

def scalarOf? (run : List Char) : Option Node :=
  if run = ['t', 'r', 'u', 'e'] then some (.boolean true)
  else if run = ['f', 'a', 'l', 's', 'e'] then some (.boolean false)
  else if isInteger run || isFraction run then some .number
  else if isMoment run then some .moment
  else none

/-- The time behind a date and a space. -/
def skipTime (cs : List Char) : List Char :=
  match cs with
  | ' ' :: rest =>
    if isTimeWithOffset (rest.takeWhile isScalarChar) then rest.dropWhile isScalarChar else cs
  | _ => cs

def scalar : Reader Node := fun cs => do
  let run := cs.takeWhile isScalarChar
  let rest := cs.dropWhile isScalarChar
  let node ← scalarOf? run
  return (node, if date? run = some [] then skipTime rest else rest)

end FuzzyRules.Toml
