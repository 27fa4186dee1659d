import FuzzyRules.Decimal.Layout
import FuzzyRules.Decimal.Literal
import FuzzyRules.Signals.Basic
import FuzzyRules.Text.Hex

/-!
# Signals in JSON

Signals are written as one object in name order, on one line or with an entry on each line.
Reading takes an object of numbers; of a name that comes twice the last number counts. A number is
read through its first nineteen or so digits, as many as fit a machine word, and then scaled by a
power of ten, so it may differ from the nearest double in its last bit.
-/

namespace FuzzyRules.Signals

/-! ## Writing -/

def padded (n : Nat) : List Char :=
  let digits := Text.hexDigits n
  List.replicate (4 - digits.length) '0' ++ digits

def escaped (c : Char) : List Char :=
  if c = '"' then ['\\', '"']
  else if c = '\\' then ['\\', '\\']
  else if c = '\x08' then ['\\', 'b']
  else if c = '\x0c' then ['\\', 'f']
  else if c = '\n' then ['\\', 'n']
  else if c = '\r' then ['\\', 'r']
  else if c = '\t' then ['\\', 't']
  else if c.toNat < 0x20 then '\\' :: 'u' :: padded c.toNat
  else [c]

def writeName (s : String) : String := String.ofList ('"' :: s.toList.flatMap escaped ++ ['"'])

def write (signals : Signals) : String :=
  let entry (e : String × Float) := writeName e.1 ++ ":" ++ Decimal.Layout.json.render e.2
  "\x7b" ++ ",".intercalate (signals.entries.map entry) ++ "\x7d"

def writeLines (signals : Signals) : String :=
  let entry (e : String × Float) := "  " ++ writeName e.1 ++ ": " ++ Decimal.Layout.json.render e.2
  if signals.isEmpty then "\x7b\x7d"
  else "\x7b\n" ++ ",\n".intercalate (signals.entries.map entry) ++ "\n\x7d"

/-! ## Reading -/

abbrev Reader (β : Type) := List Char → Option (β × List Char)

def isGap (c : Char) : Bool := c == ' ' || c == '\n' || c == '\t' || c == '\r'

def skipGap (cs : List Char) : List Char := cs.dropWhile isGap

def wordBound : Nat := Nat.pow 2 64

/-- The digits that fit a word, and the number of digits that do not. -/
def takeWord (value : Nat) : List Char → Nat × Nat × List Char
  | [] => (value, 0, [])
  | c :: rest =>
    if c.isDigit then
      let next := 10 * value + Decimal.digitValue c
      if next < wordBound then takeWord next rest
      else (value, ((c :: rest).takeWhile Char.isDigit).length, (c :: rest).dropWhile Char.isDigit)
    else (value, 0, c :: rest)

def powerOfTen (n : Nat) : Float := Float.ofScientific 1 false n

/-- Divides by a power of ten, in steps that a double can hold. -/
def scaleDown : Nat → Float → Nat → Float
  | 0, x, _ => x
  | fuel + 1, x, n =>
    if n ≤ 308 then x / powerOfTen n
    else if x == 0 then x
    else scaleDown fuel (x / powerOfTen 308) (n - 308)

/-- The number `significand * 10 ^ exponent`, if a double can hold it. -/
def scaled? (significand : Nat) (exponent : Int) : Option Float :=
  let x := Float.ofNat significand
  if exponent < 0 then some (scaleDown 4 x exponent.natAbs)
  else if exponent ≤ 308 then
    let y := x * powerOfTen exponent.natAbs
    if y.isInf then none else some y
  else if x == 0 then some x
  else none

def exponentBound : Nat := Nat.pow 2 31

/-- The exponent behind its mark. -/
def exponent? (cs : List Char) : Option (Bool × Nat × List Char) :=
  let (negative, rest) := Decimal.splitSign cs
  match rest.takeWhile Char.isDigit with
  | [] => none
  | digits => some (negative, Decimal.digitsValue digits, rest.dropWhile Char.isDigit)

def isMark (c : Char) : Bool := c == 'e' || c == 'E'

/-- The rest of a number: its exponent, if there is one. -/
def scaledRest (significand : Nat) (shift : Int) : Reader Float := fun cs =>
  match cs with
  | c :: rest =>
    if isMark c then do
      let (negative, e, rest) ← exponent? rest
      if exponentBound ≤ e then
        if significand ≠ 0 ∧ ¬ negative then none else return (0, rest)
      else return (← scaled? significand (shift + if negative then -(e : Int) else e), rest)
    else (scaled? significand shift).map fun x => (x, cs)
  | [] => (scaled? significand shift).map fun x => (x, [])

/-- The digits behind the point; those that no longer fit are dropped. -/
def fractionRest (significand : Nat) (shift : Int) : Reader Float := fun cs =>
  match cs.takeWhile Char.isDigit with
  | [] => none
  | digits =>
    let (value, dropped, rest) := takeWord significand cs
    scaledRest value (shift - ((digits.length - dropped : Nat) : Int)) rest

def magnitude : Reader Float := fun cs =>
  match cs with
  | [] => none
  | c :: rest =>
    if ¬ c.isDigit then none
    else if c = '0' ∧ (rest.head?.map Char.isDigit).getD false then none
    else
      let (value, dropped, rest) := takeWord 0 cs
      match rest with
      | '.' :: rest => fractionRest value dropped rest
      | rest => scaledRest value dropped rest

def number : Reader Float
  | '-' :: rest => (magnitude rest).map fun r => (-r.1, r.2)
  | cs => magnitude cs

def shortEscape? : Char → Option Char
  | '"' => some '"'
  | '\\' => some '\\'
  | '/' => some '/'
  | 'b' => some '\x08'
  | 'f' => some '\x0c'
  | 'n' => some '\n'
  | 'r' => some '\r'
  | 't' => some '\t'
  | _ => none

def codeUnit? (a b c d : Char) : Option Nat := do
  let a ← Text.hexValue? a
  let b ← Text.hexValue? b
  let c ← Text.hexValue? c
  let d ← Text.hexValue? d
  return ((a * 16 + b) * 16 + c) * 16 + d

/-- The character of two halves. -/
def joined? (high low : Nat) : Option Char :=
  if 0xd800 ≤ high ∧ high < 0xdc00 ∧ 0xdc00 ≤ low ∧ low < 0xe000 then
    some (Char.ofNat (0x10000 + (high - 0xd800) * 0x400 + (low - 0xdc00)))
  else none

def isHighHalf (n : Nat) : Bool := 0xd800 ≤ n && n < 0xdc00

/-- `pending` is the first half of a character whose second half must follow. -/
def nameFrom : Option Nat → List Char → Reader String
  | pending, acc, '\\' :: 'u' :: a :: b :: c :: d :: rest =>
    match codeUnit? a b c d, pending with
    | none, _ => none
    | some n, some high =>
      match joined? high n with
      | some ch => nameFrom none (ch :: acc) rest
      | none => none
    | some n, none =>
      if isHighHalf n then nameFrom (some n) acc rest
      else
        match Text.charOfCode? n with
        | some ch => nameFrom none (ch :: acc) rest
        | none => none
  | none, acc, '\\' :: c :: rest =>
    match shortEscape? c with
    | some ch => nameFrom none (ch :: acc) rest
    | none => none
  | none, acc, c :: rest =>
    if c = '"' then some (String.ofList acc.reverse, rest)
    else if c.toNat < 0x20 ∨ c = '\\' then none
    else nameFrom none (c :: acc) rest
  | _, _, _ => none

def entry : Reader (String × Float) := fun cs =>
  match cs with
  | '"' :: rest => do
    let (name, rest) ← nameFrom none [] rest
    match skipGap rest with
    | ':' :: rest =>
      let (x, rest) ← number (skipGap rest)
      return ((name, x), rest)
    | _ => none
  | _ => none

/-- The entries behind the opening brace or a comma. -/
def entriesFrom : Nat → Signals → Reader Signals
  | 0, _, _ => none
  | fuel + 1, signals, cs => do
    let (e, rest) ← entry (skipGap cs)
    let signals := signals.insert e.1 e.2
    match skipGap rest with
    | '\x7d' :: rest => return (signals, rest)
    | ',' :: rest => entriesFrom fuel signals rest
    | _ => none

def object (cs : List Char) : Option (Signals × List Char) :=
  match skipGap cs with
  | '\x7b' :: rest =>
    match skipGap rest with
    | '\x7d' :: rest => some (.empty, rest)
    | rest => entriesFrom (rest.length + 1) .empty rest
  | _ => none

def read? (s : String) : Option Signals := do
  let (signals, rest) ← object s.toList
  if skipGap rest = [] then return signals else none

end FuzzyRules.Signals
