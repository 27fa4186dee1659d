import FuzzyRules.Token.Stream

/-!
# Pieces of a text

A text of the description language splits from left to right into pieces: separators, quoted
texts, words and numbers. A word or a number must be followed by a piece that keeps it apart from
the next one. All pieces but the separators stand for a token.
-/

namespace FuzzyRules

/-- A character between quotes, alone or behind a backslash. -/
inductive TextUnit where
  | plain (c : Char)
  | escaped (c : Char)

namespace TextUnit

def chars : TextUnit → List Char
  | plain c => [c]
  | escaped c => ['\\', c]

def content : TextUnit → Char
  | plain c => c
  | escaped c => c

def Valid : TextUnit → Prop
  | plain c => c ≠ '"' ∧ c ≠ '\\'
  | escaped c => c = '"' ∨ c = '\\'

end TextUnit

/-- The digits of a number around its dot, if it has one. -/
structure NumberText where
  negative : Bool
  whole : List Char
  fraction : Option (List Char)

namespace NumberText

/-- The dot and the digits behind it. -/
def dotted : Option (List Char) → List Char
  | none => []
  | some digits => '.' :: digits

def chars (n : NumberText) : List Char :=
  (if n.negative then ['-'] else []) ++ n.whole ++ dotted n.fraction

def digits (n : NumberText) : List Char := n.whole ++ n.fraction.getD []

/-- There is nothing but digits around the dot. -/
def Plain (n : NumberText) : Prop := ∀ c ∈ n.digits, c.isDigit = true

def Valid (n : NumberText) : Prop := n.Plain ∧ n.digits ≠ []

end NumberText

inductive Piece where
  | separator (c : Char)
  | text (units : List TextUnit)
  | word (letters : List Char)
  | number (n : NumberText)

def IsSeparator (c : Char) : Prop := Text.isBlank c = true ∨ c = ','

instance (c : Char) : Decidable (IsSeparator c) :=
  inferInstanceAs (Decidable (Text.isBlank c = true ∨ c = ','))

namespace Piece

def chars : Piece → List Char
  | separator c => [c]
  | text units => '"' :: units.flatMap TextUnit.chars ++ ['"']
  | word letters => letters
  | number n => n.chars

def Valid : Piece → Prop
  | separator c => IsSeparator c
  | text units => ∀ u ∈ units, u.Valid
  | word letters => letters ≠ [] ∧ ∀ c ∈ letters, Text.isLetter c = true
  | number n => n.Valid

/-- Whether the piece can stand before the rest of a text. -/
def EndsBefore : Piece → List Char → Prop
  | separator _, _ => True
  | text _, _ => True
  | word _, rest => ∀ c ∈ rest.head?, IsSeparator c ∨ c = '"'
  | number _, rest => ∀ c ∈ rest.head?, IsSeparator c

def token? : Piece → Option Token
  | separator _ => none
  | text units => some (.text (String.ofList (units.map TextUnit.content)))
  | word letters => some (.keyword (String.ofList letters))
  | number n => (Decimal.literal? (String.ofList n.chars)).map .number

/-- No piece stands for the end of the text. -/
theorem ne_finish_of_mem {ps : List Piece} {token : Token}
    (h : token ∈ ps.filterMap Piece.token?) : token ≠ .finish := by
  obtain ⟨p, -, hp⟩ := List.mem_filterMap.1 h
  rintro rfl
  cases p <;> simp [token?] at hp

end Piece

inductive Splits : List Char → List Piece → Prop
  | nil : Splits [] []
  | cons {p : Piece} {rest : List Char} {ps : List Piece} (valid : p.Valid)
      (ends : p.EndsBefore rest) (tail : Splits rest ps) : Splits (p.chars ++ rest) (p :: ps)

/-- The text begins with the pieces, and behind them there is the rest. -/
inductive Begins : List Char → List Piece → List Char → Prop
  | nil (rest : List Char) : Begins rest [] rest
  | cons {p : Piece} {cs rest : List Char} {ps : List Piece} (valid : p.Valid)
      (ends : p.EndsBefore cs) (tail : Begins cs ps rest) : Begins (p.chars ++ cs) (p :: ps) rest

namespace Begins

variable {cs middle rest : List Char} {ps qs : List Piece}

theorem singleton {p : Piece} (valid : p.Valid) (ends : p.EndsBefore rest) :
    Begins (p.chars ++ rest) [p] rest :=
  .cons valid ends (.nil rest)

theorem trans (h : Begins cs ps middle) (h' : Begins middle qs rest) :
    Begins cs (ps ++ qs) rest := by
  induction h with
  | nil => exact h'
  | cons valid ends _ ih => exact .cons valid ends (ih h')

theorem splits_append (h : Begins cs ps rest) (h' : Splits rest qs) : Splits cs (ps ++ qs) := by
  induction h with
  | nil => exact h'
  | cons valid ends _ ih => exact .cons valid ends (ih h')

theorem eq_append (h : Begins cs ps rest) : cs = ps.flatMap Piece.chars ++ rest := by
  induction h with
  | nil => rfl
  | cons _ _ _ ih => rw [List.flatMap_cons, List.append_assoc, ← ih]

end Begins

end FuzzyRules
