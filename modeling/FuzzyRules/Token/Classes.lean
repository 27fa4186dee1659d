import FuzzyRules.Text.Blank
import FuzzyRules.Text.Letter
import FuzzyRules.Token.Basic

/-!
# Classes of characters and of tokens

A lexical grammar sees characters and, as the last item, the end of the input, which is in the
class `empty` and in no other. A phrase grammar sees tokens; a class that is none of the token
kinds is the spelling of a keyword.
-/

namespace FuzzyRules

inductive CharClass where
  | digit
  | letter
  | quote
  | backslash
  | hyphen
  | dot
  | blank
  | comma
  | any
  | empty
  deriving DecidableEq, Repr

namespace CharClass

def ofName? : String → Option CharClass
  | "digit" => some .digit
  | "letter" => some .letter
  | "quote" => some .quote
  | "backslash" => some .backslash
  | "hyphen" => some .hyphen
  | "dot" => some .dot
  | "blank" => some .blank
  | "comma" => some .comma
  | "any" => some .any
  | "empty" => some .empty
  | _ => none

def admitsChar (c : Char) : CharClass → Bool
  | .digit => c.isDigit
  | .letter => Text.isLetter c
  | .quote => c == '"'
  | .backslash => c == '\\'
  | .hyphen => c == '-'
  | .dot => c == '.'
  | .blank => Text.isBlank c
  | .comma => c == ','
  | .any => true
  | .empty => false

def admits (k : CharClass) : Option Char → Bool
  | some c => k.admitsChar c
  | none => k == .empty

instance : ItemClass CharClass (Option Char) := ⟨ofName?, admits⟩

instance : HasExcerpt (Option Char) where
  excerpt
    | some c => ⟨"character", String.singleton c⟩
    | none => ⟨"end of input", ""⟩

end CharClass

inductive TokenClass where
  | keyword (word : String)
  | text
  | number
  | empty
  deriving DecidableEq, Repr

namespace TokenClass

def isWord (name : String) : Bool := name ≠ "" && name.toList.all Char.isLower

def ofName? (name : String) : Option TokenClass :=
  if name = "text" then some .text
  else if name = "number" then some .number
  else if name = "empty" then some .empty
  else if isWord name then some (.keyword name)
  else none

def admits : TokenClass → Token → Bool
  | .keyword expected, .keyword found => expected == found
  | .text, .text _ => true
  | .number, .number _ => true
  | .empty, .finish => true
  | _, _ => false

instance : ItemClass TokenClass Token := ⟨ofName?, admits⟩

end TokenClass

end FuzzyRules
