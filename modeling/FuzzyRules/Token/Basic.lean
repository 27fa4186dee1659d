import FuzzyRules.Automaton.Run
import FuzzyRules.Text.Quoted

/-!
# Tokens

The words of the description language: keywords, quoted texts and numbers. The end of the text is
a token of its own.
-/

namespace FuzzyRules

inductive Token where
  | keyword (word : String)
  | text (content : String)
  | number (value : Float)
  | finish
  deriving DecidableEq, Repr

namespace Token

def kind : Token → String
  | .keyword _ => "keyword"
  | .text _ => "text"
  | .number _ => "number"
  | .finish => "empty"

def literal : Token → String
  | .keyword word => word
  | .text content => content
  | .number value => Decimal.Layout.plain.render value
  | .finish => ""

/-- The token as it is shown in a listing, with texts in quotes. -/
def listed : Token → String
  | .keyword word => word
  | .text content => Text.quoted content
  | .number value => Decimal.Layout.plain.render value
  | .finish => "<end>"

def excerpt (t : Token) : Excerpt := ⟨t.kind, t.literal⟩

instance : HasExcerpt Token := ⟨excerpt⟩

end Token

end FuzzyRules
