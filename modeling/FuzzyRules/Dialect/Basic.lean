import FuzzyRules.Assembly.Action
import FuzzyRules.Dialect.Phrases
import FuzzyRules.Token.Stream

/-!
# Dialects

A dialect is the pair of tables that a text is read with: one over its characters, which makes
tokens, and one over the tokens, which puts the model together.
-/

namespace FuzzyRules

/-- The tables that a text is read with. -/
structure Dialect where
  words : Table CharClass LexAction
  phrases : Table TokenClass AssemblyAction

namespace Dialect

/-- A flaw in the description of the words is reported first. -/
def ofDescriptions (words phrases : Description) : Except GrammarFault Dialect := do
  let words ← words.resolve
  let phrases ← phrases.resolve
  return ⟨words, phrases⟩

def builtin : Except GrammarFault Dialect :=
  ofDescriptions builtinWords builtinPhrases

end Dialect

end FuzzyRules
