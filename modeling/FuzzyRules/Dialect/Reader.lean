import FuzzyRules.Automaton.Reader
import FuzzyRules.Dialect.Basic

/-!
# Written dialects

A dialect can be made of written descriptions in place of the built-in ones. The description of
the words is read and resolved before that of the phrases is looked into.
-/

namespace FuzzyRules

namespace Dialect

/-- The description that is written in `source`, or else the built-in one. -/
def describe (builtin : Description) : Option String → Except GrammarFault Description
  | none => .ok builtin
  | some source => Description.read source

def ofSources (words phrases : Option String) : Except GrammarFault Dialect := do
  let words ← (← describe builtinWords words).resolve
  let phrases ← (← describe builtinPhrases phrases).resolve
  return ⟨words, phrases⟩

end Dialect

end FuzzyRules
