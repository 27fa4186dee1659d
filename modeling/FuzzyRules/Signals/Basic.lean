import FuzzyRules.NameMap.Basic

/-!
# Signals

Signals are numbers by name. Two sets of signals are the same if they have the same names and
equal numbers; a number that differs from itself makes a set differ from itself.
-/

namespace FuzzyRules

abbrev Signals := NameMap Float

namespace Signals

def sameEntries : List (String × Float) → List (String × Float) → Bool
  | [], [] => true
  | (k, x) :: rest, (k', x') :: rest' => k = k' && x == x' && sameEntries rest rest'
  | _, _ => false

def same (a b : Signals) : Bool := sameEntries a.entries b.entries

end Signals

end FuzzyRules
