import FuzzyRules.Fault.Model
import FuzzyRules.NameMap.Basic

/-!
# Rule bases

A rule asks that some universes stand near given terms, and names the term that follows. A rule
base is a list of rules about one universe, the one that bears its name.
-/

namespace FuzzyRules

structure Rule where
  consequent : String
  description : Option String
  /-- The expected term by antecedent universe. -/
  predicates : NameMap String
  deriving DecidableEq

namespace Rule

def new (consequent : String) : Rule := ⟨consequent, none, .empty⟩

def addPredicate {α : Type} (r : Rule) (antecedent term : String) : Except (ModelFault α) Rule :=
  if r.predicates.contains antecedent then
    .error (.duplicate .antecedent antecedent (.inRule r.consequent))
  else .ok { r with predicates := r.predicates.insert antecedent term }

end Rule

structure RuleBase where
  name : String
  description : Option String
  rules : List Rule
  deriving DecidableEq

namespace RuleBase

def new (name : String) : RuleBase := ⟨name, none, []⟩

def addRule (rb : RuleBase) (r : Rule) : RuleBase := { rb with rules := rb.rules ++ [r] }

end RuleBase

end FuzzyRules
