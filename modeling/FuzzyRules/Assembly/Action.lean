import FuzzyRules.Automaton.Table

/-!
# Assembly actions

What a phrase grammar can ask for while a model is put together. `create` actions open an entity,
`set` actions fill in the one that was opened last, and `add` actions close it.
-/

namespace FuzzyRules

inductive AssemblyAction where
  | createUniverse
  | setUniverseName
  | setUniverseDescription
  | createTerm
  | setCenter
  | setValue
  | addTerm
  | addUniverse
  | createRuleBase
  | setRuleBaseName
  | setRuleBaseDescription
  | createRule
  | setRuleDescription
  | createPredicate
  | setPredicateName
  | setPredicateValue
  | addPredicate
  | setConsequence
  | addRule
  | addRuleBase
  deriving DecidableEq, Repr

namespace AssemblyAction

def all : List AssemblyAction :=
  [.createUniverse, .setUniverseName, .setUniverseDescription, .createTerm, .setCenter, .setValue,
    .addTerm, .addUniverse, .createRuleBase, .setRuleBaseName, .setRuleBaseDescription, .createRule,
    .setRuleDescription, .createPredicate, .setPredicateName, .setPredicateValue, .addPredicate,
    .setConsequence, .addRule, .addRuleBase]

def name : AssemblyAction → String
  | .createUniverse => "create_universe"
  | .setUniverseName => "set_universe_name"
  | .setUniverseDescription => "set_universe_description"
  | .createTerm => "create_term"
  | .setCenter => "set_center"
  | .setValue => "set_value"
  | .addTerm => "add_term"
  | .addUniverse => "add_universe"
  | .createRuleBase => "create_rulebase"
  | .setRuleBaseName => "set_rulebase_name"
  | .setRuleBaseDescription => "set_rulebase_description"
  | .createRule => "create_rule"
  | .setRuleDescription => "set_rule_description"
  | .createPredicate => "create_predicate"
  | .setPredicateName => "set_predicate_name"
  | .setPredicateValue => "set_predicate_value"
  | .addPredicate => "add_predicate"
  | .setConsequence => "set_consequence"
  | .addRule => "add_rule"
  | .addRuleBase => "add_rulebase"

def ofName? (name : String) : Option AssemblyAction := all.find? fun a => a.name = name

instance : NamedAction AssemblyAction := ⟨ofName?⟩

/-- The kind of draft that the action takes off the stack. -/
def closes? : AssemblyAction → Option DraftKind
  | .addTerm => some .ofTerm
  | .addUniverse => some .ofUniverse
  | .addPredicate => some .ofPredicate
  | .addRule => some .ofRule
  | .addRuleBase => some .ofRuleBase
  | _ => none

end AssemblyAction

end FuzzyRules
