import FuzzyRules.Decimal.Layout

/-!
# Faults of a model

What can be wrong with a set of universes, rule bases and signals: a name that is taken, a name
that nothing bears, or a value that cannot be computed. Each cause has a code, a message and an
advice.
-/

namespace FuzzyRules

/-- What a name is the name of. -/
inductive NameKind where
  | universeName
  | termName
  | ruleBaseName
  | antecedent
  | signalName
  deriving DecidableEq, Repr

def NameKind.label : NameKind → String
  | .universeName => "universe"
  | .termName => "term"
  | .ruleBaseName => "rulebase"
  | .antecedent => "predicate"
  | .signalName => "signal"

/-- Where a name stands. -/
inductive Scope where
  | engine
  | engineState
  | inUniverse (name : String)
  | inRuleBase (name : String)
  | inRule (consequent : String)
  | inRuleOf (consequent ruleBase : String)
  | consequentOf (ruleBase : String)
  | missingAntecedent (outer : Scope)
  | termOf (outer : Scope) (owner : String)
  | place (text : String)
  deriving DecidableEq, Repr

def Scope.text : Scope → String
  | .engine => "engine"
  | .engineState => "engine state"
  | .inUniverse name => s!"universe \"{name}\""
  | .inRuleBase name => s!"rulebase \"{name}\""
  | .inRule consequent => s!"rule \"{consequent}\""
  | .inRuleOf consequent ruleBase => s!"rule \"{consequent}\" of rulebase \"{ruleBase}\""
  | .consequentOf ruleBase => s!"consequent of rulebase \"{ruleBase}\""
  | .missingAntecedent outer => s!"{outer.text} (missing antecedent)"
  | .termOf outer owner => s!"{outer.text} (universe \"{owner}\")"
  | .place text => text

/-- Why the rules of a rule base have no weighted mean. -/
inductive Unweighted (α : Type) where
  | noRules
  | noPredicates (consequent : String)
  | totalWeight (total : α)
  deriving DecidableEq, Repr

def Unweighted.text : Unweighted Float → String
  | .noRules => "no rules to weight"
  | .noPredicates consequent => s!"rule \"{consequent}\" has no predicates"
  | .totalWeight total => s!"total rule weight is {Decimal.Layout.plain.render total}"

inductive ModelFault (α : Type) where
  | duplicate (kind : NameKind) (name : String) (scope : Scope)
  | undefined (kind : NameKind) (name : String) (scope : Scope)
  | outOfDomain (owner : String) (value low high : α)
  | degenerate (owner : String) (center first second : α)
  | emptyAggregation (ruleBase : String) (reason : Unweighted α)
  | emptyUniverse (name : String)
  | nonMonotonic (owner term : String)
  deriving DecidableEq, Repr

namespace ModelFault

variable {α : Type}

def code : ModelFault α → String
  | .duplicate .. => "fribe::model::duplicate"
  | .undefined .. => "fribe::model::undefined"
  | .outOfDomain .. => "fribe::model::out_of_domain"
  | .degenerate .. => "fribe::model::degenerate"
  | .emptyAggregation .. => "fribe::model::empty_aggregation"
  | .emptyUniverse .. => "fribe::model::empty_universe"
  | .nonMonotonic .. => "fribe::model::non_monotonic"

def message : ModelFault Float → String
  | .duplicate kind name scope => s!"duplicate {kind.label} \"{name}\" in {scope.text}"
  | .undefined kind name scope =>
    s!"undefined {kind.label} \"{name}\" referenced from {scope.text}"
  | .outOfDomain owner value low high =>
    let write := Decimal.Layout.plain.render
    s!"value {write value} is outside the domain [{write low}, {write high}] " ++
      s!"of universe \"{owner}\""
  | .degenerate owner center first second =>
    let write := Decimal.Layout.plain.render
    s!"terms of universe \"{owner}\" share center {write center} " ++
      s!"but map it to {write first} and {write second}"
  | .emptyAggregation ruleBase reason =>
    s!"cannot aggregate rulebase \"{ruleBase}\": {reason.text}"
  | .emptyUniverse name => s!"universe \"{name}\" has no terms"
  | .nonMonotonic owner term => s!"universe \"{owner}\" is not monotonic at term \"{term}\""

def help : ModelFault α → String
  | .duplicate .. =>
    "Names must be unique within their scope: terms within a universe, antecedents within a " ++
      "rule, universes and rulebases within an engine. Rename or remove the second definition."
  | .undefined .. =>
    "Every antecedent must name a defined universe and a term of it, every consequent must " ++
      "name a term of the rulebase's own universe, and every antecedent must be present in the " ++
      "observation or the engine state."
  | .outOfDomain .. =>
    "Observations must lie between the smallest and the largest term center. Clamp the input or " ++
      "add terms that cover the observed range."
  | .degenerate .. =>
    "Terms with the same center must have the same value. Move one of the centers."
  | .emptyAggregation .. =>
    "A rulebase needs at least one rule, and each rule at least one predicate."
  | .emptyUniverse .. =>
    "Add at least one \"<term>\" <center> <value> line to the universe."
  | .nonMonotonic .. =>
    "With strict_monotonic enabled, term values must consistently rise or fall as centers " ++
      "increase. Reorder the values or disable the check."

end ModelFault

end FuzzyRules
