import FuzzyRules.Dialect.Words

/-!
# The built-in phrases

A model is a sequence of universes and rule bases. A universe has a name, an optional description
and terms of a text and two numbers. A rule base has a name, an optional description and rules; a
rule names its consequent, describes itself if it likes, and lists its predicates.
-/

namespace FuzzyRules.Dialect

def builtinPhrases : Description where
  name := "syntax"
  start := "start"
  states := .ofList [
    ("start",
      [onClass "universe" "universe_name" ["create_universe"],
        onClass "rulebase" "rulebase_name" ["create_rulebase"],
        onClassKeeping "empty" "accept" []]),
    ("universe_name",
      [onClass "text" "universe_head" ["set_universe_name"]]),
    ("universe_head",
      [onClass "description" "universe_description" [],
        onClass "text" "term_center" ["create_term"],
        onClass "end" "start" ["add_universe"]]),
    ("universe_description",
      [onClass "text" "universe_body" ["set_universe_description"]]),
    ("universe_body",
      [onClass "text" "term_center" ["create_term"],
        onClass "end" "start" ["add_universe"]]),
    ("term_center",
      [onClass "number" "term_value" ["set_center"]]),
    ("term_value",
      [onClass "number" "universe_body" ["set_value", "add_term"]]),
    ("rulebase_name",
      [onClass "text" "rulebase_head" ["set_rulebase_name"]]),
    ("rulebase_head",
      [onClass "description" "rulebase_description" [],
        onClass "text" "rulebase_body" ["set_rulebase_description"],
        onClass "rule" "rule_consequence" ["create_rule"],
        onClass "end" "start" ["add_rulebase"]]),
    ("rulebase_description",
      [onClass "text" "rulebase_body" ["set_rulebase_description"]]),
    ("rulebase_body",
      [onClass "rule" "rule_consequence" ["create_rule"],
        onClass "end" "start" ["add_rulebase"]]),
    ("rule_consequence",
      [onClass "text" "rule_head" ["set_consequence"]]),
    ("rule_head",
      [onClass "description" "rule_description" [],
        onClass "text" "rule_when" ["set_rule_description"],
        onClass "when" "predicate_start" []]),
    ("rule_description",
      [onClass "text" "rule_when" ["set_rule_description"]]),
    ("rule_when",
      [onClass "when" "predicate_start" []]),
    ("predicate_start",
      [onClass "text" "predicate_is" ["create_predicate", "set_predicate_name"]]),
    ("predicate_is",
      [onClass "is" "predicate_value" []]),
    ("predicate_value",
      [onClass "text" "predicate_next" ["set_predicate_value", "add_predicate"]]),
    ("predicate_next",
      [onClass "and" "predicate_start" [],
        onClass "end" "rulebase_body" ["add_rule"]])]

end FuzzyRules.Dialect
