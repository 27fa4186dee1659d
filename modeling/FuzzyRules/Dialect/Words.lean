import FuzzyRules.Automaton.Description

/-!
# The built-in words

Texts stand in double quotes, with a backslash before a quote or a backslash. Words are runs of
letters, numbers are an optional hyphen and digits with an optional dot. Blanks and commas
separate.
-/

namespace FuzzyRules.Dialect

def onClass (className next : String) (actions : List String) : TransitionText :=
  ⟨className, actions, next, true⟩

def onClassKeeping (className next : String) (actions : List String) : TransitionText :=
  ⟨className, actions, next, false⟩

/-- A number ends at a blank, at a comma or with the text. -/
def numberEnds : List TransitionText :=
  [onClass "blank" "start" ["number"],
    onClass "comma" "start" ["number"],
    onClassKeeping "empty" "start" ["number"]]

def builtinWords : Description where
  name := "lexical"
  start := "start"
  states := .ofList [
    ("start",
      [onClass "blank" "start" [],
        onClass "comma" "start" [],
        onClass "letter" "keyword" ["push"],
        onClass "quote" "text" [],
        onClass "hyphen" "sign" ["push"],
        onClass "digit" "integer" ["push"],
        onClass "dot" "fraction" ["push"],
        onClassKeeping "empty" "accept" []]),
    ("keyword",
      [onClass "letter" "keyword" ["push"],
        onClass "blank" "start" ["keyword"],
        onClass "comma" "start" ["keyword"],
        onClassKeeping "quote" "start" ["keyword"],
        onClassKeeping "empty" "start" ["keyword"]]),
    ("text",
      [onClass "backslash" "escape" [],
        onClass "quote" "start" ["text"],
        onClass "any" "text" ["push"]]),
    ("escape",
      [onClass "quote" "text" ["push"],
        onClass "backslash" "text" ["push"]]),
    ("sign",
      [onClass "digit" "integer" ["push"],
        onClass "dot" "fraction" ["push"]] ++ numberEnds),
    ("integer",
      [onClass "digit" "integer" ["push"],
        onClass "dot" "fraction" ["push"]] ++ numberEnds),
    ("fraction",
      [onClass "digit" "fraction" ["push"]] ++ numberEnds)]

end FuzzyRules.Dialect
