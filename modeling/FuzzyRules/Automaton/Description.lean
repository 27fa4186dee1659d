import FuzzyRules.NameMap.Basic

/-!
# Grammar descriptions

A grammar is described by named states, each with an ordered list of transitions. A transition
names the class of items it takes, the actions it runs and the state it moves to. The name
`accept` is reserved for the end of a run.
-/

namespace FuzzyRules

structure TransitionText where
  className : String
  actions : List String
  next : String
  consumes : Bool
  deriving DecidableEq, Repr

structure Description where
  name : String
  start : String
  states : NameMap (List TransitionText)
  deriving DecidableEq

def Description.acceptName : String := "accept"

end FuzzyRules
