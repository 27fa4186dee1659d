import FuzzyRules.Fault.Model

/-!
# Faults of grammars and of texts

What can be wrong with a grammar description, with a text that is read by it, and with the order
in which the text is put together to a model. Each cause has a code, a message and an advice.
-/

namespace FuzzyRules

/-- An item of the input as it is shown in a message. -/
structure Excerpt where
  kind : String
  literal : String
  deriving DecidableEq, Repr

/-- What a description must not contain. -/
inductive TableFlaw where
  | reservedState
  | undefinedStart (name : String)
  | unknownClass (state className : String)
  | unknownNext (state next : String)
  deriving DecidableEq, Repr

/-- The entities that are open while a text is read. -/
inductive DraftKind where
  | ofUniverse
  | ofTerm
  | ofRuleBase
  | ofRule
  | ofPredicate
  deriving DecidableEq, Repr

/-- The kind of item that an action needs. -/
inductive Need where
  | character
  | text
  | number
  deriving DecidableEq, Repr

/-- What was closed, or left open, too early. -/
inductive Unfinished where
  | namelessUniverse
  | namelessRuleBase
  | ruleWithoutConsequent
  | term (name : String)
  | predicate
  | stillOpen (kind : DraftKind)
  deriving DecidableEq, Repr

inductive GrammarFault where
  /-- The description is no document of the required shape. -/
  | unreadable
  | invalid (grammar : String) (flaw : TableFlaw)
  | unknownAction (grammar name : String)
  | violation (grammar state : String) (seen : Excerpt) (line : Nat)
  | malformedNumber (literal : String) (line : Nat)
  | unexpectedItem (action : String) (need : Need) (seen : Excerpt)
  /-- `none` stands for the top level. -/
  | misplaced (action : String) (expected found : Option DraftKind)
  | incomplete (subject : Unfinished) (seen : Excerpt)
  | stalled (grammar state : String)
  | model (seen : Excerpt) (cause : ModelFault Float)
  deriving DecidableEq, Repr

def TableFlaw.text : TableFlaw → String
  | .reservedState => "\"accept\" is reserved and cannot name a state"
  | .undefinedStart name => s!"start state \"{name}\" is not defined"
  | .unknownClass state className => s!"state \"{state}\" uses unknown class \"{className}\""
  | .unknownNext state next => s!"state \"{state}\" moves to unknown state \"{next}\""

def DraftKind.label : DraftKind → String
  | .ofUniverse => "universe"
  | .ofTerm => "term"
  | .ofRuleBase => "rulebase"
  | .ofRule => "rule"
  | .ofPredicate => "predicate"

def Need.label : Need → String
  | .character => "character"
  | .text => "text"
  | .number => "number"

def Unfinished.text : Unfinished → String
  | .namelessUniverse => "unnamed universe"
  | .namelessRuleBase => "unnamed rulebase"
  | .ruleWithoutConsequent => "rule without consequent"
  | .term name => s!"term \"{name}\""
  | .predicate => "predicate"
  | .stillOpen kind => kind.label

namespace GrammarFault

def code : GrammarFault → String
  | .unreadable => "fribe::grammar::invalid"
  | .invalid .. => "fribe::grammar::invalid"
  | .unknownAction .. => "fribe::grammar::unknown_operation"
  | .violation .. => "fribe::grammar::violation"
  | .malformedNumber .. => "fribe::grammar::malformed_number"
  | .unexpectedItem .. => "fribe::grammar::unexpected_token"
  | .misplaced .. => "fribe::grammar::context_mismatch"
  | .incomplete .. => "fribe::grammar::incomplete"
  | .stalled .. => "fribe::grammar::stalled"
  | .model .. => "fribe::grammar::model"

/-- An unreadable description has no message of its own. -/
def message? : GrammarFault → Option String
  | .unreadable => none
  | .invalid grammar flaw => some s!"invalid grammar \"{grammar}\": {flaw.text}"
  | .unknownAction grammar name =>
    some s!"grammar \"{grammar}\" names unknown operation \"{name}\""
  | .violation grammar state seen line =>
    let site := s!"(grammar \"{grammar}\", state \"{state}\")"
    some s!"unexpected {seen.kind} \"{seen.literal}\" on line {line} {site}"
  | .malformedNumber literal line => some s!"malformed number \"{literal}\" on line {line}"
  | .unexpectedItem action need seen =>
    some s!"operation {action} expects a {need.label} token, got {seen.kind} \"{seen.literal}\""
  | .misplaced action expected found =>
    let wanted := (expected.map DraftKind.label).getD "top level"
    let present := (found.map DraftKind.label).getD "nothing"
    some s!"operation {action} expects a {wanted} in progress, found {present}"
  | .incomplete subject seen => some s!"incomplete {subject.text} at {seen.kind} \"{seen.literal}\""
  | .stalled grammar state =>
    some s!"grammar \"{grammar}\" loops in state \"{state}\" without consuming input"
  | .model seen cause => some s!"{cause.message} (at {seen.kind} \"{seen.literal}\")"

def help : GrammarFault → String
  | .unreadable | .invalid .. =>
    "A grammar description is TOML with a [grammar] table naming the start state and a " ++
      "[states.<name>] table per state listing its transitions. Every class, action and next " ++
      "state must be known."
  | .unknownAction .. =>
    "The grammar and the model builder are out of sync. Use only the operations the builder " ++
      "implements, e.g. create_universe, set_center, add_rule."
  | .violation .. =>
    "The input does not follow the grammar at this point. Check for a missing `end`, an " ++
      "unquoted name, or a stray character."
  | .malformedNumber .. =>
    "Numbers are an optional `-`, digits, and an optional `.` followed by digits."
  | .unexpectedItem .. => "The grammar attaches this operation to the wrong token class."
  | .misplaced .. =>
    "The grammar runs the builder's operations in an order it cannot follow."
  | .incomplete .. =>
    "The grammar finished or closed an entity before all of its fields were set."
  | .stalled .. =>
    "Some chain of `consume = false` transitions never reaches a consuming one."
  | .model .. =>
    "The definition is well-formed but conflicts with the model built so far."

end GrammarFault

end FuzzyRules
