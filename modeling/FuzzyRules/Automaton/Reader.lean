import FuzzyRules.Fault.Grammar
import FuzzyRules.Automaton.Description
import FuzzyRules.Toml.Document
import FuzzyRules.Toml.Fields

/-!
# Written grammar descriptions

A description is a TOML document with the records `grammar`, which names the grammar and its start
state, and `states`, a table from state names to lists of transitions. A transition runs no
actions and consumes its item unless it says otherwise.
-/

namespace FuzzyRules

open Toml

def TransitionText.ofNode? (node : Node) : Option TransitionText := do
  let [className, actions, next, consumes] ← node.fields? ["class", "actions", "next", "consume"]
    | none
  let className ← (← className).text?
  let actions ← Node.optional [] (fun n => do (← n.elements?).mapM Node.text?) actions
  let next ← (← next).text?
  let consumes ← Node.optional true Node.boolean? consumes
  return ⟨className, actions, next, consumes⟩

namespace Description

def headerOfNode? (node : Node) : Option (String × String) := do
  let [name, start] ← node.fields? ["name", "start"] | none
  return (← (← name).text?, ← (← start).text?)

def stateOfNode? (node : Node) : Option (List TransitionText) := do
  let [transitions] ← node.fields? ["transitions"] | none
  (← (← transitions).elements?).mapM TransitionText.ofNode?

def ofNode? (node : Node) : Option Description := do
  let [header, states] ← node.fields? ["grammar", "states"] | none
  let (name, start) ← headerOfNode? (← header)
  let states ← (← (← states).entries?).mapM fun e => (stateOfNode? e.2).map fun s => (e.1, s)
  return ⟨name, start, .ofList states⟩

/-- Reads a description from the text of a document. -/
def read (source : String) : Except GrammarFault Description :=
  match (document? source).bind ofNode? with
  | some d => .ok d
  | none => .error .unreadable

end Description

end FuzzyRules
