import FuzzyRules.Toml.Node

/-!
# Records in TOML

A record is written as a table with no other keys than its fields, or as an array of the fields in
their order; elements behind the last field are ignored. Either form may leave fields out.
-/

namespace FuzzyRules.Toml.Node

def text? : Node → Option String
  | .text content => some content
  | _ => none

def boolean? : Node → Option Bool
  | .boolean value => some value
  | _ => none

def elements? : Node → Option (List Node)
  | .array elements => some elements
  | .tables elements => some elements
  | _ => none

def entries? : Node → Option Entries
  | .table _ entries => some entries
  | _ => none

/-- The nodes of the named fields, if the node has the shape of the record. -/
def fields? (names : List String) : Node → Option (List (Option Node))
  | .table _ entries =>
    if entries.all fun e => names.contains e.1 then some (names.map (Entries.get? entries))
    else none
  | .array elements => some (names.mapIdx fun i _ => elements[i]?)
  | .tables elements => some (names.mapIdx fun i _ => elements[i]?)
  | _ => none

/-- A field that has a value even if it is left out. -/
def optional {β : Type} (missing : β) (read : Node → Option β) : Option Node → Option β
  | none => some missing
  | some node => read node

end FuzzyRules.Toml.Node
