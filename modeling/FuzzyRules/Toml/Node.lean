/-!
# TOML nodes

The tree that a TOML document stands for. A table remembers how it came about, because that
decides whether later keys and headers may add to it: an implicit table was only passed through on
the way to another one, a dotted table was made by a dotted key, an inline table stands in braces.
Numbers and dates are told apart from the other nodes but carry no value.
-/

namespace FuzzyRules.Toml

structure TableOrigin where
  inBraces : Bool
  implicit : Bool
  dotted : Bool
  deriving DecidableEq, Repr

namespace TableOrigin

def header : TableOrigin := ⟨false, false, false⟩

def braces : TableOrigin := ⟨true, false, false⟩

/-- A table that a path has passed through. -/
def passed (inBraces dotted : Bool) : TableOrigin := ⟨inBraces, true, dotted⟩

end TableOrigin

inductive Node where
  | text (content : String)
  | boolean (value : Bool)
  | number
  | moment
  | array (elements : List Node)
  | table (origin : TableOrigin) (entries : List (String × Node))
  /-- Tables under one header in double brackets. -/
  | tables (elements : List Node)

abbrev Entries := List (String × Node)

namespace Entries

def get? (es : Entries) (key : String) : Option Node :=
  (es.find? fun e => e.1 = key).map Prod.snd

def erase (es : Entries) (key : String) : Entries := es.filter fun e => e.1 ≠ key

/-- Gives a key the node that `f` makes of its present one. -/
def update (f : Option Node → Option Node) (key : String) : Entries → Option Entries
  | [] => (f none).map fun n => [(key, n)]
  | (k, n) :: rest =>
    if k = key then (f (some n)).map fun n => (k, n) :: rest
    else (update f key rest).map ((k, n) :: ·)

end Entries

def updateLast (f : Node → Option Node) : List Node → Option (List Node)
  | [] => none
  | [n] => (f n).map fun n => [n]
  | n :: rest => (updateLast f rest).map (n :: ·)

/-- Walks down a path of keys and changes the table at its end. Tables that are missing are made. Of
tables that are there, a dotted key may only enter implicit ones. The last of several tables under
one header stands for all of them. -/
def descend (inBraces dotted : Bool) (f : TableOrigin → Entries → Option Entries) :
    List String → TableOrigin → Entries → Option Entries
  | [], origin, es => f origin es
  | key :: path, _, es =>
    let enter : Node → Option Node
      | .table origin inner =>
        if origin.inBraces ≠ inBraces then none
        else if dotted && !origin.implicit then none
        else (descend inBraces dotted f path origin inner).map (.table origin)
      | _ => none
    let enterLast : Node → Option Node
      | .table origin inner => (descend inBraces dotted f path origin inner).map (.table origin)
      | _ => none
    Entries.update
      (fun
        | none =>
          let origin := TableOrigin.passed inBraces dotted
          (descend inBraces dotted f path origin []).map (.table origin)
        | some (.tables elements) => (updateLast enterLast elements).map .tables
        | some node => enter node)
      key es

/-- Adds a key that is not there yet. A dotted key ends in a table made by dotted keys, a plain one
does not. -/
def addKey (isDotted : Bool) (key : String) (node : Node) (origin : TableOrigin) (es : Entries) :
    Option Entries :=
  if origin.dotted ≠ isDotted then none
  else
    match es.get? key with
    | some _ => none
    | none => some (es ++ [(key, node)])

/-- Adds the node under a path of keys. -/
def addPath (inBraces : Bool) (path : List String) (node : Node) (origin : TableOrigin)
    (es : Entries) : Option Entries :=
  match path.getLast? with
  | none => none
  | some key =>
    let parents := path.dropLast
    descend inBraces true (addKey (!parents.isEmpty) key node) parents origin es

/-- A document that is being read: the finished part, and the table under the last header. -/
structure Outline where
  root : Entries
  path : List String
  repeated : Bool
  entries : Entries

namespace Outline

def start : Outline := ⟨[], [], false, []⟩

def add (o : Outline) (path : List String) (node : Node) : Option Outline :=
  (addPath false path node .header o.entries).map fun es => { o with entries := es }

/-- Puts the table under the last header into the finished part. -/
def close (o : Outline) : Option Entries :=
  match o.path.getLast? with
  | none => some o.entries
  | some key =>
    let node := Node.table .header o.entries
    let put (_ : TableOrigin) (es : Entries) : Option Entries :=
      if o.repeated then
        es.update
          (fun
            | none => some (.tables [node])
            | some (.tables elements) => some (.tables (elements ++ [node]))
            | some _ => none)
          key
      else some (es.erase key ++ [(key, node)])
    descend false false put o.path.dropLast .header o.root

/-- The implicit table that a header completes, or nothing if there is no table yet. -/
def completes (key : String) (es : Entries) : Option Entries :=
  match es.get? key with
  | none => some []
  | some (.table origin inner) =>
    if origin.inBraces || !origin.implicit || origin.dotted then none else some inner
  | some _ => none

/-- The table at the end of a path, where one can be entered. -/
def tableAt? : List String → Entries → Option Entries
  | [], es => some es
  | key :: path, es =>
    match es.get? key with
    | none => some []
    | some (.table origin inner) => if origin.inBraces then none else tableAt? path inner
    | some (.tables elements) =>
      match elements.getLast? with
      | some (.table _ inner) => tableAt? path inner
      | _ => none
    | some _ => none

def header (o : Outline) (path : List String) : Option Outline := do
  let root ← o.close
  let key ← path.getLast?
  let parent ← tableAt? path.dropLast root
  let entries ← completes key parent
  let root ← descend false false (fun _ es => some (es.erase key)) path.dropLast .header root
  return ⟨root, path, false, entries⟩

def repeatedHeader (o : Outline) (path : List String) : Option Outline := do
  let root ← o.close
  let key ← path.getLast?
  let parent ← tableAt? path.dropLast root
  match parent.get? key with
  | none => return ⟨root, path, true, []⟩
  | some (.tables _) => return ⟨root, path, true, []⟩
  | some _ => none

end Outline

end FuzzyRules.Toml
