import FuzzyRules.Decimal.Literal
import FuzzyRules.Text.Blank

/-!
# Command lines

A command line is a command with its arguments and options; the options that name files may stand
before the command or behind it, where they count more. An option takes its value from the same
word, behind a sign of equality, or from the next word, which then must not look like an option.
Two hyphens end the options. Whatever else is given makes the line no request at all.
-/

namespace FuzzyRules.CommandLine

structure FileOptions where
  settings : Option String := none
  words : Option String := none
  phrases : Option String := none
  deriving DecidableEq, Repr

/-- The options of the first that are given, else those of the second. -/
def FileOptions.over (inner outer : FileOptions) : FileOptions :=
  ⟨inner.settings.or outer.settings, inner.words.or outer.words, inner.phrases.or outer.phrases⟩

inductive Command where
  | check (model : String)
  | evaluate (model : String) (observations : List (String × Float)) (cycles : Nat)
  deriving DecidableEq, Repr

inductive Request where
  | version
  | run (options : FileOptions) (command : Command)
  deriving DecidableEq, Repr

def looksLikeOption (word : String) : Bool :=
  match word.toList with
  | '-' :: _ :: _ => true
  | _ => false

/-- The name of a long option, and the value behind its sign of equality. -/
def splitOption? (word : String) : Option (String × Option String) :=
  match word.toList with
  | '-' :: '-' :: c :: cs =>
    let body := c :: cs
    let name := String.ofList (body.takeWhile (· != '='))
    match body.dropWhile (· != '=') with
    | [] => some (name, none)
    | _ :: value => some (name, some (String.ofList value))
  | _ => none

def takeValue (attached : Option String) (rest : List String) : Option (String × List String) :=
  match attached, rest with
  | some value, rest => some (value, rest)
  | none, value :: rest => if looksLikeOption value then none else some (value, rest)
  | none, [] => none

/-- A path is not empty, and an option that takes a path is given once. -/
def setPath (old : Option String) (value : String) : Option (Option String) :=
  if old.isSome || value == "" then none else some (some value)

def setFileOption (o : FileOptions) (name value : String) : Option FileOptions :=
  match name with
  | "config" => (setPath o.settings value).map fun p => { o with settings := p }
  | "lexer-grammar" => (setPath o.words value).map fun p => { o with words := p }
  | "parser-grammar" => (setPath o.phrases value).map fun p => { o with phrases := p }
  | _ => none

def trimBlank (cs : List Char) : List Char :=
  ((cs.dropWhile Text.isBlank).reverse.dropWhile Text.isBlank).reverse

/-- `name=value`, with blanks around either. -/
def observation? (s : String) : Option (String × Float) :=
  match s.toList.dropWhile (· != '=') with
  | [] => none
  | _ :: value =>
    let name := s.toList.takeWhile (· != '=')
    (Decimal.literal? (String.ofList (trimBlank value))).map fun x =>
      (String.ofList (trimBlank name), x)

def cyclesBound : Nat := Nat.pow 2 64

def cycles? (s : String) : Option Nat :=
  let digits := match s.toList with
    | '+' :: rest => rest
    | cs => cs
  if digits ≠ [] ∧ digits.all Char.isDigit ∧ Decimal.digitsValue digits < cyclesBound then
    some (Decimal.digitsValue digits)
  else none

/-- The words behind a command, as far as they are read. -/
structure Gathered where
  options : FileOptions := {}
  model : Option String := none
  observations : List (String × Float) := []
  cycles : Option Nat := none

namespace Gathered

def setModel (g : Gathered) (value : String) : Option Gathered :=
  (setPath g.model value).map fun p => { g with model := p }

/-- Observations and cycles are options of `evaluate` alone. -/
def setOption (g : Gathered) (evaluates : Bool) (name value : String) : Option Gathered :=
  match evaluates, name with
  | true, "set" =>
    (observation? value).map fun o => { g with observations := g.observations ++ [o] }
  | true, "cycles" =>
    if g.cycles.isSome then none else (cycles? value).map fun n => { g with cycles := some n }
  | _, _ => (setFileOption g.options name value).map fun o => { g with options := o }

def positional (g : Gathered) : List String → Option Gathered
  | [] => some g
  | word :: rest => (g.setModel word).bind fun g => positional g rest

def gather (evaluates : Bool) : Nat → Gathered → List String → Option Gathered
  | 0, _, _ => none
  | _ + 1, g, [] => some g
  | fuel + 1, g, word :: rest =>
    if word = "--" then g.positional rest
    else if looksLikeOption word then do
      let (name, attached) ← splitOption? word
      let (value, rest) ← takeValue attached rest
      gather evaluates fuel (← g.setOption evaluates name value) rest
    else (g.setModel word).bind fun g => gather evaluates fuel g rest

end Gathered

def command? (evaluates : Bool) (outer : FileOptions) (words : List String) : Option Request := do
  let g ← Gathered.gather evaluates (words.length + 1) {} words
  let model ← g.model
  let command :=
    if evaluates then .evaluate model g.observations (g.cycles.getD 1) else .check model
  return .run (g.options.over outer) command

/-- The words before the command. -/
def requestFrom : Nat → FileOptions → List String → Option Request
  | 0, _, _ => none
  | _ + 1, _, [] => none
  | fuel + 1, o, word :: rest =>
    if word = "check" then command? false o rest
    else if word = "eval" then command? true o rest
    else if word = "--version" ∨ word.toList.take 2 = ['-', 'V'] then some .version
    else do
      let (name, attached) ← splitOption? word
      let (value, rest) ← takeValue attached rest
      requestFrom fuel (← setFileOption o name value) rest

def request? (words : List String) : Option Request := requestFrom (words.length + 1) {} words

end FuzzyRules.CommandLine
