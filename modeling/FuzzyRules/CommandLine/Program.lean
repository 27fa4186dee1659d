import FuzzyRules.CommandLine.Arguments
import FuzzyRules.Compilation.Load
import FuzzyRules.Engine.Cycle
import FuzzyRules.Signals.Json
import FuzzyRules.Text.Quoted

/-!
# The program

The program checks a model and lists what it defines, or runs evaluation cycles and prints the
committed signals. It ends with status 0, with 1 if the model, its settings or a cycle fails, and
with 2 if the command line is no request. What it prints is printed only if nothing fails.
-/

namespace FuzzyRules.CommandLine

structure Ending where
  status : Nat
  output : String
  failure : Option Failure
  deriving DecidableEq, Repr

namespace Ending

def printed (output : String) : Ending := ⟨0, output, none⟩

def failed (failure : Failure) : Ending := ⟨1, "", some failure⟩

def misused : Ending := ⟨2, "", none⟩

def of : Except Failure String → Ending
  | .ok output => printed output
  | .error failure => failed failure

end Ending

def universeLine (u : Universe Float) : String :=
  let write := Decimal.Layout.plain.render
  let (low, high) := u.domain?.getD (0 / 0, 0 / 0)
  s!"  universe {Text.quoted u.name}: {u.count} terms, domain [{write low}, {write high}]\n"

def ruleBaseLine (rb : RuleBase) : String :=
  s!"  rulebase {Text.quoted rb.name}: {rb.rules.length} rules\n"

def listing (path : String) (e : Engine Float) : String :=
  s!"{path}: ok\n" ++ String.join (e.universes.values.map universeLine) ++
    String.join (e.ruleBases.values.map ruleBaseLine)

def evaluated (observations : List (String × Float)) (n : Nat) (e : Engine Float) :
    Except Failure String :=
  match e.cycles (.ofList observations) n with
  | .error fault => .error (.model fault)
  | .ok final => .ok (Signals.writeLines final.state ++ "\n")

variable {m : Type → Type} [Monad m]

/-- The settings of a run: grammar paths on the command line come before those in the file. -/
def settingsOf (fetch : TextSource m) (o : FileOptions) : m (Except Failure Settings) := do
  let override (s : Settings) : Settings :=
    { s with grammars := ⟨o.words.or s.grammars.words, o.phrases.or s.grammars.phrases⟩ }
  match o.settings with
  | none => return .ok (override {})
  | some path => return ((← Settings.load fetch path).mapError .settings).map override

def perform (fetch : TextSource m) (o : FileOptions) (c : Command) :
    m (Except Failure String) := do
  match ← settingsOf fetch o with
  | .error failure => return .error failure
  | .ok settings =>
    match c with
    | .check model => return (← loadModel fetch model settings).map (listing model)
    | .evaluate model observations n =>
      return (← loadModel fetch model settings).bind (evaluated observations n)

def run (fetch : TextSource m) (words : List String) : m Ending := do
  match request? words with
  | none => return .misused
  | some .version => return .printed "fribe 0.1.0\n"
  | some (.run o c) => return .of (← perform fetch o c)

end FuzzyRules.CommandLine
