import FuzzyRules.Compilation.Basic
import FuzzyRules.Dialect.Reader
import FuzzyRules.Settings.Basic

/-!
# Loading models

A model file is read before the files of written grammars, and all of them before any is looked
into.
-/

namespace FuzzyRules

/-- Compiles a text with written descriptions in place of the built-in ones. -/
def compileWith (words phrases : Option String) (settings : EngineSettings) (source : String) :
    Except Failure (Engine Float) :=
  match Dialect.ofSources words phrases with
  | .error fault => .error (.grammar fault)
  | .ok dialect =>
    match dialect.compile settings source with
    | none => .error .endless
    | some outcome => outcome.mapError .grammar

section Files

variable {m : Type → Type} [Monad m]

def readText (fetch : TextSource m) (path : String) : m (Except Failure String) := do
  return (← fetch path).mapError fun reason => .settings (.unreadable path reason)

def readOptional (fetch : TextSource m) : Option String → m (Except Failure (Option String))
  | none => return .ok none
  | some path => return (← readText fetch path).map some

def loadModel (fetch : TextSource m) (path : String) (settings : Settings) :
    m (Except Failure (Engine Float)) := do
  match ← readText fetch path with
  | .error failure => return .error failure
  | .ok source =>
    match ← readOptional fetch settings.grammars.words with
    | .error failure => return .error failure
    | .ok words =>
      match ← readOptional fetch settings.grammars.phrases with
      | .error failure => return .error failure
      | .ok phrases => return compileWith words phrases settings.engine source

end Files

end FuzzyRules
