import FuzzyRules.Engine.Basic
import FuzzyRules.Fault.Settings
import FuzzyRules.Toml.Document
import FuzzyRules.Toml.Fields

/-!
# Settings

Settings are those of the engine and the paths of grammar descriptions that take the place of the
built-in ones. They are written in TOML with everything optional. Relative paths in a settings
file are meant from the directory of the file.
-/

namespace FuzzyRules

structure GrammarPaths where
  words : Option String := none
  phrases : Option String := none
  deriving DecidableEq, Repr

structure Settings where
  engine : EngineSettings := {}
  grammars : GrammarPaths := {}
  deriving DecidableEq, Repr

open Toml

def EngineSettings.ofNode? (node : Node) : Option EngineSettings := do
  let [strict] ← node.fields? ["strict_monotonic"] | none
  return ⟨← Node.optional false Node.boolean? strict⟩

def GrammarPaths.ofNode? (node : Node) : Option GrammarPaths := do
  let [words, phrases] ← node.fields? ["lexer", "parser"] | none
  let path := Node.optional none fun n => n.text?.map some
  return ⟨← path words, ← path phrases⟩

namespace Settings

def ofNode? (node : Node) : Option Settings := do
  let [engine, grammars] ← node.fields? ["engine", "grammars"] | none
  let engine ← Node.optional {} EngineSettings.ofNode? engine
  let grammars ← Node.optional {} GrammarPaths.ofNode? grammars
  return ⟨engine, grammars⟩

/-- Reads settings from the text of a document; `origin` names it in a fault. -/
def read (source origin : String) : Except SettingsFault Settings :=
  match (document? source).bind ofNode? with
  | some s => .ok s
  | none => .error (.malformed origin)

/-- The settings with their grammar paths meant from a directory. -/
def within (dir : String) (s : Settings) : Settings :=
  { s with grammars :=
    ⟨s.grammars.words.map (Path.join dir), s.grammars.phrases.map (Path.join dir)⟩ }

variable {m : Type → Type} [Monad m]

def load (fetch : TextSource m) (path : String) : m (Except SettingsFault Settings) := do
  match ← fetch path with
  | .error reason => return .error (.unreadable path reason)
  | .ok source =>
    return (read source path).map fun s =>
      match Path.parent? path with
      | some dir => s.within dir
      | none => s

end Settings

end FuzzyRules
