import FuzzyRules.Fault.Grammar
import FuzzyRules.Files.Tree

/-!
# Faults of files, and all faults together

A file can be unreadable, and a settings file can be no settings. `Failure` is any fault that a
run can end with; a dialect that loops forever on a text is one of them.
-/

namespace FuzzyRules

inductive SettingsFault where
  | unreadable (path : String) (reason : ReadFault)
  | malformed (path : String)
  deriving DecidableEq, Repr

namespace SettingsFault

def code : SettingsFault → String
  | .unreadable .. => "fribe::config::io"
  | .malformed _ => "fribe::config::parse"

/-- Malformed settings have no message of their own. -/
def message? : SettingsFault → Option String
  | .unreadable path reason => some s!"cannot read {path}: {reason.text}"
  | .malformed _ => none

def help : SettingsFault → String
  | .unreadable .. => "Check that the file exists and is readable."
  | .malformed _ => "The configuration is TOML with optional [engine] and [grammars] tables."

end SettingsFault

inductive Failure where
  | settings (fault : SettingsFault)
  | grammar (fault : GrammarFault)
  | model (fault : ModelFault Float)
  | endless
  deriving DecidableEq, Repr

end FuzzyRules
