import FuzzyRules.RuleBase.Basic
import FuzzyRules.Universe.Trend

/-!
# Engines

An engine holds universes and rule bases, each under its own name, and the committed signals. A
name is taken once and for all.
-/

namespace FuzzyRules

structure EngineSettings where
  /-- Reject universes whose values have no single trend. -/
  strictMonotonic : Bool := false
  deriving DecidableEq, Repr

structure Engine (α : Type) where
  settings : EngineSettings
  universes : NameMap (Universe α)
  ruleBases : NameMap RuleBase
  state : NameMap α
  deriving DecidableEq

namespace Engine

variable {α : Type}

def new (settings : EngineSettings) : Engine α := ⟨settings, .empty, .empty, .empty⟩

def addUniverse [Scalar α] (e : Engine α) (u : Universe α) : Except (ModelFault α) (Engine α) :=
  if e.universes.contains u.name then .error (.duplicate .universeName u.name .engine)
  else
    let added := { e with universes := e.universes.insert u.name u }
    if e.settings.strictMonotonic then u.checkTrend.map fun _ => added else .ok added

def addRuleBase (e : Engine α) (rb : RuleBase) : Except (ModelFault α) (Engine α) :=
  if e.ruleBases.contains rb.name then .error (.duplicate .ruleBaseName rb.name .engine)
  else .ok { e with ruleBases := e.ruleBases.insert rb.name rb }

def setSignal (e : Engine α) (name : String) (value : α) : Engine α :=
  { e with state := e.state.insert name value }

def signal (e : Engine α) (name : String) : Except (ModelFault α) α :=
  match e.state.get? name with
  | some x => .ok x
  | none => .error (.undefined .signalName name .engineState)

end Engine

end FuzzyRules
