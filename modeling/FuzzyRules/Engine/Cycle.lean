import FuzzyRules.Engine.Basic
import FuzzyRules.RuleBase.Inference

/-!
# Cycles

A cycle evaluates every rule base against the committed signals with the observations laid over
them. The outcomes are committed together, and only if no rule base fails.
-/

namespace FuzzyRules.Engine

variable {α : Type} [Scalar α]

/-- The consequence of every rule base, in name order. -/
def consequences (e : Engine α) (inputs : NameMap α) :
    Except (ModelFault α) (List (String × α)) :=
  e.ruleBases.entries.mapM fun b => (b.2.consequence e.universes inputs).map fun x => (b.1, x)

def cycle (e : Engine α) (observations : NameMap α) : Except (ModelFault α) (Engine α) :=
  (e.consequences (e.state.overlay observations)).map fun outcomes =>
    { e with state := e.state.overlay (.ofList outcomes) }

def cycles (observations : NameMap α) : Nat → Engine α → Except (ModelFault α) (Engine α)
  | 0, e => .ok e
  | n + 1, e =>
    match e.cycle observations with
    | .error fault => .error fault
    | .ok next => cycles observations n next

end FuzzyRules.Engine
