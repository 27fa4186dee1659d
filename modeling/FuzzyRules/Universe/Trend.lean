import FuzzyRules.Universe.Basic

/-!
# Trend

The values of a universe in center order have one trend if they never fall or never rise.
-/

namespace FuzzyRules.Universe

variable {α : Type} [Scalar α]

def trendFrom (owner : String) (rising falling : Bool) : List (Term α) → Except (ModelFault α) Unit
  | a :: b :: rest =>
    let rising := rising || decide (a.value < b.value)
    let falling := falling || decide (b.value < a.value)
    if rising && falling then .error (.nonMonotonic owner b.name)
    else trendFrom owner rising falling (b :: rest)
  | _ => .ok ()

/-- Names the first term by which both a rise and a fall have been seen. -/
def checkTrend (u : Universe α) : Except (ModelFault α) Unit :=
  trendFrom u.name false false u.terms

@[simp] theorem checkTrend_new (name : String) : (new name : Universe α).checkTrend = .ok () := rfl

end FuzzyRules.Universe
