import FuzzyRules.Universe.Basic

/-!
# Interpolation

A universe maps an input coordinate to an output value: at a center it is the value of the term,
between two centers it is linear, and outside the outermost centers there is none. A universe with
one term is constant. The separation of two coordinates is measured on their output values.
-/

namespace FuzzyRules.Universe

variable {α : Type} [Scalar α]

/-- The line through two terms. -/
def line (a b : Term α) (x : α) : α :=
  a.value + (b.value - a.value) * (x - a.center) / (b.center - a.center)

/-- The value that all of `hits` share. -/
def agreed (owner : String) (x : α) (hit : Term α) (others : List (Term α)) :
    Except (ModelFault α) α :=
  match others.find? fun t => t.value != hit.value with
  | some other => .error (.degenerate owner x hit.value other.value)
  | none => .ok hit.value

/-- The last term below `x` and the first one that is not. -/
def neighbours? (terms : List (Term α)) (x : α) : Option (Term α × Term α) :=
  let i := countLeading (fun t => t.center < x) terms
  match (terms.take i).getLast?, (terms.drop i).head? with
  | some a, some b => some (a, b)
  | _, _ => none

def valueWithin (owner : String) (terms : List (Term α)) (low high x : α) :
    Except (ModelFault α) α :=
  if low ≤ x ∧ x ≤ high then
    match terms.filter fun t => t.center == x with
    | hit :: others => agreed owner x hit others
    | [] =>
      match neighbours? terms x with
      | some (a, b) => .ok (line a b x)
      | none => .error (.outOfDomain owner x low high)
  else .error (.outOfDomain owner x low high)

def valueAt (u : Universe α) (x : α) : Except (ModelFault α) α :=
  match u.terms with
  | [] => .error (.emptyUniverse u.name)
  | [t] => .ok t.value
  | t :: s :: rest =>
    valueWithin u.name (t :: s :: rest) t.center (lastFrom s rest).center x

/-- The value at the larger coordinate is computed first. -/
def separation (u : Universe α) (a b : α) : Except (ModelFault α) α :=
  let (low, high) := if a ≤ b then (a, b) else (b, a)
  match u.valueAt high with
  | .error e => .error e
  | .ok top =>
    match u.valueAt low with
    | .error e => .error e
    | .ok bottom => .ok (top - bottom)

@[simp] theorem valueAt_nil (name : String) (description : Option String) (x : α) :
    (Universe.mk name description []).valueAt x = .error (.emptyUniverse name) := rfl

@[simp] theorem valueAt_singleton (name : String) (description : Option String) (t : Term α)
    (x : α) : (Universe.mk name description [t]).valueAt x = .ok t.value := rfl

end FuzzyRules.Universe
