import FuzzyRules.Scalar
import FuzzyRules.Fault.Model

/-!
# Universes

A universe is a linguistic variable: a list of named terms, each of which fixes the output value
at one input coordinate, its center. `add` keeps the terms ascending by center; a term goes behind
those that share its center.
-/

namespace FuzzyRules

structure Term (α : Type) where
  name : String
  center : α
  value : α
  deriving DecidableEq, Repr

structure Universe (α : Type) where
  name : String
  description : Option String
  terms : List (Term α)
  deriving DecidableEq, Repr

/-- The number of leading elements that satisfy `p`, found by halving. If some element fails `p` and
a later one satisfies it, the count is that of the half that the search went into. -/
def countLeading {α : Type} (p : α → Bool) (l : List α) : Nat :=
  match l with
  | [] => 0
  | [a] => if p a then 1 else 0
  | a :: b :: rest =>
    let half := (a :: b :: rest).length / 2
    have lower : 1 ≤ half := by simp only [half, List.length_cons]; omega
    have upper : half < (a :: b :: rest).length := by
      simp only [half, List.length_cons]; omega
    if p (a :: b :: rest)[half] then half + countLeading p ((a :: b :: rest).drop half)
    else countLeading p ((a :: b :: rest).take ((a :: b :: rest).length - half))
termination_by l.length
decreasing_by
  all_goals simp_all only [List.length_drop, List.length_take]
  all_goals omega

namespace Universe

variable {α : Type}

def new (name : String) : Universe α := ⟨name, none, []⟩

def count (u : Universe α) : Nat := u.terms.length

def term? (u : Universe α) (name : String) : Option (Term α) :=
  u.terms.find? fun t => t.name = name

/-- The last of some terms that begin with `t`. -/
def lastFrom (t : Term α) : List (Term α) → Term α
  | [] => t
  | s :: rest => lastFrom s rest

/-- The first and the last center. -/
def domain? (u : Universe α) : Option (α × α) :=
  match u.terms with
  | [] => none
  | t :: rest => some (t.center, (lastFrom t rest).center)

def resolve (u : Universe α) (name : String) (scope : Scope) : Except (ModelFault α) (Term α) :=
  match u.term? name with
  | some t => .ok t
  | none => .error (.undefined .termName name (.termOf scope u.name))

def place [Scalar α] (t : Term α) (terms : List (Term α)) : List (Term α) :=
  let i := countLeading (fun s => s.center ≤ t.center) terms
  terms.take i ++ t :: terms.drop i

def add [Scalar α] (u : Universe α) (t : Term α) : Except (ModelFault α) (Universe α) :=
  if (u.term? t.name).isSome then .error (.duplicate .termName t.name (.inUniverse u.name))
  else .ok { u with terms := place t u.terms }

@[simp] theorem resolve_of_term? {u : Universe α} {name : String} {t : Term α}
    (h : u.term? name = some t) (scope : Scope) : u.resolve name scope = .ok t := by
  simp [resolve, h]

@[simp] theorem term?_new (owner name : String) :
    (new owner : Universe α).term? name = none := rfl

theorem lastFrom_eq_getLast (t : Term α) (rest : List (Term α)) :
    lastFrom t rest = (t :: rest).getLast (List.cons_ne_nil t rest) := by
  induction rest generalizing t with
  | nil => rfl
  | cons s rest ih => simp [lastFrom, ih]

theorem domain?_eq_none {u : Universe α} : u.domain? = none ↔ u.terms = [] := by
  unfold domain?; split <;> simp_all

end Universe

end FuzzyRules
