import FuzzyRules.Automaton.Table

/-!
# Runs of a table

A run stands in a state and takes items one at a time. It follows the first transition whose class
admits the item and hands the actions of that transition to an operator. A transition need not
consume the item; after more such transitions in a row than the table has states the run is
stalled.
-/

namespace FuzzyRules

class HasExcerpt (ι : Type) where
  excerpt : ι → Excerpt

/-- Carries out an action on the operator's state, which it may change even if it refuses. -/
abbrev Operator (A ι σ ε : Type) := A → ι → σ → σ × Except ε Unit

inductive StepFault (ε : Type) where
  | violation (grammar state : String) (seen : Excerpt) (line : Nat)
  | refused (reason : ε)
  | stalled (grammar state : String)
  deriving DecidableEq, Repr

def GrammarFault.ofStep : StepFault GrammarFault → GrammarFault
  | .violation grammar state seen line => .violation grammar state seen line
  | .refused reason => reason
  | .stalled grammar state => .stalled grammar state

structure Transit where
  consumed : Bool
  accepted : Bool
  deriving DecidableEq, Repr

structure Run {κ A : Type} (t : Table κ A) where
  state : Fin t.size
  accepted : Bool
  /-- Steps since an item was last consumed. -/
  idle : Nat
  deriving DecidableEq, Repr

/-- A run and its operator after a step, and what came of the step. -/
structure Stepped {κ A : Type} (t : Table κ A) (σ ε : Type) where
  run : Run t
  operator : σ
  result : Except (StepFault ε) Transit

namespace Run

variable {κ A ι σ ε : Type} {t : Table κ A}

def start (t : Table κ A) : Run t := ⟨t.start, false, 0⟩

def stateName (r : Run t) : String := (t.row r.state).name

/-- Runs the actions in order, up to the first that is refused. -/
def perform (operate : Operator A ι σ ε) (item : ι) : List A → σ → σ × Except ε Unit
  | [], s => (s, .ok ())
  | a :: rest, s =>
    match operate a item s with
    | (s', .ok ()) => perform operate item rest s'
    | (s', .error e) => (s', .error e)

def enabled? [ItemClass κ ι] (r : Run t) (item : ι) : Option (Transition κ A t.size) :=
  (t.row r.state).transitions.find? fun tr => ItemClass.admits tr.itemClass item

def moveTo (r : Run t) (idle : Nat) : Next t.size → Run t
  | .state i => ⟨i, r.accepted, idle⟩
  | .accept => ⟨r.state, true, idle⟩

def step [ItemClass κ ι] [HasExcerpt ι] (operate : Operator A ι σ ε) (r : Run t) (item : ι)
    (line : Nat) (s : σ) : Stepped t σ ε :=
  if r.accepted then ⟨r, s, .ok ⟨false, true⟩⟩
  else
    match r.enabled? item with
    | none =>
      ⟨r, s, .error (.violation t.name r.stateName (HasExcerpt.excerpt item) line)⟩
    | some tr =>
      match perform operate item tr.actions s with
      | (s', .error e) => ⟨r, s', .error (.refused e)⟩
      | (s', .ok ()) =>
        let idle := if tr.consumes then 0 else r.idle + 1
        if t.size < idle then ⟨{ r with idle := idle }, s', .error (.stalled t.name r.stateName)⟩
        else
          let next := r.moveTo idle tr.next
          ⟨next, s', .ok ⟨tr.consumes, next.accepted⟩⟩

@[simp] theorem perform_nil (operate : Operator A ι σ ε) (item : ι) (s : σ) :
    perform operate item [] s = (s, .ok ()) := rfl

theorem step_of_accepted [ItemClass κ ι] [HasExcerpt ι] {operate : Operator A ι σ ε} {r : Run t}
    {item : ι} {line : Nat} {s : σ} (h : r.accepted = true) :
    r.step operate item line s = ⟨r, s, .ok ⟨false, true⟩⟩ := by simp [step, h]

end Run

end FuzzyRules
