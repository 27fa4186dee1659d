import FuzzyRules.Automaton.Description
import FuzzyRules.Fault.Grammar

/-!
# Transition tables

A table is a description with every class, action and state name resolved. The states stand in
name order. Resolution reports the first flaw: the reserved name, then the start state, then the
transitions in order, of each the class before the actions before the next state.
-/

namespace FuzzyRules

/-- Classes that items of type `ι` fall into. -/
class ItemClass (κ : Type) (ι : outParam Type) where
  ofName? : String → Option κ
  admits : κ → ι → Bool

/-- Actions that a description can name. -/
class NamedAction (A : Type) where
  ofName? : String → Option A

inductive Next (size : Nat) where
  | state (index : Fin size)
  | accept
  deriving DecidableEq, Repr

structure Transition (κ A : Type) (size : Nat) where
  itemClass : κ
  actions : List A
  next : Next size
  consumes : Bool
  deriving DecidableEq, Repr

structure TableRow (κ A : Type) (size : Nat) where
  name : String
  transitions : List (Transition κ A size)
  deriving DecidableEq, Repr

structure Table (κ A : Type) where
  name : String
  size : Nat
  start : Fin size
  rows : List (TableRow κ A size)
  rows_length : rows.length = size

namespace Table

variable {κ A : Type}

def row (t : Table κ A) (i : Fin t.size) : TableRow κ A t.size :=
  t.rows.get (i.cast t.rows_length.symm)

end Table

namespace Description

variable {κ A ι : Type} [ItemClass κ ι] [NamedAction A]

/-- Applies `f` to every element, up to the first error. -/
def resolveAll {α β ε : Type} (f : α → Except ε β) :
    (l : List α) → Except ε { r : List β // r.length = l.length }
  | [] => .ok ⟨[], rfl⟩
  | a :: rest =>
    match f a with
    | .error e => .error e
    | .ok b =>
      match resolveAll f rest with
      | .error e => .error e
      | .ok ⟨bs, h⟩ => .ok ⟨b :: bs, by simp [h]⟩

def resolveClass (grammar state className : String) : Except GrammarFault κ :=
  match ItemClass.ofName? className with
  | some c => .ok c
  | none => .error (.invalid grammar (.unknownClass state className))

def resolveAction (grammar name : String) : Except GrammarFault A :=
  match NamedAction.ofName? name with
  | some a => .ok a
  | none => .error (.unknownAction grammar name)

def resolveNext (grammar state : String) (names : List String) (next : String) :
    Except GrammarFault (Next names.length) :=
  if next = acceptName then .ok .accept
  else
    match names.finIdxOf? next with
    | some i => .ok (.state i)
    | none => .error (.invalid grammar (.unknownNext state next))

def resolveTransition (grammar state : String) (names : List String) (t : TransitionText) :
    Except GrammarFault (Transition κ A names.length) := do
  let itemClass ← resolveClass grammar state t.className
  let actions ← t.actions.mapM (resolveAction grammar)
  let next ← resolveNext grammar state names t.next
  return ⟨itemClass, actions, next, t.consumes⟩

def resolveRow (grammar : String) (names : List String) (s : String × List TransitionText) :
    Except GrammarFault (TableRow κ A names.length) :=
  (s.2.mapM (resolveTransition grammar s.1 names)).map (TableRow.mk s.1)

def resolve (d : Description) : Except GrammarFault (Table κ A) :=
  if d.states.contains acceptName then .error (.invalid d.name .reservedState)
  else
    match d.states.keys.finIdxOf? d.start with
    | none => .error (.invalid d.name (.undefinedStart d.start))
    | some start =>
      (resolveAll (resolveRow d.name d.states.keys) d.states.entries).map fun rows =>
        { name := d.name
          size := d.states.keys.length
          start := start
          rows := rows.1
          rows_length := rows.2.trans (List.length_map _).symm }

end Description

end FuzzyRules
