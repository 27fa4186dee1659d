import FuzzyRules.Automaton.Table
import FuzzyRules.Proofs.NameMap.Overlay
import FuzzyRules.Proofs.Traversal
import Mathlib.Tactic.MkIffOfInductiveProp

/-!
# Objections to a description

All that is wrong with a description, in the order in which it is looked for: the reserved name, the
start state, and then the transitions of the states in name order, of each the class before the
actions before the next state. Resolution fails with the first objection, and it succeeds if there
is none.
-/

namespace FuzzyRules

open Traversal

variable (κ A : Type) {ι : Type} [ItemClass κ ι] [NamedAction A]

namespace TransitionText

/-- The objections to a transition of a state, if states of the given names are defined. -/
def objections (grammar state : String) (names : List String) (t : TransitionText) :
    List GrammarFault :=
  (if (ItemClass.ofName? t.className : Option κ).isSome then []
    else [.invalid grammar (.unknownClass state t.className)]) ++
  (t.actions.flatMap fun a => if (NamedAction.ofName? a : Option A).isSome then []
    else [.unknownAction grammar a]) ++
  if t.next = Description.acceptName ∨ t.next ∈ names then []
    else [.invalid grammar (.unknownNext state t.next)]

/-- Everything that the transition names is known. -/
@[mk_iff]
structure Known (names : List String) (t : TransitionText) : Prop where
  itemClass : (ItemClass.ofName? t.className : Option κ).isSome
  actions : ∀ a ∈ t.actions, (NamedAction.ofName? a : Option A).isSome
  next : t.next = Description.acceptName ∨ t.next ∈ names

theorem objections_eq_nil_iff {grammar state : String} {names : List String}
    {t : TransitionText} : t.objections κ A grammar state names = [] ↔ t.Known κ A names := by
  rw [known_iff, objections]
  simp only [List.append_eq_nil_iff, List.flatMap_eq_nil_iff, and_assoc, ite_eq_left_iff,
    List.cons_ne_nil, imp_false, not_not]

end TransitionText

namespace Description

def objections (d : Description) : List GrammarFault :=
  (if acceptName ∈ d.states.keys then [.invalid d.name .reservedState] else []) ++
  (if d.start ∈ d.states.keys then [] else [.invalid d.name (.undefinedStart d.start)]) ++
  d.states.entries.flatMap fun s => s.2.flatMap (·.objections κ A d.name s.1 d.states.keys)

/-- No state bears the reserved name, and everything that the description names is known. -/
@[mk_iff]
structure Resolvable (d : Description) : Prop where
  reserved : acceptName ∉ d.states.keys
  start : d.start ∈ d.states.keys
  known : ∀ s ∈ d.states.entries, ∀ t ∈ s.2, t.Known κ A d.states.keys

theorem objections_eq_nil_iff {d : Description} :
    d.objections κ A = [] ↔ d.Resolvable κ A := by
  rw [resolvable_iff, objections]
  simp only [List.append_eq_nil_iff, List.flatMap_eq_nil_iff,
    TransitionText.objections_eq_nil_iff, and_assoc]
  simp

variable {κ A}

theorem heeds_resolveClass (grammar state className : String) :
    Heeds (resolveClass grammar state className : Except GrammarFault κ)
      (if (ItemClass.ofName? className : Option κ).isSome then []
        else [.invalid grammar (.unknownClass state className)]) := by
  unfold resolveClass
  cases (ItemClass.ofName? className : Option κ) with
  | none => exact heeds_error _ _
  | some c => exact heeds_ok c

theorem heeds_resolveAction (grammar name : String) :
    Heeds (resolveAction grammar name : Except GrammarFault A)
      (if (NamedAction.ofName? name : Option A).isSome then []
        else [.unknownAction grammar name]) := by
  unfold resolveAction
  cases (NamedAction.ofName? name : Option A) with
  | none => exact heeds_error _ _
  | some a => exact heeds_ok a

theorem heeds_resolveNext (grammar state : String) (names : List String) (next : String) :
    Heeds (resolveNext grammar state names next)
      (if next = acceptName ∨ next ∈ names then []
        else [.invalid grammar (.unknownNext state next)]) := by
  unfold resolveNext
  by_cases haccept : next = acceptName
  · rw [if_pos haccept, if_pos (.inl haccept)]
    exact heeds_ok _
  · rw [if_neg haccept]
    cases hindex : names.finIdxOf? next with
    | none =>
      rw [List.finIdxOf?_eq_none_iff] at hindex
      rw [if_neg (not_or.2 ⟨haccept, hindex⟩)]
      exact heeds_error _ _
    | some i =>
      have hmem : next ∈ names := (List.finIdxOf?_eq_some_iff.1 hindex).1 ▸ List.getElem_mem _
      rw [if_pos (.inr hmem)]
      exact heeds_ok _

theorem heeds_resolveTransition (grammar state : String) (names : List String)
    (t : TransitionText) :
    Heeds (resolveTransition grammar state names t :
      Except GrammarFault (Transition κ A names.length))
      (t.objections κ A grammar state names) := by
  rw [TransitionText.objections, List.append_assoc]
  refine (heeds_resolveClass grammar state t.className).bind fun c _ => ?_
  refine (heeds_mapM fun a _ => heeds_resolveAction grammar a).bind fun actions _ => ?_
  exact heeds_map_iff.2 (heeds_resolveNext grammar state names t.next)

theorem resolveAll_eq_mapM {α β ε : Type} (f : α → Except ε β) (l : List α) :
    (resolveAll f l).map Subtype.val = l.mapM f := by
  induction l with
  | nil => rfl
  | cons a rest ih =>
    rw [resolveAll]
    cases hfa : f a with
    | error e => exact (mapM_cons_error hfa rest).symm
    | ok b =>
      rw [mapM_cons_ok hfa, ← ih]
      rcases resolveAll f rest with e | ⟨bs, h⟩ <;> rfl

theorem heeds_resolveAll {α β ε : Type} {f : α → Except ε β} {objections : α → List ε}
    {l : List α} (h : ∀ a ∈ l, Heeds (f a) (objections a)) :
    Heeds (resolveAll f l) (l.flatMap objections) := by
  rw [← heeds_map_iff (g := Subtype.val), resolveAll_eq_mapM]
  exact heeds_mapM h

theorem heeds_resolveRow (grammar : String) (names : List String)
    (s : String × List TransitionText) :
    Heeds (resolveRow grammar names s : Except GrammarFault (TableRow κ A names.length))
      (s.2.flatMap (·.objections κ A grammar s.1 names)) :=
  heeds_map_iff.2 (heeds_mapM fun t _ => heeds_resolveTransition grammar s.1 names t)

/-- A description is refused with the first objection to it. -/
theorem heeds_resolve (d : Description) :
    Heeds (d.resolve : Except GrammarFault (Table κ A)) (d.objections κ A) := by
  rw [resolve, objections]
  by_cases hreserved : acceptName ∈ d.states.keys
  · rw [if_pos (NameMap.contains_iff_mem_keys.2 hreserved), if_pos hreserved]
    exact heeds_error _ _
  · rw [if_neg (NameMap.contains_iff_mem_keys.not.2 hreserved), if_neg hreserved]
    cases hstart : d.states.keys.finIdxOf? d.start with
    | none =>
      rw [if_neg (List.finIdxOf?_eq_none_iff.1 hstart)]
      exact heeds_error _ _
    | some start =>
      have hmem : d.start ∈ d.states.keys :=
        (List.finIdxOf?_eq_some_iff.1 hstart).1 ▸ List.getElem_mem _
      rw [if_pos hmem]
      refine heeds_map_iff.2 (heeds_resolveAll fun s _ => ?_)
      exact heeds_resolveRow d.name d.states.keys s

end Description

end FuzzyRules
