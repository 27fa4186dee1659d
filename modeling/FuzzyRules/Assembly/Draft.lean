import FuzzyRules.Assembly.Action
import FuzzyRules.Engine.Basic

/-!
# Drafts

What is open while a model is put together, one draft inside the other. The drafts of one kind are a
slot: it says how their entity is seen and how it is put back.
-/

namespace FuzzyRules

structure TermDraft where
  name : String
  center : Option Float
  value : Option Float
  deriving DecidableEq

structure PredicateDraft where
  antecedent : Option String
  term : Option String
  deriving DecidableEq

inductive Draft where
  | ofUniverse (u : Universe Float)
  | ofTerm (d : TermDraft)
  | ofRuleBase (rb : RuleBase)
  | ofRule (r : Rule)
  | ofPredicate (d : PredicateDraft)
  deriving DecidableEq

def Draft.kind : Draft → DraftKind
  | .ofUniverse _ => .ofUniverse
  | .ofTerm _ => .ofTerm
  | .ofRuleBase _ => .ofRuleBase
  | .ofRule _ => .ofRule
  | .ofPredicate _ => .ofPredicate

/-- The kind of the innermost draft. -/
def topKind? (drafts : List Draft) : Option DraftKind := drafts.head?.map Draft.kind

/-- The drafts of one kind, with the entity that stands in them. -/
structure Slot (β : Type) where
  kind : DraftKind
  draft : β → Draft
  entity? : Draft → Option β
  entity?_eq_some_iff : ∀ {d : Draft} {b : β}, entity? d = some b ↔ d = draft b := by
    intro d b
    cases d <;> simp
  exists_draft : ∀ {d : Draft}, d.kind = kind → ∃ b, d = draft b := by
    intro d h
    cases d <;> cases h
    exact ⟨_, rfl⟩

namespace Slot

def ofUniverse : Slot (Universe Float) where
  kind := .ofUniverse
  draft := .ofUniverse
  entity?
    | .ofUniverse u => some u
    | _ => none

def ofTerm : Slot TermDraft where
  kind := .ofTerm
  draft := .ofTerm
  entity?
    | .ofTerm d => some d
    | _ => none

def ofRuleBase : Slot RuleBase where
  kind := .ofRuleBase
  draft := .ofRuleBase
  entity?
    | .ofRuleBase rb => some rb
    | _ => none

def ofRule : Slot Rule where
  kind := .ofRule
  draft := .ofRule
  entity?
    | .ofRule r => some r
    | _ => none

def ofPredicate : Slot PredicateDraft where
  kind := .ofPredicate
  draft := .ofPredicate
  entity?
    | .ofPredicate d => some d
    | _ => none

variable {β : Type} (slot : Slot β) (a : AssemblyAction)

/-- The entity in the innermost draft, and the drafts below it. -/
def top (drafts : List Draft) : Except GrammarFault (β × List Draft) :=
  match drafts.head?.bind slot.entity? with
  | some b => .ok (b, drafts.tail)
  | none => .error (.misplaced a.name (some slot.kind) (topKind? drafts))

@[simp]
theorem top_draft (b : β) (below : List Draft) :
    slot.top a (slot.draft b :: below) = .ok (b, below) := by
  have hentity : slot.entity? (slot.draft b) = some b := slot.entity?_eq_some_iff.2 rfl
  simp only [top, List.head?_cons, Option.bind_some, hentity, List.tail_cons]

variable {slot a}

theorem eq_of_top {drafts below : List Draft} {b : β} (h : slot.top a drafts = .ok (b, below)) :
    drafts = slot.draft b :: below := by
  cases drafts with
  | nil => cases h
  | cons d rest =>
    cases hd : slot.entity? d with
    | none => simp [top, hd] at h
    | some b' =>
      obtain rfl := slot.entity?_eq_some_iff.1 hd
      rw [top_draft] at h
      cases h
      rfl

theorem exists_top {drafts : List Draft} (h : topKind? drafts = some slot.kind) :
    ∃ b below, slot.top a drafts = .ok (b, below) := by
  cases drafts with
  | nil => cases h
  | cons d below =>
    obtain ⟨b, rfl⟩ := slot.exists_draft (Option.some.inj h)
    exact ⟨b, below, slot.top_draft a b below⟩

theorem top_ne_violation {drafts : List Draft} {grammar state : String} {seen : Excerpt}
    {line : Nat} : slot.top a drafts ≠ .error (.violation grammar state seen line) := by
  rw [top]
  split <;> nofun

end Slot

end FuzzyRules
