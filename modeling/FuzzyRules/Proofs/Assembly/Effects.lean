import FuzzyRules.Assembly.Basic
import FuzzyRules.Proofs.Traversal

/-!
# Effects of assembly actions

An action that is not refused opens a draft, fills in the innermost one, or closes it and adds it to
what it belongs to. What else an assembly holds stays as it is.
-/

namespace FuzzyRules

open Traversal

/-- The kind of draft that the action opens. -/
def AssemblyAction.opens? : AssemblyAction → Option DraftKind
  | .createUniverse => some .ofUniverse
  | .createTerm => some .ofTerm
  | .createRuleBase => some .ofRuleBase
  | .createRule => some .ofRule
  | .createPredicate => some .ofPredicate
  | _ => none

theorem AssemblyAction.eq_of_opens? {a b : AssemblyAction} {k : DraftKind}
    (ha : a.opens? = some k) (hb : b.opens? = some k) : a = b := by
  cases k <;> cases a <;> cases ha <;> cases b <;> cases hb <;> rfl

/-- The kind of the draft that a draft of the kind is opened in. -/
def DraftKind.parent? : DraftKind → Option DraftKind
  | .ofUniverse | .ofRuleBase => none
  | .ofTerm => some .ofUniverse
  | .ofRule => some .ofRuleBase
  | .ofPredicate => some .ofRule

namespace Draft

/-- A draft as it is opened. -/
inductive Fresh : DraftKind → Draft → Prop
  | ofUniverse : Fresh .ofUniverse (.ofUniverse (Universe.new ""))
  | ofTerm (name : String) : Fresh .ofTerm (.ofTerm ⟨name, none, none⟩)
  | ofRuleBase : Fresh .ofRuleBase (.ofRuleBase (RuleBase.new ""))
  | ofRule : Fresh .ofRule (.ofRule (Rule.new ""))
  | ofPredicate : Fresh .ofPredicate (.ofPredicate ⟨none, none⟩)

/-- A draft before and after one of its own fields is filled in. What has been added to it stays. -/
inductive Edited : Draft → Draft → Prop
  | ofUniverse (u : Universe Float) (name : String) (description : Option String) :
      Edited (.ofUniverse u) (.ofUniverse { u with name := name, description := description })
  | ofTerm (d d' : TermDraft) : Edited (.ofTerm d) (.ofTerm d')
  | ofRuleBase (rb : RuleBase) (name : String) (description : Option String) :
      Edited (.ofRuleBase rb) (.ofRuleBase { rb with name := name, description := description })
  | ofRule (r : Rule) (consequent : String) (description : Option String) :
      Edited (.ofRule r) (.ofRule { r with consequent := consequent, description := description })
  | ofPredicate (d d' : PredicateDraft) : Edited (.ofPredicate d) (.ofPredicate d')

end Draft

namespace Assembly

/-- What an action that is not refused does. -/
inductive Effect : AssemblyAction → Assembly → Assembly → Prop
  | create {a : AssemblyAction} {s : Assembly} {k : DraftKind} {draft : Draft}
      (opens : a.opens? = some k) (parent : topKind? s.drafts = k.parent?)
      (fresh : draft.Fresh k) : Effect a s { s with drafts := draft :: s.drafts }
  | set {a : AssemblyAction} {engine : Engine Float} {draft draft' : Draft} {below : List Draft}
      (opens : a.opens? = none) (closes : a.closes? = none) (edited : draft.Edited draft') :
      Effect a ⟨engine, draft :: below⟩ ⟨engine, draft' :: below⟩
  | addTerm {engine : Engine Float} {name : String} {center value : Float} {u u' : Universe Float}
      {below : List Draft} (added : u.add ⟨name, center, value⟩ = .ok u') :
      Effect .addTerm
        ⟨engine, .ofTerm ⟨name, some center, some value⟩ :: .ofUniverse u :: below⟩
        ⟨engine, .ofUniverse u' :: below⟩
  | addUniverse {engine engine' : Engine Float} {u : Universe Float} {below : List Draft}
      (named : u.name ≠ "") (added : engine.addUniverse u = .ok engine') :
      Effect .addUniverse ⟨engine, .ofUniverse u :: below⟩ ⟨engine', below⟩
  | addPredicate {engine : Engine Float} {antecedent term : String} {r r' : Rule}
      {below : List Draft}
      (added : (r.addPredicate antecedent term : Except (ModelFault Float) Rule) = .ok r') :
      Effect .addPredicate
        ⟨engine, .ofPredicate ⟨some antecedent, some term⟩ :: .ofRule r :: below⟩
        ⟨engine, .ofRule r' :: below⟩
  | addRule {engine : Engine Float} {r : Rule} {rb : RuleBase} {below : List Draft}
      (named : r.consequent ≠ "") :
      Effect .addRule ⟨engine, .ofRule r :: .ofRuleBase rb :: below⟩
        ⟨engine, .ofRuleBase (rb.addRule r) :: below⟩
  | addRuleBase {engine engine' : Engine Float} {rb : RuleBase} {below : List Draft}
      (named : rb.name ≠ "") (added : engine.addRuleBase rb = .ok engine') :
      Effect .addRuleBase ⟨engine, .ofRuleBase rb :: below⟩ ⟨engine', below⟩

variable {s s' : Assembly} {a : AssemblyAction} {t : Token}

theorem openDraft_eq_ok {parent : Option DraftKind} {draft : Draft}
    (h : s.openDraft a parent draft = .ok s') :
    topKind? s.drafts = parent ∧ s' = { s with drafts := draft :: s.drafts } := by
  unfold openDraft at h
  split at h
  · cases h
    exact ⟨by assumption, rfl⟩
  · cases h

theorem orModelFault_eq_ok_iff {β : Type} {x : Except (ModelFault Float) β} {b : β} :
    orModelFault t x = .ok b ↔ x = .ok b := by
  cases x <;> simp [orModelFault]

theorem effect_of_openDraft {k : DraftKind} {draft : Draft} (opens : a.opens? = some k)
    (fresh : draft.Fresh k) (h : s.openDraft a k.parent? draft = .ok s') : Effect a s s' := by
  obtain ⟨hparent, rfl⟩ := openDraft_eq_ok h
  exact .create opens hparent fresh

theorem effect_of_fill {β γ : Type} {slot : Slot γ} {item : Except GrammarFault β}
    {edit : β → γ → γ} (opens : a.opens? = none) (closes : a.closes? = none)
    (edited : ∀ b d, (slot.draft d).Edited (slot.draft (edit b d)))
    (h : s.fill a slot item edit = .ok s') : Effect a s s' := by
  obtain ⟨b, -, h⟩ := bind_eq_ok_iff.1 h
  obtain ⟨⟨d, below⟩, htop, h⟩ := bind_eq_ok_iff.1 h
  obtain ⟨engine, drafts⟩ := s
  obtain rfl := Slot.eq_of_top htop
  cases h
  exact .set opens closes (edited b d)

theorem effect_of_addTerm (h : s.addTerm t = .ok s') : Effect .addTerm s s' := by
  obtain ⟨engine, drafts⟩ := s
  obtain ⟨⟨⟨name, center, value⟩, below⟩, htop, h⟩ := bind_eq_ok_iff.1 h
  obtain rfl := Slot.eq_of_top htop
  cases center with
  | none => cases h
  | some center =>
    cases value with
    | none => cases h
    | some value =>
      obtain ⟨⟨u, rest⟩, htop, h⟩ := bind_eq_ok_iff.1 h
      obtain rfl := Slot.eq_of_top htop
      obtain ⟨u', hadd, h⟩ := bind_eq_ok_iff.1 h
      cases h
      exact .addTerm (orModelFault_eq_ok_iff.1 hadd)

theorem effect_of_addPredicate (h : s.addPredicate t = .ok s') : Effect .addPredicate s s' := by
  obtain ⟨engine, drafts⟩ := s
  obtain ⟨⟨⟨antecedent, term⟩, below⟩, htop, h⟩ := bind_eq_ok_iff.1 h
  obtain rfl := Slot.eq_of_top htop
  cases antecedent with
  | none => cases h
  | some antecedent =>
    cases term with
    | none => cases h
    | some term =>
      obtain ⟨⟨r, rest⟩, htop, h⟩ := bind_eq_ok_iff.1 h
      obtain rfl := Slot.eq_of_top htop
      obtain ⟨r', hadd, h⟩ := bind_eq_ok_iff.1 h
      cases h
      exact .addPredicate (orModelFault_eq_ok_iff.1 hadd)

theorem effect_of_addUniverse (h : s.addUniverse t = .ok s') : Effect .addUniverse s s' := by
  obtain ⟨engine, drafts⟩ := s
  obtain ⟨⟨u, below⟩, htop, h⟩ := bind_eq_ok_iff.1 h
  obtain rfl := Slot.eq_of_top htop
  dsimp only at h
  split at h
  · cases h
  · obtain ⟨engine', hadd, h⟩ := bind_eq_ok_iff.1 h
    cases h
    exact .addUniverse (by assumption) (orModelFault_eq_ok_iff.1 hadd)

theorem effect_of_addRule (h : s.addRule t = .ok s') : Effect .addRule s s' := by
  obtain ⟨engine, drafts⟩ := s
  obtain ⟨⟨r, below⟩, htop, h⟩ := bind_eq_ok_iff.1 h
  obtain rfl := Slot.eq_of_top htop
  dsimp only at h
  split at h
  · cases h
  · obtain ⟨⟨rb, rest⟩, htop, h⟩ := bind_eq_ok_iff.1 h
    obtain rfl := Slot.eq_of_top htop
    cases h
    exact .addRule (by assumption)

theorem effect_of_addRuleBase (h : s.addRuleBase t = .ok s') : Effect .addRuleBase s s' := by
  obtain ⟨engine, drafts⟩ := s
  obtain ⟨⟨rb, below⟩, htop, h⟩ := bind_eq_ok_iff.1 h
  obtain rfl := Slot.eq_of_top htop
  dsimp only at h
  split at h
  · cases h
  · obtain ⟨engine', hadd, h⟩ := bind_eq_ok_iff.1 h
    cases h
    exact .addRuleBase (by assumption) (orModelFault_eq_ok_iff.1 hadd)

theorem effect_of_attempt (h : s.attempt a t = .ok s') : Effect a s s' := by
  unfold attempt at h
  cases a with
  | createUniverse => exact effect_of_openDraft rfl .ofUniverse h
  | createTerm =>
    obtain ⟨name, -, h⟩ := bind_eq_ok_iff.1 h
    exact effect_of_openDraft rfl (.ofTerm name) h
  | createRuleBase => exact effect_of_openDraft rfl .ofRuleBase h
  | createRule => exact effect_of_openDraft rfl .ofRule h
  | createPredicate => exact effect_of_openDraft rfl .ofPredicate h
  | setUniverseName => exact effect_of_fill rfl rfl (fun name u => .ofUniverse u name _) h
  | setUniverseDescription =>
    exact effect_of_fill rfl rfl (fun text u => .ofUniverse u _ (some text)) h
  | setCenter =>
    exact effect_of_fill rfl rfl (fun center d => .ofTerm d { d with center := some center }) h
  | setValue =>
    exact effect_of_fill rfl rfl (fun value d => .ofTerm d { d with value := some value }) h
  | setRuleBaseName => exact effect_of_fill rfl rfl (fun name rb => .ofRuleBase rb name _) h
  | setRuleBaseDescription =>
    exact effect_of_fill rfl rfl (fun text rb => .ofRuleBase rb _ (some text)) h
  | setRuleDescription => exact effect_of_fill rfl rfl (fun text r => .ofRule r _ (some text)) h
  | setConsequence => exact effect_of_fill rfl rfl (fun name r => .ofRule r name _) h
  | setPredicateName =>
    exact effect_of_fill rfl rfl
      (fun antecedent d => .ofPredicate d { d with antecedent := some antecedent }) h
  | setPredicateValue =>
    exact effect_of_fill rfl rfl (fun term d => .ofPredicate d { d with term := some term }) h
  | addTerm => exact effect_of_addTerm h
  | addUniverse => exact effect_of_addUniverse h
  | addPredicate => exact effect_of_addPredicate h
  | addRule => exact effect_of_addRule h
  | addRuleBase => exact effect_of_addRuleBase h

end Assembly

end FuzzyRules
