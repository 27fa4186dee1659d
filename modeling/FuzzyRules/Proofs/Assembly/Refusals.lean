import FuzzyRules.Assembly.Basic
import FuzzyRules.Proofs.Automaton.Steps
import FuzzyRules.Proofs.Traversal

/-!
# Refusals of an assembly

An assembly refuses an action because its token or the innermost draft is of the wrong kind, because
something is missing, or because the model refuses what is added. That a token is out of place is
never said by an action, only by a table.
-/

namespace FuzzyRules.Assembly

open Traversal

variable {s : Assembly} {a : AssemblyAction} {t : Token} {parent : Option DraftKind}
  {draft : Draft} {grammar state : String} {seen : Excerpt} {line : Nat}

theorem needText_ne_violation : needText a t ≠ .error (.violation grammar state seen line) := by
  cases t <;> nofun

theorem needNumber_ne_violation :
    needNumber a t ≠ .error (.violation grammar state seen line) := by
  cases t <;> nofun

theorem openDraft_ne_violation :
    s.openDraft a parent draft ≠ .error (.violation grammar state seen line) := by
  unfold openDraft
  split <;> nofun

theorem fill_ne_violation {β γ : Type} {slot : Slot γ} {item : Except GrammarFault β}
    {edit : β → γ → γ} (hitem : item ≠ .error (.violation grammar state seen line)) :
    s.fill a slot item edit ≠ .error (.violation grammar state seen line) :=
  bind_ne_error hitem fun _ => bind_ne_error Slot.top_ne_violation fun _ => nofun

theorem orModelFault_ne_violation {β : Type} {x : Except (ModelFault Float) β} :
    orModelFault t x ≠ .error (.violation grammar state seen line) := by
  cases x <;> nofun

theorem addTerm_ne_violation : s.addTerm t ≠ .error (.violation grammar state seen line) := by
  refine bind_ne_error Slot.top_ne_violation ?_
  rintro ⟨d, below⟩
  dsimp only
  split
  · exact bind_ne_error Slot.top_ne_violation fun _ =>
      bind_ne_error orModelFault_ne_violation fun _ => nofun
  · nofun

theorem addUniverse_ne_violation :
    s.addUniverse t ≠ .error (.violation grammar state seen line) := by
  refine bind_ne_error Slot.top_ne_violation ?_
  rintro ⟨u, below⟩
  dsimp only
  split
  · nofun
  · exact bind_ne_error orModelFault_ne_violation fun _ => nofun

theorem addPredicate_ne_violation :
    s.addPredicate t ≠ .error (.violation grammar state seen line) := by
  refine bind_ne_error Slot.top_ne_violation ?_
  rintro ⟨d, below⟩
  dsimp only
  split
  · exact bind_ne_error Slot.top_ne_violation fun _ =>
      bind_ne_error orModelFault_ne_violation fun _ => nofun
  · nofun

theorem addRule_ne_violation : s.addRule t ≠ .error (.violation grammar state seen line) := by
  refine bind_ne_error Slot.top_ne_violation ?_
  rintro ⟨r, below⟩
  dsimp only
  split
  · nofun
  · exact bind_ne_error Slot.top_ne_violation fun _ => nofun

theorem addRuleBase_ne_violation :
    s.addRuleBase t ≠ .error (.violation grammar state seen line) := by
  refine bind_ne_error Slot.top_ne_violation ?_
  rintro ⟨rb, below⟩
  dsimp only
  split
  · nofun
  · exact bind_ne_error orModelFault_ne_violation fun _ => nofun

theorem attempt_ne_violation :
    s.attempt a t ≠ .error (.violation grammar state seen line) := by
  unfold attempt
  cases a with
  | createUniverse | createRuleBase | createRule | createPredicate => exact openDraft_ne_violation
  | createTerm => exact bind_ne_error needText_ne_violation fun _ => openDraft_ne_violation
  | setUniverseName | setUniverseDescription | setRuleBaseName | setRuleBaseDescription
  | setRuleDescription | setConsequence | setPredicateName | setPredicateValue =>
    exact fill_ne_violation needText_ne_violation
  | setCenter | setValue => exact fill_ne_violation needNumber_ne_violation
  | addTerm => exact addTerm_ne_violation
  | addUniverse => exact addUniverse_ne_violation
  | addPredicate => exact addPredicate_ne_violation
  | addRule => exact addRule_ne_violation
  | addRuleBase => exact addRuleBase_ne_violation

theorem operate_ne_violation :
    (operate a t s).2 ≠ .error (.violation grammar state seen line) := by
  unfold operate
  cases h : s.attempt a t with
  | ok s' => nofun
  | error fault =>
    intro hfault
    exact attempt_ne_violation (h.trans (congrArg Except.error (Except.error.inj hfault)))

theorem ne_violation_of_perform {actions : List AssemblyAction} {s' : Assembly}
    {fault : GrammarFault} (h : Run.perform operate t actions s = (s', .error fault)) :
    fault ≠ .violation grammar state seen line := by
  rintro rfl
  exact Run.perform_ne_error (fun _ _ => operate_ne_violation) actions s (congrArg Prod.snd h)

theorem finish_ne_violation : s.finish t ≠ .error (.violation grammar state seen line) := by
  unfold finish
  split <;> nofun

end FuzzyRules.Assembly
