import FuzzyRules.Proofs.Assembly.Effects
import FuzzyRules.Proofs.Engine.Union
import FuzzyRules.Proofs.Phrases.Closing

/-!
# Assemblies on top of an engine

Only the actions that close a universe or a rule base look at the engine. So actions that are
performed on an assembly are performed as well if its engine is put on top of another one, up to the
first definition that the other one has already.
-/

namespace FuzzyRules.Assembly

open Traversal Engine

variable {s s' : Assembly} {a : AssemblyAction} {t : Token} {base e e' : Engine Float}
  {drafts drafts' : List Draft} {kind : NameKind} {name : String}

/-- The step does the same to the drafts whatever the engine is, and leaves the engine alone. -/
def Frames (step : Assembly → Except GrammarFault Assembly) (s s' : Assembly) : Prop :=
  s'.engine = s.engine ∧
    ∀ engine, step { s with engine := engine } = .ok { s' with engine := engine }

theorem frames_of_openDraft {parent : Option DraftKind} {draft : Draft}
    (h : s.openDraft a parent draft = .ok s') : Frames (·.openDraft a parent draft) s s' := by
  obtain ⟨hparent, rfl⟩ := openDraft_eq_ok h
  exact ⟨rfl, fun engine => if_pos hparent⟩

theorem frames_of_fill {β γ : Type} {slot : Slot γ} {item : Except GrammarFault β}
    {edit : β → γ → γ} (h : s.fill a slot item edit = .ok s') :
    Frames (·.fill a slot item edit) s s' := by
  obtain ⟨b, hb, h⟩ := bind_eq_ok_iff.1 h
  obtain ⟨found, htop, h⟩ := bind_eq_ok_iff.1 h
  cases h
  exact ⟨rfl, fun engine => bind_eq_ok_iff.2 ⟨b, hb, bind_eq_ok_iff.2 ⟨found, htop, rfl⟩⟩⟩

theorem frames_of_addTerm (h : s.addTerm t = .ok s') : Frames (·.addTerm t) s s' := by
  cases effect_of_addTerm h with
  | create opens => cases opens
  | set _ closes => cases closes
  | addTerm added =>
    refine ⟨rfl, fun engine => bind_eq_ok_iff.2 ⟨_, rfl, bind_eq_ok_iff.2 ⟨_, rfl, ?_⟩⟩⟩
    exact bind_eq_ok_iff.2 ⟨_, orModelFault_eq_ok_iff.2 added, rfl⟩

theorem frames_of_addPredicate (h : s.addPredicate t = .ok s') :
    Frames (·.addPredicate t) s s' := by
  cases effect_of_addPredicate h with
  | create opens => cases opens
  | set _ closes => cases closes
  | addPredicate added =>
    refine ⟨rfl, fun engine => bind_eq_ok_iff.2 ⟨_, rfl, bind_eq_ok_iff.2 ⟨_, rfl, ?_⟩⟩⟩
    exact bind_eq_ok_iff.2 ⟨_, orModelFault_eq_ok_iff.2 added, rfl⟩

theorem frames_of_addRule (h : s.addRule t = .ok s') : Frames (·.addRule t) s s' := by
  cases effect_of_addRule h with
  | create opens => cases opens
  | set _ closes => cases closes
  | addRule named => exact ⟨rfl, fun engine => if_neg named⟩

theorem frames_of_attempt (h : s.attempt a t = .ok s') (huniverse : a ≠ .addUniverse)
    (hruleBase : a ≠ .addRuleBase) : Frames (·.attempt a t) s s' := by
  unfold attempt at h ⊢
  cases a with
  | addUniverse => exact absurd rfl huniverse
  | addRuleBase => exact absurd rfl hruleBase
  | createUniverse | createRuleBase | createRule | createPredicate => exact frames_of_openDraft h
  | createTerm =>
    obtain ⟨name, hname, hopen⟩ := bind_eq_ok_iff.1 h
    obtain ⟨hparent, rfl⟩ := openDraft_eq_ok hopen
    exact ⟨rfl, fun engine => bind_eq_ok_iff.2 ⟨name, hname, if_pos hparent⟩⟩
  | setUniverseName | setUniverseDescription | setCenter | setValue | setRuleBaseName
  | setRuleBaseDescription | setRuleDescription | setConsequence | setPredicateName
  | setPredicateValue => exact frames_of_fill h
  | addTerm => exact frames_of_addTerm h
  | addPredicate => exact frames_of_addPredicate h
  | addRule => exact frames_of_addRule h

theorem defines_of_attempt (h : s.attempt a t = .ok s') (hname : s.engine.Defines kind name) :
    s'.engine.Defines kind name := by
  cases effect_of_attempt h with
  | addUniverse _ added => exact (defines_of_addUniverse added).2 (.inl hname)
  | addRuleBase _ added => exact (defines_of_addRuleBase added).2 (.inl hname)
  | _ => exact hname

/-- The fault that a definition of an engine meets with if another engine has it already. -/
inductive Taken (base e : Engine Float) : GrammarFault → Prop
  | duplicate {kind : NameKind} {name : String} (seen : Excerpt) (hbase : base.Defines kind name)
      (hname : e.Defines kind name) : Taken base e (.model seen (.duplicate kind name .engine))

theorem Taken.mono {fault : GrammarFault} (h : Taken base e fault)
    (hdefines : ∀ kind name, e.Defines kind name → e'.Defines kind name) :
    Taken base e' fault := by
  obtain ⟨seen, hbase, hname⟩ := h
  exact .duplicate seen hbase (hdefines _ _ hname)

/-- On top of another engine an action does the same, or it is the first that defines a name which
the other engine has already. -/
def Lifts (base : Engine Float) (a : AssemblyAction) (t : Token) (s s' : Assembly) : Prop :=
  (attempt ⟨base.union s.engine, s.drafts⟩ a t = .ok ⟨base.union s'.engine, s'.drafts⟩ ∧
      base.Apart s'.engine) ∨
    ∃ fault, attempt ⟨base.union s.engine, s.drafts⟩ a t = .error fault ∧
      Taken base s'.engine fault

theorem lifts_addUniverse {u : Universe Float} (hnamed : u.name ≠ "")
    (hadd : e.addUniverse u = .ok e') (hapart : base.Apart e) :
    Lifts base .addUniverse t ⟨e, .ofUniverse u :: drafts⟩ ⟨e', drafts⟩ := by
  have hattempt : attempt ⟨base.union e, .ofUniverse u :: drafts⟩ .addUniverse t =
      (orModelFault t ((base.union e).addUniverse u)).map fun engine => ⟨engine, drafts⟩ := by
    refine (if_neg hnamed).trans ?_
    cases orModelFault t ((base.union e).addUniverse u) <;> rfl
  rw [Lifts, hattempt, addUniverse_union hadd]
  by_cases hbase : base.universes.contains u.name = true
  · have hname : e'.Defines .universeName u.name :=
      (defines_of_addUniverse hadd).2 (.inr ⟨rfl, rfl⟩)
    rw [if_pos hbase]
    exact .inr ⟨_, rfl, .duplicate _ hbase hname⟩
  · rw [if_neg hbase]
    exact .inl ⟨rfl, hapart.of_new (fun _ _ => (defines_of_addUniverse hadd).1) hbase⟩

theorem lifts_addRuleBase {rb : RuleBase} (hnamed : rb.name ≠ "")
    (hadd : e.addRuleBase rb = .ok e') (hapart : base.Apart e) :
    Lifts base .addRuleBase t ⟨e, .ofRuleBase rb :: drafts⟩ ⟨e', drafts⟩ := by
  have hattempt : attempt ⟨base.union e, .ofRuleBase rb :: drafts⟩ .addRuleBase t =
      (orModelFault t ((base.union e).addRuleBase rb)).map fun engine => ⟨engine, drafts⟩ := by
    refine (if_neg hnamed).trans ?_
    cases orModelFault t ((base.union e).addRuleBase rb) <;> rfl
  rw [Lifts, hattempt, addRuleBase_union hadd]
  by_cases hbase : base.ruleBases.contains rb.name = true
  · have hname : e'.Defines .ruleBaseName rb.name :=
      (defines_of_addRuleBase hadd).2 (.inr ⟨rfl, rfl⟩)
    rw [if_pos hbase]
    exact .inr ⟨_, rfl, .duplicate _ hbase hname⟩
  · rw [if_neg hbase]
    exact .inl ⟨rfl, hapart.of_new (fun _ _ => (defines_of_addRuleBase hadd).1) hbase⟩

theorem lifts_of_frames (h : Frames (·.attempt a t) s s') (hapart : base.Apart s.engine) :
    Lifts base a t s s' := by
  obtain ⟨hengine, hattempt⟩ := h
  refine .inl ⟨?_, by rwa [hengine]⟩
  rw [hengine]
  exact hattempt _

theorem lifts_of_attempt (h : s.attempt a t = .ok s') (hapart : base.Apart s.engine) :
    Lifts base a t s s' := by
  have hframes (huniverse : a ≠ .addUniverse) (hruleBase : a ≠ .addRuleBase) :
      Lifts base a t s s' :=
    lifts_of_frames (frames_of_attempt h huniverse hruleBase) hapart
  cases effect_of_attempt h with
  | addUniverse named added => exact lifts_addUniverse named added hapart
  | addRuleBase named added => exact lifts_addRuleBase named added hapart
  | create opens => exact hframes (by rintro rfl; cases opens) (by rintro rfl; cases opens)
  | set _ closes => exact hframes (by rintro rfl; cases closes) (by rintro rfl; cases closes)
  | addTerm | addPredicate | addRule => exact hframes nofun nofun

section Actions

variable {actions : List AssemblyAction}

theorem perform_cons_of_ok (h : s.attempt a t = .ok s') :
    Run.perform operate t (a :: actions) s = Run.perform operate t actions s' := by
  rw [Run.perform, operate, h]

theorem perform_cons_of_error {fault : GrammarFault} (h : s.attempt a t = .error fault) :
    Run.perform operate t (a :: actions) s = (s.refused a, .error fault) := by
  rw [Run.perform, operate, h]

theorem defines_of_perform (h : Run.perform operate t actions s = (s', .ok ()))
    (hname : s.engine.Defines kind name) : s'.engine.Defines kind name := by
  induction actions generalizing s with
  | nil =>
    cases h
    exact hname
  | cons a actions ih =>
    obtain ⟨s₁, hattempt, h⟩ := perform_cons_iff.1 h
    exact ih h (defines_of_attempt hattempt hname)

theorem perform_union (h : Run.perform operate t actions s = (s', .ok ()))
    (hapart : base.Apart s.engine) :
    (Run.perform operate t actions ⟨base.union s.engine, s.drafts⟩ =
        (⟨base.union s'.engine, s'.drafts⟩, .ok ()) ∧ base.Apart s'.engine) ∨
      ∃ s₁ fault, Run.perform operate t actions ⟨base.union s.engine, s.drafts⟩ =
        (s₁, .error fault) ∧ Taken base s'.engine fault := by
  induction actions generalizing s with
  | nil =>
    cases h
    exact .inl ⟨rfl, hapart⟩
  | cons a actions ih =>
    obtain ⟨s₁, hattempt, h⟩ := perform_cons_iff.1 h
    rcases lifts_of_attempt hattempt hapart with ⟨hlift, hapart₁⟩ | ⟨fault, hlift, htaken⟩
    · rw [perform_cons_of_ok hlift]
      exact ih h hapart₁
    · exact .inr ⟨_, fault, perform_cons_of_error hlift,
        htaken.mono fun _ _ => defines_of_perform h⟩

end Actions

end FuzzyRules.Assembly
