import FuzzyRules.Proofs.Assembly.Census
import FuzzyRules.Proofs.Assembly.Soundness

/-!
# Sequences of assembly actions

An assembly that any actions lead to, in any order and on any tokens, is sound, and none of the
entities that the actions have opened is lost.
-/

namespace FuzzyRules

open Traversal

namespace Assembly

/-- The assembly after some actions, each on its token, unless one of them is refused. -/
def replay (s : Assembly) (history : List (AssemblyAction × Token)) :
    Except GrammarFault Assembly :=
  history.foldlM (fun s step => s.attempt step.1 step.2) s

variable {s s' : Assembly} {history : List (AssemblyAction × Token)}

theorem replay_append {s₁ : Assembly} (h : s.replay history = .ok s₁)
    (later : List (AssemblyAction × Token)) : s.replay (history ++ later) = s₁.replay later := by
  rw [replay, List.foldlM_append, ← replay, h]
  rfl

theorem sound_of_replay {settings : EngineSettings} (h : s.replay history = .ok s')
    (hs : s.Sound settings) : s'.Sound settings := by
  induction history generalizing s with
  | nil =>
    cases h
    exact hs
  | cons step rest ih =>
    obtain ⟨s₁, hstep, hrest⟩ := foldlM_cons_eq_ok_iff.1 h
    exact ih hrest ((effect_of_attempt hstep).sound hs)

theorem census_of_replay (h : s.replay history = .ok s') {a : AssemblyAction} {k : DraftKind}
    (ha : a.opens? = some k) :
    s'.census k = s.census k + (history.map Prod.fst).count a := by
  induction history generalizing s with
  | nil =>
    cases h
    rfl
  | cons step rest ih =>
    obtain ⟨s₁, hstep, hrest⟩ := foldlM_cons_eq_ok_iff.1 h
    have hopens : step.1.opens? = some k ↔ step.1 = a :=
      ⟨fun h => AssemblyAction.eq_of_opens? h ha, fun h => h ▸ ha⟩
    rw [ih hrest, (effect_of_attempt hstep).census_eq, List.map_cons, List.count_cons]
    simp only [hopens, beq_iff_eq]
    omega

end Assembly

/-- Every entity that the actions have opened is in the engine. -/
structure Engine.Accounts (e : Engine Float) (actions : List AssemblyAction) : Prop where
  universes : actions.count .createUniverse = e.universes.size
  terms : actions.count .createTerm = (e.universes.values.map Universe.count).sum
  ruleBases : actions.count .createRuleBase = e.ruleBases.size
  rules : actions.count .createRule = (e.ruleBases.values.map fun rb => rb.rules.length).sum
  predicates : actions.count .createPredicate =
    (e.ruleBases.values.map fun rb => (rb.rules.map fun r => r.predicates.size).sum).sum

namespace Assembly

variable {settings : EngineSettings} {e : Engine Float} {history : List (AssemblyAction × Token)}

theorem sound_start (settings : EngineSettings) : (start settings).Sound settings :=
  ⟨Engine.sound_new settings, nofun⟩

theorem accounts_of_replay (h : (start settings).replay history = .ok ⟨e, []⟩) :
    e.Accounts (history.map Prod.fst) := by
  have hcount {a : AssemblyAction} {k : DraftKind} (ha : a.opens? = some k) :
      (history.map Prod.fst).count a = e.census k := by
    have := census_of_replay h ha
    have hstart : (start settings).census k = 0 := rfl
    have hend : census ⟨e, []⟩ k = e.census k := Nat.add_zero _
    omega
  constructor
  case universes | ruleBases =>
    rw [hcount rfl]
    simp [Engine.census, Universe.census, RuleBase.census, Rule.census, NameMap.length_values]
  case terms | rules | predicates =>
    rw [hcount rfl]
    simp [Engine.census, Universe.census, RuleBase.census, Rule.census]

end Assembly

end FuzzyRules
