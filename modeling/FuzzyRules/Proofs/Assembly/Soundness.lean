import Mathlib.Data.List.Nodup
import FuzzyRules.Proofs.Assembly.Effects
import FuzzyRules.Proofs.Doubles
import FuzzyRules.Proofs.Engine.Additions
import FuzzyRules.Proofs.NameMap.Overlay

/-!
# Sound engines

Whatever actions an assembly is put together with, and in whatever order, its engine is sound: what
it holds stands under its own name, and it is complete and in order.
-/

namespace FuzzyRules

/-- No two terms bear the same name, and the terms ascend as far as their centers are numbers. -/
structure Universe.Tidy (u : Universe Float) : Prop where
  distinct : (u.terms.map Term.name).Nodup
  ascending : u.Ascending fun x => x.isNaN = false

namespace Universe.Tidy

variable {u u' : Universe Float} {t : Term Float}

theorem of_add (hu : u.Tidy) (h : u.add t = .ok u') : u'.Tidy where
  distinct := by
    have hnew : t.name ∉ u.terms.map Term.name := by
      rw [List.mem_map, ← isSome_term?_iff]
      exact exists_add_iff.1 ⟨u', h⟩
    rw [add_eq_ok h, ((perm_place t u.terms).map Term.name).nodup_iff]
    exact List.nodup_cons.2 ⟨hnew, hu.distinct⟩
  ascending := ascending_add Double.comparable_isNaN_false hu.ascending h

end Universe.Tidy

/-- What can be relied on in an engine that has been put together under some settings. -/
structure Engine.Sound (settings : EngineSettings) (e : Engine Float) : Prop where
  settings_eq : e.settings = settings
  state_eq : e.state = .empty
  universe_name {name : String} {u : Universe Float} (h : e.universes.get? name = some u) :
    u.name = name ∧ name ≠ ""
  universe_tidy {name : String} {u : Universe Float} (h : e.universes.get? name = some u) : u.Tidy
  universe_trend (hstrict : settings.strictMonotonic = true) {name : String} {u : Universe Float}
    (h : e.universes.get? name = some u) : u.checkTrend = .ok ()
  ruleBase_name {name : String} {rb : RuleBase} (h : e.ruleBases.get? name = some rb) :
    rb.name = name ∧ name ≠ ""
  rule_consequent {name : String} {rb : RuleBase} (h : e.ruleBases.get? name = some rb) :
    ∀ r ∈ rb.rules, r.consequent ≠ ""

theorem Engine.sound_new (settings : EngineSettings) : (Engine.new settings).Sound settings :=
  ⟨rfl, rfl, nofun, nofun, nofun, nofun, nofun⟩

namespace Engine.Sound

variable {settings : EngineSettings} {e e' : Engine Float}

theorem of_addUniverse {u : Universe Float} (he : e.Sound settings) (hu : u.Tidy)
    (hname : u.name ≠ "") (h : e.addUniverse u = .ok e') : e'.Sound settings := by
  obtain ⟨-, htrend, rfl⟩ := addUniverse_eq_ok_iff.1 h
  refine ⟨he.settings_eq, he.state_eq, ?_, ?_, ?_, he.ruleBase_name, he.rule_consequent⟩
  · intro name v hv
    rcases NameMap.eq_or_get?_of_insert hv with ⟨rfl, rfl⟩ | hv
    · exact ⟨rfl, hname⟩
    · exact he.universe_name hv
  · intro name v hv
    rcases NameMap.eq_or_get?_of_insert hv with ⟨rfl, rfl⟩ | hv
    · exact hu
    · exact he.universe_tidy hv
  · intro hstrict name v hv
    rcases NameMap.eq_or_get?_of_insert hv with ⟨rfl, rfl⟩ | hv
    · exact htrend (he.settings_eq ▸ hstrict)
    · exact he.universe_trend hstrict hv

theorem of_addRuleBase {rb : RuleBase} (he : e.Sound settings) (hname : rb.name ≠ "")
    (hrules : ∀ r ∈ rb.rules, r.consequent ≠ "") (h : e.addRuleBase rb = .ok e') :
    e'.Sound settings := by
  obtain ⟨-, rfl⟩ := addRuleBase_eq_ok_iff.1 h
  refine ⟨he.settings_eq, he.state_eq, he.universe_name, he.universe_tidy, he.universe_trend,
    ?_, ?_⟩
  · intro name rb' h'
    rcases NameMap.eq_or_get?_of_insert h' with ⟨rfl, rfl⟩ | h'
    · exact ⟨rfl, hname⟩
    · exact he.ruleBase_name h'
  · intro name rb' h'
    rcases NameMap.eq_or_get?_of_insert h' with ⟨rfl, rfl⟩ | h'
    · exact hrules
    · exact he.rule_consequent h'

end Engine.Sound

namespace Draft

/-- What has been added to an open draft is sound, whatever its own fields say so far. -/
def Sound : Draft → Prop
  | .ofUniverse u => u.Tidy
  | .ofRuleBase rb => ∀ r ∈ rb.rules, r.consequent ≠ ""
  | .ofTerm _ | .ofRule _ | .ofPredicate _ => True

theorem sound_of_fresh {k : DraftKind} {draft : Draft} (h : draft.Fresh k) : draft.Sound := by
  cases h with
  | ofUniverse => exact ⟨.nil, fun _ => .nil⟩
  | ofRuleBase => exact nofun
  | ofTerm | ofRule | ofPredicate => trivial

theorem sound_of_edited {draft draft' : Draft} (h : draft.Edited draft') (hdraft : draft.Sound) :
    draft'.Sound := by
  cases h with
  | ofUniverse => exact ⟨hdraft.distinct, hdraft.ascending⟩
  | ofRuleBase => exact hdraft
  | ofTerm | ofRule | ofPredicate => trivial

end Draft

namespace Assembly

structure Sound (settings : EngineSettings) (s : Assembly) : Prop where
  engine : s.engine.Sound settings
  drafts : ∀ draft ∈ s.drafts, draft.Sound

variable {settings : EngineSettings} {a : AssemblyAction} {s s' : Assembly}

/-- No action can break the soundness of an assembly. -/
theorem Effect.sound (h : Effect a s s') (hs : s.Sound settings) : s'.Sound settings := by
  obtain ⟨hengine, hdrafts⟩ := hs
  cases h with
  | create opens parent fresh =>
    exact ⟨hengine, List.forall_mem_cons.2 ⟨Draft.sound_of_fresh fresh, hdrafts⟩⟩
  | set opens _ edited =>
    obtain ⟨hdraft, hbelow⟩ := List.forall_mem_cons.1 hdrafts
    exact ⟨hengine, List.forall_mem_cons.2 ⟨Draft.sound_of_edited edited hdraft, hbelow⟩⟩
  | addTerm added =>
    obtain ⟨-, hbelow⟩ := List.forall_mem_cons.1 hdrafts
    obtain ⟨hu, hbelow⟩ := List.forall_mem_cons.1 hbelow
    exact ⟨hengine, List.forall_mem_cons.2 ⟨Universe.Tidy.of_add hu added, hbelow⟩⟩
  | addUniverse named added =>
    obtain ⟨hu, hbelow⟩ := List.forall_mem_cons.1 hdrafts
    exact ⟨hengine.of_addUniverse hu named added, hbelow⟩
  | addPredicate added =>
    obtain ⟨-, hbelow⟩ := List.forall_mem_cons.1 hdrafts
    obtain ⟨-, hbelow⟩ := List.forall_mem_cons.1 hbelow
    exact ⟨hengine, List.forall_mem_cons.2 ⟨trivial, hbelow⟩⟩
  | @addRule _ r rb _ named =>
    obtain ⟨-, hbelow⟩ := List.forall_mem_cons.1 hdrafts
    obtain ⟨hrb, hbelow⟩ := List.forall_mem_cons.1 hbelow
    have hrules : ∀ r' ∈ rb.rules ++ [r], r'.consequent ≠ "" := by
      rw [List.forall_mem_append, List.forall_mem_singleton]
      exact ⟨hrb, named⟩
    exact ⟨hengine, List.forall_mem_cons.2 ⟨hrules, hbelow⟩⟩
  | addRuleBase named added =>
    obtain ⟨hrb, hbelow⟩ := List.forall_mem_cons.1 hdrafts
    exact ⟨hengine.of_addRuleBase named hrb added, hbelow⟩

end Assembly

end FuzzyRules
