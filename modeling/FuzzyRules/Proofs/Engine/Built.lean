import FuzzyRules.Proofs.Engine.Additions
import FuzzyRules.Proofs.Engine.Cycle
import FuzzyRules.Proofs.Universe.Arrangement

/-!
# Engines that have been built

An engine is built by adding universes and rule bases, and it is used by setting signals and running
cycles. Whatever is done with it, everything in it stands under its own name, and the terms of its
universes ascend.
-/

namespace FuzzyRules

variable {α : Type} [Scalar α]

/-- What the operations on universes can make. -/
inductive Universe.Built : Universe α → Prop
  | new (name : String) : Built (.new name)
  | renamed {u : Universe α} (h : Built u) (name : String) : Built { u with name := name }
  | described {u : Universe α} (h : Built u) (description : String) :
      Built { u with description := some description }
  | added {u u' : Universe α} {t : Term α} (h : Built u) (hadd : u.add t = .ok u') : Built u'

/-- What the operations on engines can make. -/
inductive Engine.Built : Engine α → Prop
  | new (settings : EngineSettings) : Built (.new settings)
  | withUniverse {e e' : Engine α} {u : Universe α} (h : Built e) (hu : u.Built)
      (hadd : e.addUniverse u = .ok e') : Built e'
  | withRuleBase {e e' : Engine α} {rb : RuleBase} (h : Built e)
      (hadd : e.addRuleBase rb = .ok e') : Built e'
  | withSignal {e : Engine α} (h : Built e) (name : String) (value : α) :
      Built (e.setSignal name value)
  | cycled {e e' : Engine α} {observations : NameMap α} (h : Built e)
      (hcycle : e.cycle observations = .ok e') : Built e'

theorem Universe.Built.ascending {proper : α → Prop} (hproper : Scalar.Comparable proper)
    {u : Universe α} (h : u.Built) : u.Ascending proper := by
  induction h with
  | new name => exact fun _ => .nil
  | renamed _ _ ih => exact ih
  | described _ _ ih => exact ih
  | added _ hadd ih => exact ascending_add hproper ih hadd

namespace Engine

theorem cycle_eq_ok_iff {e e' : Engine α} {observations : NameMap α} :
    e.cycle observations = .ok e' ↔ ∃ outcomes,
      e.consequences (e.state.overlay observations) = .ok outcomes ∧
        e' = { e with state := e.state.overlay (.ofList outcomes) } := by
  rw [cycle, Traversal.map_eq_ok_iff]
  simp only [eq_comm]

variable {e e' : Engine α} {name : String} {u : Universe α} {rb : RuleBase}

theorem Built.built_universe (h : e.Built) (hu : e.universes.get? name = some u) :
    u.Built ∧ u.name = name := by
  induction h with
  | new settings => cases hu
  | withUniverse _ hbuilt hadd ih =>
    rw [get?_universes_of_add hadd] at hu
    split_ifs at hu with hname
    · cases hu
      exact ⟨hbuilt, hname.symm⟩
    · exact ih hu
  | withRuleBase _ hadd ih =>
    obtain ⟨-, rfl⟩ := addRuleBase_eq_ok_iff.1 hadd
    exact ih hu
  | withSignal _ _ _ ih => exact ih hu
  | cycled _ hcycle ih =>
    obtain ⟨_, -, rfl⟩ := cycle_eq_ok_iff.1 hcycle
    exact ih hu

theorem Built.ruleBase_name (h : e.Built) (hrb : e.ruleBases.get? name = some rb) :
    rb.name = name := by
  induction h with
  | new settings => cases hrb
  | withUniverse _ _ hadd ih =>
    obtain ⟨-, -, rfl⟩ := addUniverse_eq_ok_iff.1 hadd
    exact ih hrb
  | withRuleBase _ hadd ih =>
    rw [get?_ruleBases_of_add hadd] at hrb
    split_ifs at hrb with hname
    · cases hrb
      exact hname.symm
    · exact ih hrb
  | withSignal _ _ _ ih => exact ih hrb
  | cycled _ hcycle ih =>
    obtain ⟨_, -, rfl⟩ := cycle_eq_ok_iff.1 hcycle
    exact ih hrb

end Engine

end FuzzyRules
