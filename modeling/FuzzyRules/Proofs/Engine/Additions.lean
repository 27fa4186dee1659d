import FuzzyRules.Engine.Basic
import FuzzyRules.Proofs.NameMap.Overlay
import Mathlib.Tactic.SplitIfs

/-!
# Additions to an engine

A universe or a rule base is added exactly if its name is new, and a universe of an engine that asks
for one trend only if it has one. What has been there before stays.
-/

namespace FuzzyRules.Engine

variable {α : Type} {e e' : Engine α} {u : Universe α} {rb : RuleBase} {name : String}

theorem addUniverse_eq_ok_iff [Scalar α] : e.addUniverse u = .ok e' ↔
    ¬ e.universes.contains u.name = true ∧
      (e.settings.strictMonotonic = true → u.checkTrend = .ok ()) ∧
        e' = { e with universes := e.universes.insert u.name u } := by
  unfold addUniverse
  split_ifs with htaken hstrict
  · simp [htaken]
  · cases hu : u.checkTrend <;> simp [htaken, hstrict, Except.map, eq_comm]
  · simp [htaken, hstrict, eq_comm]

theorem addRuleBase_eq_ok_iff : e.addRuleBase rb = .ok e' ↔
    ¬ e.ruleBases.contains rb.name = true ∧
      e' = { e with ruleBases := e.ruleBases.insert rb.name rb } := by
  unfold addRuleBase
  split_ifs with htaken <;> simp [htaken, eq_comm]

theorem get?_universes_of_add [Scalar α] (h : e.addUniverse u = .ok e') :
    e'.universes.get? name = if name = u.name then some u else e.universes.get? name := by
  obtain ⟨-, -, rfl⟩ := addUniverse_eq_ok_iff.1 h
  exact NameMap.get?_insert ..

theorem get?_ruleBases_of_add (h : e.addRuleBase rb = .ok e') :
    e'.ruleBases.get? name = if name = rb.name then some rb else e.ruleBases.get? name := by
  obtain ⟨-, rfl⟩ := addRuleBase_eq_ok_iff.1 h
  exact NameMap.get?_insert ..

theorem get?_universes_kept [Scalar α] {v : Universe α} (h : e.addUniverse u = .ok e')
    (hv : e.universes.get? name = some v) : e'.universes.get? name = some v := by
  obtain ⟨hnew, -, rfl⟩ := addUniverse_eq_ok_iff.1 h
  exact NameMap.get?_insert_of_new hnew hv

theorem get?_ruleBases_kept {rb' : RuleBase} (h : e.addRuleBase rb = .ok e')
    (hrb : e.ruleBases.get? name = some rb') : e'.ruleBases.get? name = some rb' := by
  obtain ⟨hnew, rfl⟩ := addRuleBase_eq_ok_iff.1 h
  exact NameMap.get?_insert_of_new hnew hrb

end FuzzyRules.Engine
