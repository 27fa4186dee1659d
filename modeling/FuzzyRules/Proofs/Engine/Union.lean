import FuzzyRules.Proofs.Engine.Additions
import FuzzyRules.Proofs.NameMap.Overlay

/-!
# Unions of engines

Engines that have no name in common can be put together in either order. What can be added to one of
them can be added to the union, unless the other one has a definition for the name.
-/

namespace FuzzyRules.Engine

variable {α : Type} {base e e' : Engine α} {u : Universe α} {rb : RuleBase} {kind : NameKind}
  {name : String}

/-- The engine has something of the kind under the name. -/
def Defines (e : Engine α) : NameKind → String → Prop
  | .universeName, name => e.universes.contains name = true
  | .ruleBaseName, name => e.ruleBases.contains name = true
  | .termName, _ | .antecedent, _ | .signalName, _ => False

/-- No name is that of a universe of both engines, nor that of a rule base of both. -/
def Apart (e e' : Engine α) : Prop := ∀ kind name, e.Defines kind name → ¬ e'.Defines kind name

theorem apart_iff : e.Apart e' ↔
    (∀ name, e.universes.contains name = true → ¬ e'.universes.contains name = true) ∧
      ∀ name, e.ruleBases.contains name = true → ¬ e'.ruleBases.contains name = true := by
  refine ⟨fun h => ⟨h .universeName, h .ruleBaseName⟩, fun ⟨huniverse, hruleBase⟩ => ?_⟩
  intro kind name hname
  cases kind with
  | universeName => exact huniverse name hname
  | ruleBaseName => exact hruleBase name hname
  | _ => cases hname

theorem Apart.symm (h : e.Apart e') : e'.Apart e := fun kind name he' he => h kind name he he'

theorem Apart.of_new {kind₀ : NameKind} {name₀ : String} (h : e.Apart e')
    {next : Engine α} (hdefines : ∀ kind name, next.Defines kind name →
      e'.Defines kind name ∨ kind = kind₀ ∧ name = name₀)
    (hnew : ¬ e.Defines kind₀ name₀) : e.Apart next := by
  intro kind name hname hnext
  rcases hdefines kind name hnext with hname' | ⟨rfl, rfl⟩
  · exact h kind name hname hname'
  · exact hnew hname

/-- The second engine with what the first one defines. -/
def union (base e : Engine α) : Engine α :=
  { e with
    universes := base.universes.overlay e.universes
    ruleBases := base.ruleBases.overlay e.ruleBases }

theorem get?_universes_union (h : e.Apart e') : (e.union e').universes.get? name = some u ↔
    e.universes.get? name = some u ∨ e'.universes.get? name = some u :=
  NameMap.get?_overlay_eq_some_iff (h .universeName)

theorem get?_ruleBases_union (h : e.Apart e') : (e.union e').ruleBases.get? name = some rb ↔
    e.ruleBases.get? name = some rb ∨ e'.ruleBases.get? name = some rb :=
  NameMap.get?_overlay_eq_some_iff (h .ruleBaseName)

theorem defines_of_addUniverse [Scalar α] (h : e.addUniverse u = .ok e') :
    e'.Defines kind name ↔ e.Defines kind name ∨ kind = .universeName ∧ name = u.name := by
  obtain ⟨-, -, rfl⟩ := addUniverse_eq_ok_iff.1 h
  cases kind <;> simp [Defines, NameMap.contains_insert, or_comm]

theorem defines_of_addRuleBase (h : e.addRuleBase rb = .ok e') :
    e'.Defines kind name ↔ e.Defines kind name ∨ kind = .ruleBaseName ∧ name = rb.name := by
  obtain ⟨-, rfl⟩ := addRuleBase_eq_ok_iff.1 h
  cases kind <;> simp [Defines, NameMap.contains_insert, or_comm]

theorem addUniverse_union [Scalar α] (h : e.addUniverse u = .ok e') :
    (base.union e).addUniverse u =
      if base.universes.contains u.name then .error (.duplicate .universeName u.name .engine)
      else .ok (base.union e') := by
  obtain ⟨hnew, htrend, rfl⟩ := addUniverse_eq_ok_iff.1 h
  have hcontains : (base.union e).universes.contains u.name = base.universes.contains u.name := by
    simp [union, NameMap.contains_overlay, hnew]
  split_ifs with hbase
  · rw [addUniverse, if_pos (hcontains.trans hbase)]
  · rw [addUniverse_eq_ok_iff, hcontains]
    refine ⟨hbase, htrend, ?_⟩
    rw [union, NameMap.overlay_insert]
    rfl

theorem addRuleBase_union (h : e.addRuleBase rb = .ok e') :
    (base.union e).addRuleBase rb =
      if base.ruleBases.contains rb.name then .error (.duplicate .ruleBaseName rb.name .engine)
      else .ok (base.union e') := by
  obtain ⟨hnew, rfl⟩ := addRuleBase_eq_ok_iff.1 h
  have hcontains : (base.union e).ruleBases.contains rb.name = base.ruleBases.contains rb.name := by
    simp [union, NameMap.contains_overlay, hnew]
  split_ifs with hbase
  · rw [addRuleBase, if_pos (hcontains.trans hbase)]
  · rw [addRuleBase_eq_ok_iff, hcontains]
    refine ⟨hbase, ?_⟩
    rw [union, NameMap.overlay_insert]
    rfl

theorem union_comm (h : e.Apart e') (hsettings : e.settings = e'.settings)
    (hstate : e.state = e'.state) : e.union e' = e'.union e := by
  rw [union, union, NameMap.overlay_comm (h .universeName), NameMap.overlay_comm (h .ruleBaseName),
    hsettings, hstate]

end FuzzyRules.Engine
