import Mathlib.Algebra.BigOperators.Group.List.Basic
import Mathlib.Algebra.GroupWithZero.Nat
import FuzzyRules.Proofs.Assembly.Effects
import FuzzyRules.Proofs.Engine.Additions
import FuzzyRules.Proofs.NameMap.Overlay
import FuzzyRules.Proofs.Universe.Terms

/-!
# The census of an assembly

Every entity that is opened stays countable: as an open draft, as a part of one, or as a part of the
engine. An action that opens a draft adds one entity of its kind, and no other action changes the
numbers.
-/

namespace FuzzyRules

namespace Universe

/-- The number of entities of a kind that a universe consists of, itself included. -/
def census (u : Universe Float) : DraftKind → Nat
  | .ofUniverse => 1
  | .ofTerm => u.count
  | _ => 0

theorem count_of_add {u u' : Universe Float} {t : Term Float} (h : u.add t = .ok u') :
    u'.count = u.count + 1 := by
  rw [add_eq_ok h]
  exact (perm_place t u.terms).length_eq

theorem census_of_add {u u' : Universe Float} {t : Term Float} (h : u.add t = .ok u')
    (k : DraftKind) : u'.census k = u.census k + if k = .ofTerm then 1 else 0 := by
  cases k <;> simp [census, count_of_add h]

end Universe

namespace Rule

def census (r : Rule) : DraftKind → Nat
  | .ofRule => 1
  | .ofPredicate => r.predicates.size
  | _ => 0

theorem census_of_addPredicate {r r' : Rule} {antecedent term : String}
    (h : (r.addPredicate antecedent term : Except (ModelFault Float) Rule) = .ok r')
    (k : DraftKind) : r'.census k = r.census k + if k = .ofPredicate then 1 else 0 := by
  unfold addPredicate at h
  split_ifs at h with htaken
  cases h
  cases k <;> simp [census, NameMap.size_insert htaken]

end Rule

namespace RuleBase

def census (rb : RuleBase) (k : DraftKind) : Nat :=
  (if k = .ofRuleBase then 1 else 0) + (rb.rules.map fun r => r.census k).sum

theorem census_addRule (rb : RuleBase) (r : Rule) (k : DraftKind) :
    (rb.addRule r).census k = rb.census k + r.census k := by
  simp [census, addRule, Nat.add_assoc]

end RuleBase

namespace Engine

def census (e : Engine Float) (k : DraftKind) : Nat :=
  (e.universes.values.map fun u => u.census k).sum +
    (e.ruleBases.values.map fun rb => rb.census k).sum

variable {e e' : Engine Float}

theorem census_of_addUniverse {u : Universe Float} (h : e.addUniverse u = .ok e')
    (k : DraftKind) : e'.census k = e.census k + u.census k := by
  obtain ⟨hnew, -, rfl⟩ := addUniverse_eq_ok_iff.1 h
  have hsum := ((NameMap.values_insert_perm (v := u) hnew).map fun u => u.census k).sum_eq
  rw [List.map_cons, List.sum_cons] at hsum
  simp only [census, hsum]
  omega

theorem census_of_addRuleBase {rb : RuleBase} (h : e.addRuleBase rb = .ok e') (k : DraftKind) :
    e'.census k = e.census k + rb.census k := by
  obtain ⟨hnew, rfl⟩ := addRuleBase_eq_ok_iff.1 h
  have hsum := ((NameMap.values_insert_perm (v := rb) hnew).map fun rb => rb.census k).sum_eq
  rw [List.map_cons, List.sum_cons] at hsum
  simp only [census, hsum]
  omega

end Engine

namespace Draft

def census : Draft → DraftKind → Nat
  | .ofUniverse u, k => u.census k
  | .ofTerm _, k => if k = .ofTerm then 1 else 0
  | .ofRuleBase rb, k => rb.census k
  | .ofRule r, k => r.census k
  | .ofPredicate _, k => if k = .ofPredicate then 1 else 0

theorem census_of_fresh {k : DraftKind} {draft : Draft} (h : draft.Fresh k) (k' : DraftKind) :
    draft.census k' = if k = k' then 1 else 0 := by
  cases h <;> cases k' <;> rfl

theorem census_of_edited {draft draft' : Draft} (h : draft.Edited draft') (k : DraftKind) :
    draft'.census k = draft.census k := by
  cases h <;> cases k <;> rfl

end Draft

namespace Assembly

def census (s : Assembly) (k : DraftKind) : Nat :=
  s.engine.census k + (s.drafts.map fun draft => draft.census k).sum

theorem census_cons (engine : Engine Float) (draft : Draft) (below : List Draft) (k : DraftKind) :
    census ⟨engine, draft :: below⟩ k = draft.census k + census ⟨engine, below⟩ k := by
  simp only [census, List.map_cons, List.sum_cons]
  omega

/-- One step of the count. -/
theorem Effect.census_eq {a : AssemblyAction} {s s' : Assembly} (h : Effect a s s')
    (k : DraftKind) : s'.census k = s.census k + if a.opens? = some k then 1 else 0 := by
  cases h with
  | create opens parent fresh =>
    rw [census_cons, Draft.census_of_fresh fresh, opens, Nat.add_comm]
    simp only [Option.some.injEq]
  | set opens _ edited =>
    rw [census_cons, census_cons, Draft.census_of_edited edited, opens]
    rfl
  | addTerm added =>
    rw [if_neg nofun, census_cons, census_cons, census_cons, Draft.census, Draft.census,
      Draft.census, Universe.census_of_add added]
    omega
  | addUniverse named added =>
    rw [if_neg nofun, census_cons, Draft.census]
    simp only [census, Engine.census_of_addUniverse added]
    omega
  | addPredicate added =>
    rw [if_neg nofun, census_cons, census_cons, census_cons, Draft.census, Draft.census,
      Draft.census, Rule.census_of_addPredicate added]
    omega
  | addRule named =>
    rw [if_neg nofun, census_cons, census_cons, census_cons, Draft.census, Draft.census,
      Draft.census, RuleBase.census_addRule]
    omega
  | addRuleBase named added =>
    rw [if_neg nofun, census_cons, Draft.census]
    simp only [census, Engine.census_of_addRuleBase added]
    omega

end Assembly

end FuzzyRules
