import FuzzyRules.Proofs.Traversal
import FuzzyRules.RuleBase.Inference

/-!
# What a consequence depends on

The consequence of a rule base, or the reason why it has none, is decided by its own universe and by
the universes and the signals that its rules name. Whatever else there is does not matter. If there
is a consequence then all these universes are there, so it stays when others are added.
-/

namespace FuzzyRules.RuleBase

variable {α : Type} {rb : RuleBase} {universes universes' : NameMap (Universe α)}
  {signals signals' : NameMap α}

/-- Some rule has a predicate about this name. -/
def Names (rb : RuleBase) (name : String) : Prop :=
  ∃ r ∈ rb.rules, ∃ p ∈ r.predicates.entries, p.1 = name

instance (name : String) : Decidable (rb.Names name) :=
  inferInstanceAs (Decidable (∃ r ∈ rb.rules, ∃ p ∈ r.predicates.entries, p.1 = name))

/-- Universes and signals that are the same as far as the rule base looks at them. -/
structure Alike (rb : RuleBase) (universes universes' : NameMap (Universe α))
    (signals signals' : NameMap α) : Prop where
  output : universes.get? rb.name = universes'.get? rb.name
  namedUniverse {name : String} (h : rb.Names name) : universes.get? name = universes'.get? name
  namedSignal {name : String} (h : rb.Names name) : signals.get? name = signals'.get? name

variable [Scalar α]

theorem predicateDistance_congr {antecedent : String}
    (huniverse : universes.get? antecedent = universes'.get? antecedent)
    (hsignal : signals.get? antecedent = signals'.get? antecedent) (scope : Scope)
    (expected : String) :
    predicateDistance universes signals scope antecedent expected =
      predicateDistance universes' signals' scope antecedent expected := by
  simp only [predicateDistance, huniverse, hsignal]

theorem predicateDistances_congr (h : rb.Alike universes universes' signals signals') {r : Rule}
    (hr : r ∈ rb.rules) :
    rb.predicateDistances universes signals r = rb.predicateDistances universes' signals' r := by
  apply Traversal.mapM_congr
  intro p hp
  have hname : rb.Names p.1 := ⟨r, hr, p, hp, rfl⟩
  exact predicateDistance_congr (h.namedUniverse hname) (h.namedSignal hname) _ _

theorem ruleDistances_congr (h : rb.Alike universes universes' signals signals') :
    rb.ruleDistances universes signals = rb.ruleDistances universes' signals' := by
  apply Traversal.mapM_congr
  intro r hr
  simp only [ruleDistance, predicateDistances_congr h hr]

theorem consequence_congr (h : rb.Alike universes universes' signals signals') :
    rb.consequence universes signals = rb.consequence universes' signals' := by
  simp only [consequence, groupedDistances, h.output, ruleDistances_congr h]

theorem consequence_of_unnamed {name : String} (hname : ¬ rb.Names name)
    (hsignals : ∀ {other}, other ≠ name → signals.get? other = signals'.get? other) :
    rb.consequence universes signals = rb.consequence universes signals' := by
  have hne {other : String} (hother : rb.Names other) : other ≠ name :=
    fun heq => hname (heq ▸ hother)
  exact consequence_congr ⟨rfl, fun _ => rfl, fun hother => hsignals (hne hother)⟩

theorem consequence_eq_ok_iff {z : α} :
    rb.consequence universes signals = .ok z ↔
      rb.rules ≠ [] ∧ ∃ output ds vs, universes.get? rb.name = some output ∧
        rb.ruleDistances universes signals = .ok ds ∧
        rb.votes output (groupByConsequent rb.rules ds) = .ok vs ∧ tally vs = .ok z := by
  unfold consequence groupedDistances
  cases hrules : rb.rules with
  | nil => simp
  | cons r rest =>
    cases universes.get? rb.name with
    | none => simp
    | some output =>
      cases rb.ruleDistances universes signals with
      | error fault => simp [Except.map, bind, Except.bind]
      | ok ds =>
        cases hvs : rb.votes output (groupByConsequent (r :: rest) ds) with
        | error fault => simp [Except.map, bind, Except.bind, hvs]
        | ok vs =>
          cases ht : tally vs <;>
            simp [Except.map, bind, Except.bind, Except.mapError, hvs, ht]

/-- Every universe that the rules name is there, or there is no consequence. -/
theorem exists_universe_of_names {z : α} (h : rb.consequence universes signals = .ok z)
    {name : String} (hname : rb.Names name) : ∃ u, universes.get? name = some u := by
  obtain ⟨-, -, ds, -, -, hds, -⟩ := consequence_eq_ok_iff.1 h
  obtain ⟨r, hr, p, hp, rfl⟩ := hname
  obtain ⟨d, -, hd⟩ := Traversal.exists_of_mem_left (Traversal.mapM_eq_ok_iff.1 hds) hr
  unfold ruleDistance at hd
  cases hps : rb.predicateDistances universes signals r with
  | error fault => simp [hps] at hd
  | ok ps =>
    obtain ⟨d', -, hd'⟩ := Traversal.exists_of_mem_left (Traversal.mapM_eq_ok_iff.1 hps) hp
    unfold predicateDistance at hd'
    cases hu : universes.get? p.1 with
    | none => simp [hu] at hd'
    | some u => exact ⟨u, rfl⟩

/-- More universes do not matter where there is a consequence. -/
theorem alike_of_more_universes {z : α} (h : rb.consequence universes signals = .ok z)
    (hmore : ∀ {name u}, universes.get? name = some u → universes'.get? name = some u) :
    rb.Alike universes universes' signals signals where
  output := by
    obtain ⟨-, u, -, -, hu, -⟩ := consequence_eq_ok_iff.1 h
    rw [hu, hmore hu]
  namedUniverse hname := by
    obtain ⟨u, hu⟩ := exists_universe_of_names h hname
    rw [hu, hmore hu]
  namedSignal _ := rfl

end FuzzyRules.RuleBase
