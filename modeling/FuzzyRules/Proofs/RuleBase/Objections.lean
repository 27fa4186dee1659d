import Mathlib.Data.Finset.Sort
import Mathlib.Data.String.Basic
import FuzzyRules.Proofs.RuleBase.Outcome

/-!
# Objections to a consequence

All that stands against a consequence, in the order in which it is looked for: that there are no
rules, that the rule base has no universe, then what stands against the rules in their order and
against their predicates in antecedent order, and at last the consequents that are no terms, in name
order. Over exact fractions a rule base fails with the first objection, and it has a consequence if
there is none. So the weights never fail to have a sum.
-/

namespace FuzzyRules

open Traversal

namespace Universe

theorem heeds_resolve {α : Type} (u : Universe α) (name : String) (scope : Scope) :
    Heeds (u.resolve name scope) (if (u.term? name).isSome then []
      else [.undefined .termName name (.termOf scope u.name)]) := by
  unfold resolve
  cases u.term? name with
  | none => exact heeds_error _ _
  | some t => exact heeds_ok t

/-- The value at the larger coordinate is looked for first. -/
theorem heeds_separation (u : Universe ℚ) (x y : ℚ) :
    Heeds (u.separation x y)
      (errors (u.valueAt (max x y)) ++ errors (u.valueAt (min x y))) := by
  have hbind : u.separation x y = (do
      let top ← u.valueAt (max x y)
      let bottom ← u.valueAt (min x y)
      return top - bottom) := by
    unfold separation
    by_cases h : x ≤ y
    · simp only [if_pos h, max_eq_right h, min_eq_left h]
      cases u.valueAt y <;> cases u.valueAt x <;> rfl
    · have h' := le_of_not_ge h
      simp only [if_neg h, max_eq_left h', min_eq_right h']
      cases u.valueAt x <;> cases u.valueAt y <;> rfl
  rw [hbind]
  refine (heeds_errors _).bind fun top _ => ?_
  exact heeds_map_iff.2 (heeds_errors _)

end Universe

namespace RuleBase

/-- The objections to a predicate: no universe, no signal, no such term, and no value at the larger
or at the smaller one of the signal and the center of the term. -/
def predicateObjections (universes : NameMap (Universe ℚ)) (signals : NameMap ℚ) (scope : Scope)
    (antecedent expected : String) : List (ModelFault ℚ) :=
  (if universes.contains antecedent then []
    else [.undefined .universeName antecedent scope]) ++
  (if signals.contains antecedent then []
    else [.undefined .signalName antecedent (.missingAntecedent scope)]) ++
  (universes.get? antecedent).toList.flatMap fun u =>
    (if (u.term? expected).isSome then []
      else [.undefined .termName expected (.termOf scope u.name)]) ++
    (signals.get? antecedent).toList.flatMap fun x => (u.term? expected).toList.flatMap fun t =>
      errors (u.valueAt (max x t.center)) ++ errors (u.valueAt (min x t.center))

def ruleObjections (rb : RuleBase) (universes : NameMap (Universe ℚ)) (signals : NameMap ℚ)
    (r : Rule) : List (ModelFault ℚ) :=
  (r.predicates.entries.flatMap fun p =>
    predicateObjections universes signals (.inRuleOf r.consequent rb.name) p.1 p.2) ++
  if r.predicates.isEmpty then [.emptyAggregation rb.name (.noPredicates r.consequent)] else []

def consequents (rb : RuleBase) : List String :=
  (rb.rules.map Rule.consequent).toFinset.sort

/-- The objections to the consequents as terms of the rule base's own universe. -/
def consequentObjections (rb : RuleBase) (output : Universe ℚ) : List (ModelFault ℚ) :=
  rb.consequents.flatMap fun c => if (output.term? c).isSome then []
    else [.undefined .termName c (.termOf (.consequentOf rb.name) output.name)]

def objections (rb : RuleBase) (universes : NameMap (Universe ℚ)) (signals : NameMap ℚ) :
    List (ModelFault ℚ) :=
  (if rb.rules = [] then [.emptyAggregation rb.name .noRules] else []) ++
  (if universes.contains rb.name then []
    else [.undefined .universeName rb.name (.inRuleBase rb.name)]) ++
  rb.rules.flatMap (rb.ruleObjections universes signals) ++
  (universes.get? rb.name).toList.flatMap rb.consequentObjections

variable {rb : RuleBase} {universes : NameMap (Universe ℚ)} {signals : NameMap ℚ}

theorem heeds_predicateDistance (scope : Scope) (antecedent expected : String) :
    Heeds (predicateDistance universes signals scope antecedent expected)
      (predicateObjections universes signals scope antecedent expected) := by
  unfold predicateDistance predicateObjections NameMap.contains
  cases universes.get? antecedent with
  | none => exact heeds_error _ _
  | some u =>
    cases signals.get? antecedent with
    | none => exact heeds_error _ _
    | some x =>
      cases ht : u.term? expected with
      | none => simpa [Universe.resolve, ht] using heeds_error _ _
      | some t => simpa [ht] using u.heeds_separation x t.center

theorem heeds_ruleDistance (r : Rule) :
    Heeds (rb.ruleDistance universes signals r) (rb.ruleObjections universes signals r) := by
  have hbind : rb.ruleDistance universes signals r =
      rb.predicateDistances universes signals r >>= fun ds =>
        match Rule.distance? ds with
        | some d => .ok d
        | none => .error (.emptyAggregation rb.name (.noPredicates r.consequent)) := by
    unfold ruleDistance
    cases h : rb.predicateDistances universes signals r with
    | error e => rfl
    | ok ds => cases hd : Rule.distance? ds <;> simp [bind, Except.bind, hd]
  rw [hbind]
  refine (heeds_mapM fun p _ => heeds_predicateDistance _ p.1 p.2).bind fun ds hds => ?_
  have hall := mapM_eq_ok_iff.1 hds
  rw [NameMap.isEmpty]
  generalize r.predicates.entries = entries at hall ⊢
  cases hall with
  | nil => exact heeds_error _ _
  | cons _ _ => exact heeds_ok _

theorem keys_groupByConsequent {ds : List ℚ} (hlength : rb.rules.length = ds.length) :
    (groupByConsequent rb.rules ds).keys = rb.consequents := by
  have hmem (c : String) : c ∈ (groupByConsequent rb.rules ds).keys ↔ c ∈ rb.consequents := by
    rw [consequents, Finset.mem_sort, List.mem_toFinset, NameMap.keys, List.mem_map, List.mem_map]
    exact exists_group_iff hlength
  have hperm := (List.perm_ext_iff_of_nodup (NameMap.nodup_keys _) (Finset.sort_nodup _ _)).2 hmem
  have hsorted : rb.consequents.Pairwise (· < ·) :=
    (rb.rules.map Rule.consequent).toFinset.sortedLT_sort.pairwise
  exact hperm.eq_of_pairwise (fun a b _ _ hab hba => absurd hba (String.lt_asymm hab))
    (NameMap.pairwise_keys _) hsorted

theorem heeds_votes (output : Universe ℚ) {ds : List ℚ} (hlength : rb.rules.length = ds.length) :
    Heeds (rb.votes output (groupByConsequent rb.rules ds)) (rb.consequentObjections output) := by
  rw [consequentObjections, ← keys_groupByConsequent hlength, NameMap.keys, List.flatMap_map]
  refine heeds_map_iff.2 (heeds_mapM fun g _ => ?_)
  exact heeds_map_iff.2 (output.heeds_resolve g.1 _)

/-- A rule base fails with the first objection to it. -/
theorem heeds_consequence (rb : RuleBase) (universes : NameMap (Universe ℚ))
    (signals : NameMap ℚ) :
    Heeds (rb.consequence universes signals) (rb.objections universes signals) := by
  unfold consequence objections NameMap.contains
  simp only [List.isEmpty_iff]
  by_cases hrules : rb.rules = []
  · rw [if_pos hrules, if_pos hrules]
    exact heeds_error _ _
  · rw [if_neg hrules, if_neg hrules]
    cases universes.get? rb.name with
    | none => exact heeds_error _ _
    | some output =>
      have hdistances : Heeds (rb.groupedDistances universes signals)
          (rb.rules.flatMap (rb.ruleObjections universes signals)) :=
        heeds_map_iff.2 (heeds_mapM fun r _ => heeds_ruleDistance r)
      simp only [Option.isSome_some, if_true, List.nil_append, Option.toList_some,
        List.flatMap_singleton]
      refine hdistances.bind fun groups hgroups => ?_
      obtain ⟨ds, hds, rfl⟩ := map_eq_ok_iff.1 hgroups
      have hlength := (mapM_eq_ok_iff.1 hds).length_eq
      rw [← List.append_nil (rb.consequentObjections output)]
      refine (heeds_votes output hlength).bind fun vs hvs => ?_
      -- votes that there are can always be weighed
      rw [tally_rat (votes_ne_nil hrules hlength hvs)]
      exact heeds_ok _

theorem errors_valueAt_ne {u : Universe ℚ} {x : ℚ} {fault : ModelFault ℚ}
    (h : fault ∈ errors (u.valueAt x)) (owner : String) (reason : Unweighted ℚ) :
    fault ≠ .emptyAggregation owner reason := by
  have hvalue : u.valueAt x ≠ .error (.emptyAggregation owner reason) := by
    unfold Universe.valueAt Universe.valueWithin Universe.agreed
    split
    · nofun
    · nofun
    · split_ifs
      · split
        · split <;> nofun
        · split <;> nofun
      · nofun
  cases hx : u.valueAt x with
  | ok y =>
    rw [hx] at h
    cases h
  | error cause =>
    rw [hx] at h hvalue
    cases List.mem_singleton.1 h
    exact fun hfault => hvalue (congrArg Except.error hfault)

theorem predicateObjections_ne {scope : Scope} {antecedent expected : String}
    {fault : ModelFault ℚ}
    (h : fault ∈ predicateObjections universes signals scope antecedent expected)
    (owner : String) (reason : Unweighted ℚ) : fault ≠ .emptyAggregation owner reason := by
  simp only [predicateObjections, List.mem_append, List.mem_ite_nil_left, List.mem_singleton,
    List.mem_flatMap] at h
  rcases h with (⟨-, rfl⟩ | ⟨-, rfl⟩) | ⟨u, -, ⟨-, rfl⟩ | ⟨x, -, t, -, h | h⟩⟩
  · nofun
  · nofun
  · nofun
  · exact errors_valueAt_ne h owner reason
  · exact errors_valueAt_ne h owner reason

/-- No objection is that the weights have no sum. -/
theorem objections_ne {fault : ModelFault ℚ} (h : fault ∈ rb.objections universes signals)
    (owner : String) (total : ℚ) : fault ≠ .emptyAggregation owner (.totalWeight total) := by
  simp only [objections, ruleObjections, consequentObjections, List.mem_append,
    List.mem_ite_nil_left, List.mem_ite_nil_right, List.mem_singleton, List.mem_flatMap] at h
  rcases h with ((⟨-, rfl⟩ | ⟨-, rfl⟩) | ⟨r, -, ⟨p, -, h⟩ | ⟨-, rfl⟩⟩) | ⟨u, -, c, -, -, rfl⟩
  · nofun
  · nofun
  · exact predicateObjections_ne h owner _
  · nofun
  · nofun

/-- There is no consequence exactly if there is an objection, and the first one is the error. It is
never that the weights have no sum. -/
theorem consequence_fails_iff (rb : RuleBase) (universes : NameMap (Universe ℚ))
    (signals : NameMap ℚ) :
    (∀ fault, rb.consequence universes signals = .error fault ↔
      (rb.objections universes signals).head? = some fault) ∧
    ((∃ z, rb.consequence universes signals = .ok z) ↔ rb.objections universes signals = []) ∧
    ∀ owner total, rb.consequence universes signals ≠
      .error (.emptyAggregation owner (.totalWeight total)) := by
  have hheeds := heeds_consequence rb universes signals
  refine ⟨hheeds, hheeds.exists_ok_iff, ?_⟩
  intro owner total h
  exact objections_ne (List.mem_of_head? ((hheeds _).1 h)) owner total rfl

end RuleBase

end FuzzyRules
