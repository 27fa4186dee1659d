import FuzzyRules.Proofs.RuleBase.Outcome

/-!
# The votes of the rules

The votes of a rule base are counted one group after the other. They are the votes of its rules in
another order: every rule votes once, with the value of its own consequent and with its own
distance.
-/

namespace FuzzyRules.RuleBase

variable {α : Type} {rules : List Rule} {distances : List α} {output : Universe α}

/-- Groups that hold the distances of rules, each one under the consequent of its rule, in rule
order. -/
structure Grouped (rules : List Rule) (distances : List α) (groups : NameMap (List α)) : Prop where
  keys (name : String) : name ∈ groups.keys ↔ ∃ r ∈ rules, r.consequent = name
  group {name : String} {group : List α} (h : groups.get? name = some group) :
    group = ((rules.zip distances).filter fun p => p.1.consequent = name).map Prod.snd

/-- One vote of every rule, in rule order. -/
def Polled (output : Universe α) (rules : List Rule) (distances : List α)
    (vs : List (Vote α)) : Prop :=
  List.Forall₂ (fun p v => voteOf output (p.1.consequent, p.2) = some v) (rules.zip distances) vs

theorem grouped_groupByConsequent (hlength : rules.length = distances.length) :
    Grouped rules distances (groupByConsequent rules distances) where
  keys name := by
    rw [NameMap.keys, List.mem_map]
    exact exists_group_iff hlength
  group := get?_groupByConsequent

theorem polled_of_terms (hterm : ∀ r ∈ rules, ∃ t, output.term? r.consequent = some t)
    (distances : List α) : Polled output rules distances
      (((rules.zip distances).map fun p => (p.1.consequent, p.2)).filterMap (voteOf output)) := by
  have hpairs : ∀ p ∈ rules.zip distances, ∃ t, output.term? p.1.consequent = some t :=
    fun p hp => hterm p.1 (List.of_mem_zip hp).1
  unfold Polled
  generalize rules.zip distances = pairs at hpairs ⊢
  induction pairs with
  | nil => exact .nil
  | cons p rest ih =>
    obtain ⟨⟨t, ht⟩, hrest⟩ := List.forall_mem_cons.1 hpairs
    have hvote : voteOf output (p.1.consequent, p.2) = some ⟨t.value, p.2⟩ := by
      rw [voteOf, ht]
      rfl
    rw [List.map_cons, List.filterMap_cons_some hvote]
    exact .cons hvote (ih hrest)

theorem exists_polled {rb : RuleBase} {vs : List (Vote α)}
    (hlength : rules.length = distances.length)
    (hvs : rb.votes output (groupByConsequent rules distances) = .ok vs) :
    ∃ own, Polled output rules distances own ∧ vs.Perm own := by
  refine ⟨_, polled_of_terms ((exists_votes_iff rb hlength).1 ⟨vs, hvs⟩) distances, ?_⟩
  rw [(votes_eq_ok hvs).2]
  exact (members_groupByConsequent rules distances).filterMap (voteOf output)

variable [Scalar α] {rb : RuleBase} {universes : NameMap (Universe α)} {signals : NameMap α}

theorem consequence_eq_tally {groups : NameMap (List α)} {vs : List (Vote α)}
    (hne : rb.rules ≠ []) (hout : universes.get? rb.name = some output)
    (hgroups : rb.groupedDistances universes signals = .ok groups)
    (hvs : rb.votes output groups = .ok vs) :
    rb.consequence universes signals = (tally vs).mapError (.emptyAggregation rb.name) := by
  rw [consequence, if_neg (by simpa using hne), hout]
  simp only [hgroups, bind, Except.bind, hvs]

/-- Grouping fails exactly as the distances do, and it loses nothing: there is a group for each
consequent, which holds the distances of the rules with this consequent in rule order, and the votes
that make the consequence are one vote of every rule. -/
theorem groupedDistances_lossless (rb : RuleBase) (universes : NameMap (Universe α))
    (signals : NameMap α) :
    (∀ fault, rb.groupedDistances universes signals = .error fault ↔
      rb.ruleDistances universes signals = .error fault) ∧
    ∀ ds, rb.ruleDistances universes signals = .ok ds →
      List.Forall₂ (fun r d => rb.ruleDistance universes signals r = .ok d) rb.rules ds ∧
      ∃ groups, rb.groupedDistances universes signals = .ok groups ∧ Grouped rb.rules ds groups ∧
        ∀ output, universes.get? rb.name = some output →
          ((∃ vs, rb.votes output groups = .ok vs) ↔
            ∀ r ∈ rb.rules, ∃ t, output.term? r.consequent = some t) ∧
          ∀ vs, rb.votes output groups = .ok vs →
            (∃ own, Polled output rb.rules ds own ∧ vs.Perm own) ∧
            (rb.rules ≠ [] → rb.consequence universes signals =
              (tally vs).mapError (.emptyAggregation rb.name)) := by
  refine ⟨fun fault => ?_, fun ds hds => ?_⟩
  · unfold groupedDistances
    cases rb.ruleDistances universes signals <;> simp [Except.map]
  · have hall := Traversal.mapM_eq_ok_iff.1 hds
    have hgroups : rb.groupedDistances universes signals = .ok (groupByConsequent rb.rules ds) := by
      rw [groupedDistances, hds]
      rfl
    refine ⟨hall, _, hgroups, grouped_groupByConsequent hall.length_eq, fun output hout => ?_⟩
    refine ⟨exists_votes_iff rb hall.length_eq, fun vs hvs => ⟨?_, fun hne => ?_⟩⟩
    · exact exists_polled hall.length_eq hvs
    · exact consequence_eq_tally hne hout hgroups hvs

/-- The first and the last rule have the same consequent. -/
def junction : RuleBase :=
  ⟨"z", none, [⟨"low", none, .ofList [("x", "low")]⟩,
    ⟨"high", none, .ofList [("x", "high"), ("y", "high")]⟩,
    ⟨"low", none, .ofList [("y", "low")]⟩]⟩

/-- A universe with two terms that have the given values. -/
def ramp (name : String) (low high : ℚ) : Universe ℚ :=
  ⟨name, none, [⟨"low", 0, low⟩, ⟨"high", 4, high⟩]⟩

def ramps : NameMap (Universe ℚ) :=
  .ofList [("x", ramp "x" 0 1), ("y", ramp "y" 0 1), ("z", ramp "z" 2 10)]

def approach : NameMap ℚ := .ofList [("x", 2), ("y", 4)]

theorem ruleDistances_junction :
    junction.ruleDistances ramps approach = .ok [1 / 4, 1 / 8, 1] := by
  decide +kernel

theorem groupedDistances_lossless_junction :
    junction.ruleDistances ramps approach = .ok [1 / 4, 1 / 8, 1] ∧
    ∃ groups vs own, junction.groupedDistances ramps approach = .ok groups ∧
      Grouped junction.rules [1 / 4, 1 / 8, 1] groups ∧
      junction.votes (ramp "z" 2 10) groups = .ok vs ∧
      Polled (ramp "z" 2 10) junction.rules [1 / 4, 1 / 8, 1] own ∧ vs.Perm own := by
  obtain ⟨-, hlossless⟩ := groupedDistances_lossless junction ramps approach
  obtain ⟨-, groups, hgroups, hgrouped, hvotes⟩ := hlossless _ ruleDistances_junction
  obtain ⟨hexists, hpolled⟩ := hvotes (ramp "z" 2 10) rfl
  have hterms : ∀ r ∈ junction.rules, ((ramp "z" 2 10).term? r.consequent).isSome = true := by
    decide
  obtain ⟨vs, hvs⟩ := hexists.2 fun r hr => Option.isSome_iff_exists.1 (hterms r hr)
  obtain ⟨⟨own, hown, hperm⟩, -⟩ := hpolled vs hvs
  exact ⟨ruleDistances_junction, groups, vs, own, hgroups, hgrouped, hvs, hown, hperm⟩

end FuzzyRules.RuleBase
