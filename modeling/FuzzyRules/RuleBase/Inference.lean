import FuzzyRules.RuleBase.Basic
import FuzzyRules.Universe.Interpolation

/-!
# Inference

The distance of a rule is the mean of the squared separations between the signals and the terms it
expects. Rules at distance zero decide alone; otherwise every rule adds the value of its
consequent, weighted by the inverse square of its distance. The weights are taken relative to the
nearest rule.
-/

namespace FuzzyRules

variable {α : Type} [Scalar α]

/-- A rule without predicates has no distance. -/
def Rule.distance? : List α → Option α
  | [] => none
  | d :: rest => some (Scalar.mean (d * d) (rest.map fun d => d * d))

namespace RuleBase

def predicateDistance (universes : NameMap (Universe α)) (signals : NameMap α) (scope : Scope)
    (antecedent expected : String) : Except (ModelFault α) α :=
  match universes.get? antecedent with
  | none => .error (.undefined .universeName antecedent scope)
  | some u =>
    match signals.get? antecedent with
    | none => .error (.undefined .signalName antecedent (.missingAntecedent scope))
    | some x =>
      match u.resolve expected scope with
      | .error e => .error e
      | .ok t => u.separation x t.center

/-- In antecedent order. -/
def predicateDistances (rb : RuleBase) (universes : NameMap (Universe α)) (signals : NameMap α)
    (r : Rule) : Except (ModelFault α) (List α) :=
  r.predicates.entries.mapM fun p =>
    predicateDistance universes signals (.inRuleOf r.consequent rb.name) p.1 p.2

def ruleDistance (rb : RuleBase) (universes : NameMap (Universe α)) (signals : NameMap α)
    (r : Rule) : Except (ModelFault α) α :=
  match rb.predicateDistances universes signals r with
  | .error e => .error e
  | .ok distances =>
    match Rule.distance? distances with
    | some d => .ok d
    | none => .error (.emptyAggregation rb.name (.noPredicates r.consequent))

def ruleDistances (rb : RuleBase) (universes : NameMap (Universe α)) (signals : NameMap α) :
    Except (ModelFault α) (List α) :=
  rb.rules.mapM (rb.ruleDistance universes signals)

/-- Appends a distance to the group of its consequent. -/
def addToGroup (groups : NameMap (List α)) (consequent : String) (distance : α) :
    NameMap (List α) :=
  groups.insert consequent ((groups.get? consequent).getD [] ++ [distance])

def groupByConsequent (rules : List Rule) (distances : List α) : NameMap (List α) :=
  (rules.zip distances).foldl (fun groups p => addToGroup groups p.1.consequent p.2) .empty

/-- The rule distances by consequent, each group in rule order. -/
def groupedDistances (rb : RuleBase) (universes : NameMap (Universe α)) (signals : NameMap α) :
    Except (ModelFault α) (NameMap (List α)) :=
  (rb.ruleDistances universes signals).map (groupByConsequent rb.rules)

/-- A rule's say in the outcome: the value of its consequent and its distance. -/
structure Vote (α : Type) where
  value : α
  distance : α
  deriving DecidableEq, Repr

/-- The votes of all rules, by consequent in name order. -/
def votes (rb : RuleBase) (output : Universe α) (groups : NameMap (List α)) :
    Except (ModelFault α) (List (Vote α)) :=
  (groups.entries.mapM fun g =>
    (output.resolve g.1 (.consequentOf rb.name)).map fun t => g.2.map fun d => Vote.mk t.value d)
    |>.map List.flatten

/-- Every vote counts with the squared ratio of the smallest distance to its own. -/
def weigh (nearest : α) (sums : α × α) (v : Vote α) : α × α :=
  let ratio := nearest / v.distance
  let weight := ratio * ratio
  (sums.1 + v.value * weight, sums.2 + weight)

def weighted (first : Vote α) (rest : List (Vote α)) : α × α :=
  let nearest := (rest.map Vote.distance).foldl Scalar.least first.distance
  (first :: rest).foldl (weigh nearest) (Scalar.ofCount 0, Scalar.ofCount 0)

def tally (vs : List (Vote α)) : Except (Unweighted α) α :=
  match (vs.filter fun v => v.distance == Scalar.ofCount 0).map Vote.value with
  | exact :: others => .ok (Scalar.mean exact others)
  | [] =>
    match vs with
    | [] => .error (.totalWeight (Scalar.ofCount 0))
    | first :: rest =>
      let (sum, total) := weighted first rest
      if total == Scalar.ofCount 0 || !Scalar.isFinite total then .error (.totalWeight total)
      else .ok (sum / total)

def consequence (rb : RuleBase) (universes : NameMap (Universe α)) (signals : NameMap α) :
    Except (ModelFault α) α :=
  if rb.rules.isEmpty then .error (.emptyAggregation rb.name .noRules)
  else
    match universes.get? rb.name with
    | none => .error (.undefined .universeName rb.name (.inRuleBase rb.name))
    | some output => do
      let groups ← rb.groupedDistances universes signals
      let vs ← rb.votes output groups
      (tally vs).mapError (.emptyAggregation rb.name)

end RuleBase

end FuzzyRules
