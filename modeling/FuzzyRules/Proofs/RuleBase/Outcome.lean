import FuzzyRules.Proofs.RuleBase.Grouping
import FuzzyRules.Proofs.RuleBase.Locality
import FuzzyRules.Proofs.RuleBase.Weighting

/-!
# The outcome of a rule base over exact fractions

A rule scores with the value of its consequent and with its readings: for every predicate, the
value at the signal and the value at the center of the expected term. A rule base has a consequence
if and only if it has rules and all of them score, and the consequence is the weighted mean of the
scores. It depends on the rules only up to their order.
-/

namespace FuzzyRules

theorem Universe.separation_eq_ok_iff {α : Type} [Scalar α] {u : Universe α} {a b d : α} :
    u.separation a b = .ok d ↔
      ∃ y z, u.valueAt a = .ok y ∧ u.valueAt b = .ok z ∧ d = if a ≤ b then z - y else y - z := by
  unfold separation
  by_cases h : a ≤ b
  · simp only [h, if_true]
    cases u.valueAt b <;> cases u.valueAt a <;> simp [eq_comm]
  · simp only [h, if_false]
    cases u.valueAt a <;> cases u.valueAt b <;> simp [eq_comm]

namespace RuleBase

/-- A predicate is read as the value at its signal and the value at its expected center. -/
def Reads (universes : NameMap (Universe ℚ)) (signals : NameMap ℚ) (p : String × String)
    (values : ℚ × ℚ) : Prop :=
  ∃ u x t, universes.get? p.1 = some u ∧ signals.get? p.1 = some x ∧ u.term? p.2 = some t ∧
    u.valueAt x = .ok values.1 ∧ u.valueAt t.center = .ok values.2

/-- The value of a rule's consequent and the readings of its predicates. -/
structure Score where
  value : ℚ
  readings : List (ℚ × ℚ)

/-- The mean of the squared differences. -/
def Score.distance (s : Score) : ℚ :=
  (s.readings.map fun q => (q.1 - q.2) ^ 2).sum / s.readings.length

def Score.vote (s : Score) : Vote ℚ := ⟨s.value, s.distance⟩

structure Scores (universes : NameMap (Universe ℚ)) (signals : NameMap ℚ) (owner : String)
    (r : Rule) (s : Score) : Prop where
  consequent : ∃ u t, universes.get? owner = some u ∧ u.term? r.consequent = some t ∧
    t.value = s.value
  readings : List.Forall₂ (Reads universes signals) r.predicates.entries s.readings
  nonempty : s.readings ≠ []

variable {universes : NameMap (Universe ℚ)} {signals : NameMap ℚ}

theorem predicateDistance_eq_ok_iff {scope : Scope} {p : String × String} {d : ℚ} :
    predicateDistance universes signals scope p.1 p.2 = .ok d ↔
      ∃ u x t, universes.get? p.1 = some u ∧ signals.get? p.1 = some x ∧
        u.term? p.2 = some t ∧ u.separation x t.center = .ok d := by
  unfold predicateDistance Universe.resolve
  cases hu : universes.get? p.1 with
  | none => simp
  | some u =>
    cases hx : signals.get? p.1 with
    | none => simp
    | some x =>
      cases ht : u.term? p.2 <;> simp [ht]

/-- The sign of a separation is lost in its square. -/
theorem exists_reads {scope : Scope} {p : String × String} {d : ℚ}
    (h : predicateDistance universes signals scope p.1 p.2 = .ok d) :
    ∃ values, Reads universes signals p values ∧ d * d = (values.1 - values.2) ^ 2 := by
  obtain ⟨u, x, t, hu, hx, ht, hd⟩ := predicateDistance_eq_ok_iff.1 h
  obtain ⟨y, z, hy, hz, hd⟩ := Universe.separation_eq_ok_iff.1 hd
  refine ⟨(y, z), ⟨u, x, t, hu, hx, ht, hy, hz⟩, ?_⟩
  rw [hd]
  split_ifs
  · change (z - y) * (z - y) = (y - z) ^ 2
    ring
  · change (y - z) * (y - z) = (y - z) ^ 2
    ring

theorem exists_predicateDistance {p : String × String} {values : ℚ × ℚ}
    (h : Reads universes signals p values) (scope : Scope) :
    ∃ d, predicateDistance universes signals scope p.1 p.2 = .ok d := by
  obtain ⟨u, x, t, hu, hx, ht, hy, hz⟩ := h
  have hd : u.separation x t.center =
      .ok (if x ≤ t.center then values.2 - values.1 else values.1 - values.2) :=
    Universe.separation_eq_ok_iff.2 ⟨_, _, hy, hz, rfl⟩
  exact ⟨_, predicateDistance_eq_ok_iff.2 ⟨u, x, t, hu, hx, ht, hd⟩⟩

theorem distance?_rat (d : ℚ) (rest : List ℚ) :
    Rule.distance? (d :: rest) =
      some (((d :: rest).map fun d => d * d).sum / (d :: rest).length) := by
  change some (Scalar.mean (d * d) (rest.map fun d => d * d)) = _
  rw [Scalar.mean_rat, List.map_cons, List.length_cons, List.length_map, List.length_cons]

theorem exists_readings {scope : Scope} {entries : List (String × String)} {ds : List ℚ}
    (h : List.Forall₂ (fun p d => predicateDistance universes signals scope p.1 p.2 = .ok d)
      entries ds) :
    ∃ readings, List.Forall₂ (Reads universes signals) entries readings ∧
      (ds.map fun d => d * d) = readings.map fun q => (q.1 - q.2) ^ 2 := by
  induction h with
  | nil => exact ⟨[], .nil, rfl⟩
  | cons hd _ ih =>
    obtain ⟨values, hvalues, hsquare⟩ := exists_reads hd
    obtain ⟨readings, hreadings, hsquares⟩ := ih
    exact ⟨values :: readings, .cons hvalues hreadings, by
      rw [List.map_cons, List.map_cons, hsquare, hsquares]⟩

theorem exists_distances {entries : List (String × String)} {readings : List (ℚ × ℚ)}
    (h : List.Forall₂ (Reads universes signals) entries readings) (scope : Scope) :
    ∃ ds, List.Forall₂ (fun p d => predicateDistance universes signals scope p.1 p.2 = .ok d)
      entries ds := by
  induction h with
  | nil => exact ⟨[], .nil⟩
  | cons hreads _ ih =>
    obtain ⟨d, hd⟩ := exists_predicateDistance hreads scope
    obtain ⟨ds, hds⟩ := ih
    exact ⟨d :: ds, .cons hd hds⟩

/-- A rule has a distance if and only if its predicates can all be read and there is one. -/
theorem ruleDistance_eq_ok {rb : RuleBase} {r : Rule} {d : ℚ}
    (h : rb.ruleDistance universes signals r = .ok d) :
    ∃ readings, List.Forall₂ (Reads universes signals) r.predicates.entries readings ∧
      readings ≠ [] ∧
      d = (readings.map fun q => (q.1 - q.2) ^ 2).sum / readings.length := by
  unfold ruleDistance at h
  cases hds : rb.predicateDistances universes signals r with
  | error e => simp [hds] at h
  | ok ds =>
    obtain ⟨readings, hreadings, hsquares⟩ := exists_readings (Traversal.mapM_eq_ok_iff.1 hds)
    have hlength : ds.length = readings.length := by
      simpa using congrArg List.length hsquares
    cases ds with
    | nil => simp [hds, Rule.distance?] at h
    | cons d' rest =>
      simp only [hds, distance?_rat, Except.ok.injEq] at h
      refine ⟨readings, hreadings, ?_, ?_⟩
      · rintro rfl
        simp at hlength
      · rw [← h, hsquares, hlength]

theorem exists_ruleDistance {r : Rule} {readings : List (ℚ × ℚ)}
    (h : List.Forall₂ (Reads universes signals) r.predicates.entries readings)
    (hne : readings ≠ []) (rb : RuleBase) :
    ∃ d, rb.ruleDistance universes signals r = .ok d := by
  obtain ⟨ds, hds⟩ := exists_distances h (.inRuleOf r.consequent rb.name)
  have hmap : rb.predicateDistances universes signals r = .ok ds :=
    Traversal.mapM_eq_ok_iff.2 hds
  cases ds with
  | nil =>
    have hlength := h.length_eq.symm.trans hds.length_eq
    exact absurd (List.length_eq_zero_iff.1 hlength) hne
  | cons d rest => exact ⟨_, by rw [ruleDistance, hmap]; simp only [distance?_rat]; rfl⟩

theorem exists_scores {rb : RuleBase} {output : Universe ℚ} {rules : List Rule} {ds : List ℚ}
    (hout : universes.get? rb.name = some output)
    (hds : List.Forall₂ (fun r d => rb.ruleDistance universes signals r = .ok d) rules ds)
    (hterm : ∀ r ∈ rules, ∃ t, output.term? r.consequent = some t) :
    ∃ scores, List.Forall₂ (Scores universes signals rb.name) rules scores ∧
      ((rules.zip ds).map fun p => (p.1.consequent, p.2)).filterMap (voteOf output) =
        scores.map Score.vote := by
  induction hds with
  | nil => exact ⟨[], .nil, rfl⟩
  | @cons r d rules ds hd _ ih =>
    obtain ⟨t, ht⟩ := hterm r List.mem_cons_self
    obtain ⟨readings, hreadings, hne, rfl⟩ := ruleDistance_eq_ok hd
    obtain ⟨scores, hscores, hvotes⟩ := ih fun r hr => hterm r (List.mem_cons_of_mem _ hr)
    refine ⟨⟨t.value, readings⟩ :: scores, .cons ?_ hscores, ?_⟩
    · exact ⟨⟨output, t, hout, ht, rfl⟩, hreadings, hne⟩
    · rw [List.zip_cons_cons, List.map_cons, List.map_cons, ← hvotes]
      simp [voteOf, ht, Score.vote, Score.distance]

theorem exists_ruleDistances {rb : RuleBase} {rules : List Rule} {scores : List Score}
    (h : List.Forall₂ (Scores universes signals rb.name) rules scores) :
    ∃ ds, List.Forall₂ (fun r d => rb.ruleDistance universes signals r = .ok d) rules ds := by
  induction h with
  | nil => exact ⟨[], .nil⟩
  | cons hscore _ ih =>
    obtain ⟨d, hd⟩ := exists_ruleDistance hscore.readings hscore.nonempty rb
    obtain ⟨ds, hds⟩ := ih
    exact ⟨d :: ds, .cons hd hds⟩

theorem Reads.unique {p : String × String} {q q' : ℚ × ℚ} (h : Reads universes signals p q)
    (h' : Reads universes signals p q') : q = q' := by
  obtain ⟨u, x, t, hu, hx, ht, hy, hz⟩ := h
  obtain ⟨u', x', t', hu', hx', ht', hy', hz'⟩ := h'
  cases hu.symm.trans hu'
  cases hx.symm.trans hx'
  cases ht.symm.trans ht'
  exact Prod.ext (Except.ok.inj (hy.symm.trans hy')) (Except.ok.inj (hz.symm.trans hz'))

/-- A rule has at most one score. -/
theorem Scores.unique {owner : String} {r : Rule} {s s' : Score}
    (h : Scores universes signals owner r s) (h' : Scores universes signals owner r s') :
    s = s' := by
  obtain ⟨u, t, hu, ht, hv⟩ := h.consequent
  obtain ⟨u', t', hu', ht', hv'⟩ := h'.consequent
  have hreadings : s.readings = s'.readings :=
    List.right_unique_forall₂' (R := Reads universes signals) (fun _ _ _ => Reads.unique)
      h.readings h'.readings
  cases hu.symm.trans hu'
  cases ht.symm.trans ht'
  cases s
  cases s'
  simp_all

theorem scores_unique {owner : String} {rules : List Rule} {scores scores' : List Score}
    (h : List.Forall₂ (Scores universes signals owner) rules scores)
    (h' : List.Forall₂ (Scores universes signals owner) rules scores') : scores = scores' :=
  List.right_unique_forall₂' (R := Scores universes signals owner)
    (fun _ _ _ => Scores.unique) h h'

theorem consequence_eq_ok {rb : RuleBase} {z : ℚ}
    (h : rb.consequence universes signals = .ok z) :
    rb.rules ≠ [] ∧ ∃ scores, List.Forall₂ (Scores universes signals rb.name) rb.rules scores ∧
      z = weightedMean (scores.map Score.vote) := by
  obtain ⟨hne, output, ds, vs, hout, hds, hvs, hz⟩ := consequence_eq_ok_iff.1 h
  have hall := Traversal.mapM_eq_ok_iff.1 hds
  have hterm := (exists_votes_iff rb hall.length_eq).1 ⟨vs, hvs⟩
  obtain ⟨-, rfl⟩ := votes_eq_ok hvs
  obtain ⟨scores, hscores, hvotes⟩ := exists_scores hout hall hterm
  have hperm := (members_groupByConsequent rb.rules ds).filterMap (voteOf output)
  rw [hvotes] at hperm
  refine ⟨hne, scores, hscores, ?_⟩
  have hvs_ne :
      (members (groupByConsequent rb.rules ds).entries).filterMap (voteOf output) ≠ [] := by
    intro hnil
    rw [hnil] at hperm
    have hscores_nil := List.map_eq_nil_iff.1 hperm.symm.eq_nil
    subst hscores_nil
    exact hne (List.forall₂_nil_right_iff.1 hscores)
  rw [tally_rat hvs_ne, weightedMean_perm hperm] at hz
  exact (Except.ok.inj hz).symm

theorem exists_consequence {rb : RuleBase} {scores : List Score} (hne : rb.rules ≠ [])
    (hscores : List.Forall₂ (Scores universes signals rb.name) rb.rules scores) :
    ∃ z, rb.consequence universes signals = .ok z := by
  obtain ⟨ds, hall⟩ := exists_ruleDistances hscores
  obtain ⟨r, hr⟩ := List.exists_mem_of_ne_nil _ hne
  obtain ⟨s, -, hs⟩ := Traversal.exists_of_mem_left hscores hr
  obtain ⟨output, -, hout, -, -⟩ := hs.consequent
  have hterm : ∀ r ∈ rb.rules, ∃ t, output.term? r.consequent = some t := by
    intro r hr
    obtain ⟨s, -, hs⟩ := Traversal.exists_of_mem_left hscores hr
    obtain ⟨u, t, hu, ht, -⟩ := hs.consequent
    cases hout.symm.trans hu
    exact ⟨t, ht⟩
  obtain ⟨vs, hvs⟩ := (exists_votes_iff rb hall.length_eq).2 hterm
  have hvs_ne := votes_ne_nil hne hall.length_eq hvs
  exact ⟨_, consequence_eq_ok_iff.2
    ⟨hne, output, ds, vs, hout, Traversal.mapM_eq_ok_iff.2 hall, hvs, tally_rat hvs_ne⟩⟩

theorem consequence_iff_scores {rb : RuleBase} {z : ℚ} :
    rb.consequence universes signals = .ok z ↔
      rb.rules ≠ [] ∧ ∃ scores, List.Forall₂ (Scores universes signals rb.name) rb.rules scores ∧
        z = weightedMean (scores.map Score.vote) := by
  refine ⟨consequence_eq_ok, ?_⟩
  rintro ⟨hne, scores, hscores, rfl⟩
  obtain ⟨z, hz⟩ := exists_consequence hne hscores
  obtain ⟨-, scores', hscores', rfl⟩ := consequence_eq_ok hz
  rwa [scores_unique hscores hscores']

theorem consequence_of_perm {rb other : RuleBase} (hname : other.name = rb.name)
    (hperm : other.rules.Perm rb.rules) {z : ℚ} (h : rb.consequence universes signals = .ok z) :
    other.consequence universes signals = .ok z := by
  obtain ⟨hne, scores, hscores, rfl⟩ := consequence_iff_scores.1 h
  obtain ⟨scores', hscores', hperm'⟩ := List.perm_comp_forall₂ hperm hscores
  refine consequence_iff_scores.2 ⟨?_, scores', hname ▸ hscores', ?_⟩
  · intro hnil
    rw [hnil] at hperm
    exact hne hperm.symm.eq_nil
  · exact weightedMean_perm (hperm'.symm.map Score.vote)

theorem sum_squares_nonneg (readings : List (ℚ × ℚ)) :
    0 ≤ (readings.map fun q => (q.1 - q.2) ^ 2).sum := by
  apply List.sum_nonneg
  intro x hx
  obtain ⟨q, -, rfl⟩ := List.mem_map.1 hx
  positivity

theorem sum_squares_eq_zero_iff {readings : List (ℚ × ℚ)} :
    (readings.map fun q => (q.1 - q.2) ^ 2).sum = 0 ↔ ∀ q ∈ readings, q.1 = q.2 := by
  induction readings with
  | nil => simp
  | cons q rest ih =>
    rw [List.map_cons, List.sum_cons,
      add_eq_zero_iff_of_nonneg (by positivity) (sum_squares_nonneg rest), ih,
      List.forall_mem_cons, sq_eq_zero_iff, sub_eq_zero]

theorem Score.distance_eq_zero_iff {s : Score} (h : s.readings ≠ []) :
    s.distance = 0 ↔ ∀ q ∈ s.readings, q.1 = q.2 := by
  have hlength : (s.readings.length : ℚ) ≠ 0 := by simpa using h
  rw [distance, div_eq_zero_iff, or_iff_left hlength, sum_squares_eq_zero_iff]

/-- A rule base has a consequence if and only if it has rules and all of them score. It is the
weighted mean of the scores, in which a rule at distance zero is one whose readings all agree, and
it is the same for the rules in any order. -/
theorem consequence_weightedMean (rb : RuleBase) (universes : NameMap (Universe ℚ))
    (signals : NameMap ℚ) :
    (∀ z, rb.consequence universes signals = .ok z ↔
      rb.rules ≠ [] ∧ ∃ scores, List.Forall₂ (Scores universes signals rb.name) rb.rules scores ∧
        z = weightedMean (scores.map Score.vote)) ∧
    (∀ r s, Scores universes signals rb.name r s →
      (s.distance = 0 ↔ ∀ q ∈ s.readings, q.1 = q.2)) ∧
    (∀ other : RuleBase, other.name = rb.name → other.rules.Perm rb.rules →
      ∀ z, other.consequence universes signals = .ok z ↔
        rb.consequence universes signals = .ok z) := by
  refine ⟨fun z => consequence_iff_scores, ?_, ?_⟩
  · intro r s hs
    exact Score.distance_eq_zero_iff hs.nonempty
  · intro other hname hperm z
    exact ⟨consequence_of_perm hname.symm hperm.symm, consequence_of_perm hname hperm⟩

end RuleBase

end FuzzyRules
