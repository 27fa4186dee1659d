import Mathlib.Data.Set.Finite.Lemmas
import Mathlib.Tactic.Linarith
import FuzzyRules.Proofs.RuleBase.Ballot
import FuzzyRules.Proofs.RuleBase.Hull

/-!
# How far a consequence is from its rules

Over exact fractions a consequence lies between the smallest and the largest value of the rules. If
no rule matches exactly, every rule pulls it towards its own value, so the consequence is near the
value of a rule whose distance is small beside those of the others.
-/

namespace FuzzyRules.RuleBase

variable {rb : RuleBase} {universes : NameMap (Universe ℚ)} {signals signals' : NameMap ℚ}
  {owner : String} {rules : List Rule} {scores scores' : List Score} {s : Score}

/-- No rule is at distance zero. -/
def Inexact (scores : List Score) : Prop := ∀ s ∈ scores, s.distance ≠ 0

instance : Decidable (Inexact scores) :=
  inferInstanceAs (Decidable (∀ s ∈ scores, s.distance ≠ 0))

/-- Scores with the smallest and with the largest value. -/
structure Extremes (scores : List Score) (low high : Score) : Prop where
  low_mem : low ∈ scores
  high_mem : high ∈ scores
  bounds : ∀ s ∈ scores, low.value ≤ s.value ∧ s.value ≤ high.value

/-- How far other scores can draw a mean from the value of a score: their differences from it, each
by the squared ratio of its distance to theirs. -/
def Score.pull (s : Score) (others : List Score) : ℚ :=
  (others.map fun t => (s.distance / t.distance) ^ 2 * |t.value - s.value|).sum

theorem exists_extremes (hne : scores ≠ []) : ∃ low high, Extremes scores low high := by
  have hfinite : {s | s ∈ scores}.Finite := List.finite_toSet scores
  have hnonempty : {s | s ∈ scores}.Nonempty := List.exists_mem_of_ne_nil _ hne
  obtain ⟨low, hlow, hleast⟩ := Set.exists_min_image _ Score.value hfinite hnonempty
  obtain ⟨high, hhigh, hgreatest⟩ := Set.exists_max_image _ Score.value hfinite hnonempty
  exact ⟨low, high, hlow, hhigh, fun s hs => ⟨hleast s hs, hgreatest s hs⟩⟩

theorem Extremes.weightedMean_bounds {low high : Score} (h : Extremes scores low high) :
    low.value ≤ weightedMean (scores.map Score.vote) ∧
      weightedMean (scores.map Score.vote) ≤ high.value := by
  refine RuleBase.weightedMean_bounds ?_ (List.forall_mem_map.2 h.bounds)
  exact mt List.map_eq_nil_iff.1 (List.ne_nil_of_mem h.low_mem)

theorem Extremes.weightedMean_strict_bounds {low high : Score} (h : Extremes scores low high)
    (hinexact : Inexact scores) (hne : low.value ≠ high.value) :
    low.value < weightedMean (scores.map Score.vote) ∧
      weightedMean (scores.map Score.vote) < high.value := by
  have hlt : low.value < high.value := lt_of_le_of_ne (h.bounds high h.high_mem).1 hne
  apply RuleBase.weightedMean_strict_bounds
  · exact List.forall_mem_map.2 hinexact
  · exact List.forall_mem_map.2 h.bounds
  · exact ⟨high.vote, List.mem_map_of_mem h.high_mem, hlt⟩
  · exact ⟨low.vote, List.mem_map_of_mem h.low_mem, hlt⟩

/-- Relative to the first vote its own weight is one, and the other votes add their weights. -/
theorem abs_weightedMean_cons_sub_le {v : Vote ℚ} {others : List (Vote ℚ)}
    (hd : ∀ x ∈ v :: others, x.distance ≠ 0) :
    |weightedMean (v :: others) - v.value| ≤
      (others.map fun x => (v.distance / x.distance) ^ 2 * |x.value - v.value|).sum := by
  have hv : v.distance ≠ 0 := hd v List.mem_cons_self
  have hone : 1 ≤ ((v :: others).map fun x => (v.distance / x.distance) ^ 2).sum := by
    rw [List.map_cons, List.sum_cons, div_self hv, one_pow]
    refine le_add_of_nonneg_right (List.sum_nonneg ?_)
    exact List.forall_mem_map.2 fun x _ => sq_nonneg _
  rw [weightedMean_of_inexact hd hv]
  refine (abs_weighted_quotient_sub_le (fun x _ => sq_nonneg _) hone v.value).trans_eq ?_
  rw [List.map_cons, List.sum_cons, sub_self, abs_zero, mul_zero, zero_add]

theorem abs_weightedMean_sub_le {before after : List Score}
    (hinexact : Inexact (before ++ s :: after)) :
    |weightedMean ((before ++ s :: after).map Score.vote) - s.value| ≤
      s.pull (before ++ after) := by
  have hperm : ((before ++ s :: after).map Score.vote).Perm
      (s.vote :: (before ++ after).map Score.vote) := List.perm_middle.map Score.vote
  have hd : ∀ x ∈ s.vote :: (before ++ after).map Score.vote, x.distance ≠ 0 := by
    intro x hx
    obtain ⟨t, ht, rfl⟩ := List.mem_map.1 (hperm.mem_iff.2 hx)
    exact hinexact t ht
  rw [weightedMean_perm hperm]
  refine (abs_weightedMean_cons_sub_le hd).trans_eq ?_
  rw [List.map_map]
  rfl

theorem Score.distance_nonneg (s : Score) : 0 ≤ s.distance :=
  div_nonneg (sum_squares_nonneg s.readings) (Nat.cast_nonneg _)

theorem values_eq (h : List.Forall₂ (Scores universes signals owner) rules scores)
    (h' : List.Forall₂ (Scores universes signals' owner) rules scores') :
    scores.map Score.value = scores'.map Score.value := by
  induction h generalizing scores' with
  | nil =>
    cases h'
    rfl
  | cons hs _ ih =>
    cases h' with
    | cons hs' hrest' =>
      obtain ⟨u, t, hu, ht, hvalue⟩ := hs.consequent
      obtain ⟨u', t', hu', ht', hvalue'⟩ := hs'.consequent
      cases hu.symm.trans hu'
      cases ht.symm.trans ht'
      rw [List.map_cons, List.map_cons, ih hrest', ← hvalue, ← hvalue']

/-- One number bounds the differences between the values under all signals. -/
theorem exists_spread (universes : NameMap (Universe ℚ)) (owner : String) (rules : List Rule) :
    ∃ spread, 0 ≤ spread ∧ ∀ signals scores,
      List.Forall₂ (Scores universes signals owner) rules scores →
        ∀ s ∈ scores, ∀ t ∈ scores, |t.value - s.value| ≤ spread := by
  by_cases hscores : ∃ signals scores, scores ≠ [] ∧
      List.Forall₂ (Scores universes signals owner) rules scores
  · obtain ⟨signals₀, scores₀, hne, hscores₀⟩ := hscores
    obtain ⟨low, high, hextremes⟩ := exists_extremes hne
    refine ⟨high.value - low.value,
      sub_nonneg.2 (hextremes.bounds high hextremes.high_mem).1, ?_⟩
    intro signals scores hscores
    have hbounds : ∀ s ∈ scores, low.value ≤ s.value ∧ s.value ≤ high.value := by
      intro s hs
      have hmem : s.value ∈ scores₀.map Score.value :=
        values_eq hscores hscores₀ ▸ List.mem_map_of_mem hs
      obtain ⟨t, ht, hvalue⟩ := List.mem_map.1 hmem
      exact hvalue ▸ hextremes.bounds t ht
    intro s hs t ht
    exact abs_sub_le_of_le_of_le (hbounds t ht).1 (hbounds t ht).2 (hbounds s hs).1 (hbounds s hs).2
  · refine ⟨0, le_rfl, fun signals scores hscores₀ s hs => ?_⟩
    exact absurd ⟨signals, scores, List.ne_nil_of_mem hs, hscores₀⟩ hscores

/-- Others that are far away, relative to the score itself, pull little. -/
theorem Score.pull_le {others : List Score} {ratio spread : ℚ} (hratio : 0 ≤ ratio)
    (hsmall : ratio ≤ 1) (hspread : ∀ t ∈ others, |t.value - s.value| ≤ spread)
    (hd : ∀ t ∈ others, t.distance ≠ 0) (hfar : ∀ t ∈ others, s.distance ≤ ratio * t.distance) :
    s.pull others ≤ others.length * (ratio * spread) := by
  have hterm : ∀ x ∈ others.map fun t => (s.distance / t.distance) ^ 2 * |t.value - s.value|,
      x ≤ ratio * spread := by
    refine List.forall_mem_map.2 fun t ht => ?_
    have hpos : 0 < t.distance := lt_of_le_of_ne t.distance_nonneg (hd t ht).symm
    have hquotient : s.distance / t.distance ≤ ratio := (div_le_iff₀ hpos).2 (hfar t ht)
    have hsquare : (s.distance / t.distance) ^ 2 ≤ ratio :=
      calc (s.distance / t.distance) ^ 2
          ≤ ratio ^ 2 := pow_le_pow_left₀ (div_nonneg s.distance_nonneg hpos.le) hquotient 2
        _ ≤ ratio := pow_le_of_le_one hratio hsmall two_ne_zero
    exact mul_le_mul hsquare (hspread t ht) (abs_nonneg _) hratio
  have hsum := List.sum_le_card_nsmul _ _ hterm
  rwa [List.length_map, nsmul_eq_mul] at hsum

theorem exists_ratio {ε bound : ℚ} (hε : 0 < ε) (hbound : 0 ≤ bound) :
    ∃ ratio, 0 < ratio ∧ ratio ≤ 1 ∧ ratio * bound ≤ ε := by
  have hpos : 0 < bound + 1 := by linarith
  refine ⟨min 1 (ε / (bound + 1)), lt_min one_pos (div_pos hε hpos), min_le_left _ _, ?_⟩
  calc min 1 (ε / (bound + 1)) * bound
      ≤ ε / (bound + 1) * (bound + 1) :=
        mul_le_mul (min_le_right _ _) (by linarith) hbound (div_pos hε hpos).le
    _ = ε := div_mul_cancel₀ ε hpos.ne'

theorem exists_near (universes : NameMap (Universe ℚ)) (owner : String) (rules : List Rule)
    {ε : ℚ} (hε : 0 < ε) : ∃ ratio, 0 < ratio ∧ ∀ signals scores,
      List.Forall₂ (Scores universes signals owner) rules scores → Inexact scores →
      ∀ before s after, scores = before ++ s :: after →
        (∀ t ∈ before ++ after, s.distance ≤ ratio * t.distance) →
        s.pull (before ++ after) ≤ ε := by
  obtain ⟨spread, hnonneg, hspread⟩ := exists_spread universes owner rules
  obtain ⟨ratio, hpos, hsmall, hratio⟩ :=
    exists_ratio hε (mul_nonneg rules.length.cast_nonneg hnonneg)
  refine ⟨ratio, hpos, ?_⟩
  rintro signals _ hscores hinexact before s after rfl hfar
  have hmem : ∀ t ∈ before ++ after, t ∈ before ++ s :: after := fun t ht =>
    List.perm_middle.mem_iff.2 (List.mem_cons_of_mem s ht)
  have hlength : (before ++ after).length ≤ rules.length := by
    rw [hscores.length_eq]
    simp only [List.length_append, List.length_cons]
    omega
  calc s.pull (before ++ after)
      ≤ (before ++ after).length * (ratio * spread) :=
        Score.pull_le hpos.le hsmall
          (fun t ht => hspread signals _ hscores s (by simp) t (hmem t ht))
          (fun t ht => hinexact t (hmem t ht)) hfar
    _ ≤ rules.length * (ratio * spread) := by gcongr
    _ = ratio * (rules.length * spread) := by ring
    _ ≤ ε := hratio

/-- A consequence lies between the smallest and the largest value of the rules, and strictly between
them if no rule matches exactly and not all values are the same. In the former case the other rules
draw it away from the value of any rule, the nearest one for instance, by their pull at most. So it
is as near to that value as is wanted if the distance of the rule is small enough beside the other
ones. -/
theorem consequence_bounds (rb : RuleBase) (universes : NameMap (Universe ℚ)) :
    (∀ signals z, rb.consequence universes signals = .ok z →
      ∃ scores, List.Forall₂ (Scores universes signals rb.name) rb.rules scores ∧
        (∃ low high, Extremes scores low high ∧ low.value ≤ z ∧ z ≤ high.value ∧
          (Inexact scores → low.value ≠ high.value → low.value < z ∧ z < high.value)) ∧
        (Inexact scores → ∀ before s after, scores = before ++ s :: after →
          |z - s.value| ≤ s.pull (before ++ after))) ∧
    ∀ ε, 0 < ε → ∃ ratio, 0 < ratio ∧ ∀ signals z scores,
      rb.consequence universes signals = .ok z →
      List.Forall₂ (Scores universes signals rb.name) rb.rules scores → Inexact scores →
      ∀ before s after, scores = before ++ s :: after →
        (∀ t ∈ before ++ after, s.distance ≤ ratio * t.distance) → |z - s.value| ≤ ε := by
  refine ⟨fun signals z hz => ?_, fun ε hε => ?_⟩
  · obtain ⟨hne, scores, hscores, rfl⟩ := consequence_eq_ok hz
    have hscores_ne : scores ≠ [] := by
      rintro rfl
      exact hne (List.forall₂_nil_right_iff.1 hscores)
    obtain ⟨low, high, hextremes⟩ := exists_extremes hscores_ne
    obtain ⟨hlow, hhigh⟩ := hextremes.weightedMean_bounds
    refine ⟨scores, hscores, ⟨low, high, hextremes, hlow, hhigh, fun hinexact hdiffer => ?_⟩, ?_⟩
    · exact hextremes.weightedMean_strict_bounds hinexact hdiffer
    · rintro hinexact before s after rfl
      exact abs_weightedMean_sub_le hinexact
  · obtain ⟨ratio, hpos, hnear⟩ := exists_near universes rb.name rb.rules hε
    refine ⟨ratio, hpos, ?_⟩
    intro signals z scores hz hscores hinexact before s after hsplit hfar
    obtain ⟨-, scores', hscores', rfl⟩ := consequence_eq_ok hz
    obtain rfl := scores_unique hscores' hscores
    have hpull := hnear signals _ hscores hinexact before s after hsplit hfar
    subst hsplit
    exact (abs_weightedMean_sub_le hinexact).trans hpull

/-- The scores of the junction: its second rule is the nearest one. -/
def junctionScores : List Score :=
  [⟨2, [(1 / 2, 0)]⟩, ⟨10, [(1 / 2, 1), (1, 1)]⟩, ⟨2, [(1, 0)]⟩]

theorem scores_junction :
    List.Forall₂ (Scores ramps approach "z") junction.rules junctionScores := by
  have hxLow : Reads ramps approach ("x", "low") (1 / 2, 0) :=
    ⟨ramp "x" 0 1, 2, ⟨"low", 0, 0⟩, rfl, rfl, rfl, by decide +kernel, by decide +kernel⟩
  have hxHigh : Reads ramps approach ("x", "high") (1 / 2, 1) :=
    ⟨ramp "x" 0 1, 2, ⟨"high", 4, 1⟩, rfl, rfl, rfl, by decide +kernel, by decide +kernel⟩
  have hyHigh : Reads ramps approach ("y", "high") (1, 1) :=
    ⟨ramp "y" 0 1, 4, ⟨"high", 4, 1⟩, rfl, rfl, rfl, by decide +kernel, by decide +kernel⟩
  have hyLow : Reads ramps approach ("y", "low") (1, 0) :=
    ⟨ramp "y" 0 1, 4, ⟨"low", 0, 0⟩, rfl, rfl, rfl, by decide +kernel, by decide +kernel⟩
  have hlow : ∃ u t, ramps.get? "z" = some u ∧ u.term? "low" = some t ∧ t.value = 2 :=
    ⟨ramp "z" 2 10, ⟨"low", 0, 2⟩, rfl, rfl, rfl⟩
  have hhigh : ∃ u t, ramps.get? "z" = some u ∧ u.term? "high" = some t ∧ t.value = 10 :=
    ⟨ramp "z" 2 10, ⟨"high", 4, 10⟩, rfl, rfl, rfl⟩
  exact .cons ⟨hlow, .cons hxLow .nil, nofun⟩
    (.cons ⟨hhigh, .cons hxHigh (.cons hyHigh .nil), nofun⟩
      (.cons ⟨hlow, .cons hyLow .nil, nofun⟩ .nil))

theorem inexact_junction : Inexact junctionScores := by
  decide +kernel

theorem consequence_junction : junction.consequence ramps approach = .ok (674 / 81) := by
  decide +kernel

theorem consequence_bounds_junction :
    junction.consequence ramps approach = .ok (674 / 81) ∧
    (∃ low high, Extremes junctionScores low high ∧ low.value ≤ 674 / 81 ∧
      674 / 81 ≤ high.value) ∧
    |(674 / 81 : ℚ) - 10| ≤ (1 / 8 / (1 / 4)) ^ 2 * 8 + (1 / 8 / 1) ^ 2 * 8 := by
  obtain ⟨hbounds, -⟩ := consequence_bounds junction ramps
  obtain ⟨scores, hscores, ⟨low, high, hextremes, hlow, hhigh, -⟩, hpull⟩ :=
    hbounds approach _ consequence_junction
  obtain rfl := scores_unique hscores scores_junction
  refine ⟨consequence_junction, ⟨low, high, hextremes, hlow, hhigh⟩, ?_⟩
  refine (hpull inexact_junction [⟨2, [(1 / 2, 0)]⟩] ⟨10, [(1 / 2, 1), (1, 1)]⟩
    [⟨2, [(1, 0)]⟩] rfl).trans_eq ?_
  norm_num [Score.pull, Score.distance]

end FuzzyRules.RuleBase
