import FuzzyRules.Proofs.RuleBase.Weighting

/-!
# Bounds of a weighted mean

The weighted mean of votes lies between any bounds of their values, whatever the distances are. If
no vote is at distance zero, then all of them count: the mean keeps off every bound that some value
keeps off, and the weights can be taken relative to any distance.
-/

namespace FuzzyRules.RuleBase

variable {vs : List (Vote ℚ)} {low high : ℚ}

theorem weighted_sum_bounds {w : Vote ℚ → ℚ} (hw : ∀ v ∈ vs, 0 ≤ w v)
    (h : ∀ v ∈ vs, low ≤ v.value ∧ v.value ≤ high) :
    low * (vs.map w).sum ≤ (vs.map fun v => v.value * w v).sum ∧
      (vs.map fun v => v.value * w v).sum ≤ high * (vs.map w).sum := by
  rw [← List.sum_map_mul_left, ← List.sum_map_mul_left]
  constructor
  · apply List.sum_le_sum
    intro v hv
    exact mul_le_mul_of_nonneg_right (h v hv).1 (hw v hv)
  · apply List.sum_le_sum
    intro v hv
    exact mul_le_mul_of_nonneg_right (h v hv).2 (hw v hv)

theorem weighted_quotient_bounds {w : Vote ℚ → ℚ} (hw : ∀ v ∈ vs, 0 ≤ w v)
    (hpos : 0 < (vs.map w).sum) (h : ∀ v ∈ vs, low ≤ v.value ∧ v.value ≤ high) :
    low ≤ (vs.map fun v => v.value * w v).sum / (vs.map w).sum ∧
      (vs.map fun v => v.value * w v).sum / (vs.map w).sum ≤ high := by
  obtain ⟨hlow, hhigh⟩ := weighted_sum_bounds hw h
  exact ⟨(le_div_iff₀ hpos).2 hlow, (div_le_iff₀ hpos).2 hhigh⟩

theorem weightedMean_bounds (hne : vs ≠ []) (h : ∀ v ∈ vs, low ≤ v.value ∧ v.value ≤ high) :
    low ≤ weightedMean vs ∧ weightedMean vs ≤ high := by
  unfold weightedMean
  by_cases hexact : (vs.filter fun v => v.distance = 0) = []
  · simp only [if_pos hexact]
    have hd : ∀ v ∈ vs, v.distance ≠ 0 := by
      intro v hv
      simpa using List.filter_eq_nil_iff.1 hexact v hv
    have hbounds := weighted_quotient_bounds (w := fun v => 1 / v.distance ^ 2)
      (fun v _ => by positivity) (inverse_squares_pos hne hd) h
    simpa only [mul_one_div] using hbounds
  · -- the plain mean is the one with all weights equal
    simp only [if_neg hexact]
    have hlength : 0 < ((vs.filter fun v => v.distance = 0).map fun _ => (1 : ℚ)).sum := by
      simpa [List.length_pos_iff] using hexact
    have hbounds := weighted_quotient_bounds (w := fun _ => 1) (fun _ _ => zero_le_one) hlength
      fun v hv => h v (List.mem_of_mem_filter hv)
    simpa using hbounds

theorem weighted_sum_lt {w f g : Vote ℚ → ℚ} (hw : ∀ v ∈ vs, 0 < w v)
    (hle : ∀ v ∈ vs, f v ≤ g v) (hlt : ∃ v ∈ vs, f v < g v) :
    (vs.map fun v => f v * w v).sum < (vs.map fun v => g v * w v).sum := by
  obtain ⟨v, hv, hlt⟩ := hlt
  apply List.sum_lt_sum
  · intro x hx
    exact mul_le_mul_of_nonneg_right (hle x hx) (hw x hx).le
  · exact ⟨v, hv, mul_lt_mul_of_pos_right hlt (hw v hv)⟩

theorem weighted_quotient_strict_bounds {w : Vote ℚ → ℚ} (hw : ∀ v ∈ vs, 0 < w v)
    (h : ∀ v ∈ vs, low ≤ v.value ∧ v.value ≤ high) (hlow : ∃ v ∈ vs, low < v.value)
    (hhigh : ∃ v ∈ vs, v.value < high) :
    low < (vs.map fun v => v.value * w v).sum / (vs.map w).sum ∧
      (vs.map fun v => v.value * w v).sum / (vs.map w).sum < high := by
  have hpos : 0 < (vs.map w).sum := by
    apply List.sum_pos
    · exact List.forall_mem_map.2 hw
    · obtain ⟨v, hv, -⟩ := hlow
      exact List.ne_nil_of_mem (List.mem_map_of_mem hv)
  rw [lt_div_iff₀ hpos, div_lt_iff₀ hpos, ← List.sum_map_mul_left, ← List.sum_map_mul_left]
  exact ⟨weighted_sum_lt hw (fun v hv => (h v hv).1) hlow,
    weighted_sum_lt hw (fun v hv => (h v hv).2) hhigh⟩

theorem sum_relative (f : Vote ℚ → ℚ) (scale : ℚ) (vs : List (Vote ℚ)) :
    (vs.map fun v => f v * (scale / v.distance) ^ 2).sum =
      scale ^ 2 * (vs.map fun v => f v / v.distance ^ 2).sum := by
  rw [← List.sum_map_mul_left]
  refine congrArg List.sum (List.map_congr_left fun v _ => ?_)
  rw [div_pow]
  ring

/-- Without exact votes the weights can be taken relative to any distance. -/
theorem weightedMean_of_inexact (hd : ∀ v ∈ vs, v.distance ≠ 0) {scale : ℚ} (hscale : scale ≠ 0) :
    weightedMean vs = (vs.map fun v => v.value * (scale / v.distance) ^ 2).sum /
      (vs.map fun v => (scale / v.distance) ^ 2).sum := by
  have hexact : (vs.filter fun v => v.distance = 0) = [] := by
    rw [List.filter_eq_nil_iff]
    intro v hv
    simpa using hd v hv
  have hweights := sum_relative (fun _ => 1) scale vs
  simp only [one_mul] at hweights
  rw [sum_relative, hweights, mul_div_mul_left _ _ (pow_ne_zero 2 hscale), weightedMean]
  simp only [if_pos hexact]

theorem weightedMean_strict_bounds (hd : ∀ v ∈ vs, v.distance ≠ 0)
    (h : ∀ v ∈ vs, low ≤ v.value ∧ v.value ≤ high) (hlow : ∃ v ∈ vs, low < v.value)
    (hhigh : ∃ v ∈ vs, v.value < high) : low < weightedMean vs ∧ weightedMean vs < high := by
  rw [weightedMean_of_inexact hd one_ne_zero]
  refine weighted_quotient_strict_bounds (fun v hv => ?_) h hlow hhigh
  have := hd v hv
  positivity

/-- A mean differs from a number by no more than the values do, each difference by its weight. -/
theorem abs_weighted_quotient_sub_le {w : Vote ℚ → ℚ} (hw : ∀ v ∈ vs, 0 ≤ w v)
    (hone : 1 ≤ (vs.map w).sum) (c : ℚ) :
    |(vs.map fun v => v.value * w v).sum / (vs.map w).sum - c| ≤
      (vs.map fun v => w v * |v.value - c|).sum := by
  have hpos : 0 < (vs.map w).sum := one_pos.trans_le hone
  have hsplit : (vs.map fun v => v.value * w v).sum =
      (vs.map fun v => w v * (v.value - c)).sum + c * (vs.map w).sum := by
    rw [← List.sum_map_mul_left, ← List.sum_map_add]
    congr 2
    funext v
    ring
  have htriangle : |(vs.map fun v => w v * (v.value - c)).sum| ≤
      (vs.map fun v => w v * |v.value - c|).sum := by
    refine (List.le_sum_of_subadditive abs abs_zero.le abs_add_le _).trans_eq ?_
    rw [List.map_map]
    refine congrArg List.sum (List.map_congr_left fun v hv => ?_)
    rw [Function.comp_apply, abs_mul, abs_of_nonneg (hw v hv)]
  calc |(vs.map fun v => v.value * w v).sum / (vs.map w).sum - c|
      = |(vs.map fun v => w v * (v.value - c)).sum| / (vs.map w).sum := by
        rw [hsplit, add_div, mul_div_cancel_right₀ _ hpos.ne', add_sub_cancel_right, abs_div,
          abs_of_pos hpos]
    _ ≤ |(vs.map fun v => w v * (v.value - c)).sum| := div_le_self (abs_nonneg _) hone
    _ ≤ (vs.map fun v => w v * |v.value - c|).sum := htriangle

end FuzzyRules.RuleBase
