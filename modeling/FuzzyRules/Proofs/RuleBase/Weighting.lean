import Mathlib.Algebra.Order.BigOperators.Group.List
import Mathlib.Algebra.BigOperators.Ring.List
import Mathlib.Tactic.FieldSimp
import Mathlib.Tactic.Positivity
import Mathlib.Tactic.Ring
import FuzzyRules.Proofs.Fractions
import FuzzyRules.RuleBase.Inference

/-!
# The weighted mean of votes

Over exact fractions the tally of any votes is their weighted mean: the plain mean of the values at
distance zero, or else the mean of all values by the inverse squares of their distances. Relating
the weights to the nearest vote cancels out, and the order of the votes does not matter.
-/

namespace FuzzyRules.RuleBase

/-- Votes at distance zero decide alone; otherwise a vote has the weight `1 / distance ^ 2`. -/
def weightedMean (vs : List (Vote ℚ)) : ℚ :=
  let exact := vs.filter fun v => v.distance = 0
  if exact = [] then
    (vs.map fun v => v.value / v.distance ^ 2).sum / (vs.map fun v => 1 / v.distance ^ 2).sum
  else (exact.map Vote.value).sum / exact.length

theorem weightedMean_perm {vs ws : List (Vote ℚ)} (h : vs.Perm ws) :
    weightedMean vs = weightedMean ws := by
  have hexact := h.filter fun v => decide (v.distance = 0)
  have hnil : (vs.filter fun v => v.distance = 0) = [] ↔
      (ws.filter fun v => v.distance = 0) = [] := by
    rw [← List.length_eq_zero_iff, ← List.length_eq_zero_iff, hexact.length_eq]
  simp only [weightedMean, hnil, hexact.length_eq, (hexact.map Vote.value).sum_eq,
    (h.map fun v => v.value / v.distance ^ 2).sum_eq,
    (h.map fun v => 1 / v.distance ^ 2).sum_eq]

theorem weigh_rat (nearest : ℚ) (sums : ℚ × ℚ) (v : Vote ℚ) :
    weigh nearest sums v =
      (sums.1 + v.value * ((nearest / v.distance) * (nearest / v.distance)),
        sums.2 + (nearest / v.distance) * (nearest / v.distance)) := rfl

theorem foldl_weigh (nearest : ℚ) (vs : List (Vote ℚ)) (sums : ℚ × ℚ) :
    vs.foldl (weigh nearest) sums =
      (sums.1 + nearest ^ 2 * (vs.map fun v => v.value / v.distance ^ 2).sum,
        sums.2 + nearest ^ 2 * (vs.map fun v => 1 / v.distance ^ 2).sum) := by
  induction vs generalizing sums with
  | nil => simp
  | cons v rest ih =>
    rw [List.foldl_cons, ih, weigh_rat]
    simp only [List.map_cons, List.sum_cons]
    refine Prod.ext ?_ ?_
    · ring
    · ring

theorem foldl_least_mem (first : ℚ) (rest : List ℚ) :
    rest.foldl Scalar.least first ∈ first :: rest := by
  induction rest generalizing first with
  | nil => simp
  | cons x rest ih =>
    rw [List.foldl_cons, Scalar.least_rat]
    rcases List.mem_cons.1 (ih (min first x)) with h | h
    · rw [h]
      rcases min_choice first x with hmin | hmin <;> simp [hmin]
    · simp [h]

theorem inverse_squares_pos {vs : List (Vote ℚ)} (hne : vs ≠ [])
    (hd : ∀ v ∈ vs, v.distance ≠ 0) : 0 < (vs.map fun v => 1 / v.distance ^ 2).sum := by
  apply List.sum_pos
  · intro x hx
    obtain ⟨v, hv, rfl⟩ := List.mem_map.1 hx
    have := hd v hv
    positivity
  · simpa using hne

theorem weighted_rat {first : Vote ℚ} {rest : List (Vote ℚ)}
    (hd : ∀ v ∈ first :: rest, v.distance ≠ 0) :
    ∃ scale ≠ 0, weighted first rest =
      (scale * ((first :: rest).map fun v => v.value / v.distance ^ 2).sum,
        scale * ((first :: rest).map fun v => 1 / v.distance ^ 2).sum) := by
  let nearest := (rest.map Vote.distance).foldl Scalar.least first.distance
  have hmem : nearest ∈ (first :: rest).map Vote.distance := foldl_least_mem _ _
  obtain ⟨v, hv, hnearest⟩ := List.mem_map.1 hmem
  have hne : nearest ≠ 0 := hnearest ▸ hd v hv
  refine ⟨nearest ^ 2, pow_ne_zero 2 hne, ?_⟩
  change (first :: rest).foldl (weigh nearest) ((0 : ℕ), (0 : ℕ)) = _
  rw [foldl_weigh]
  simp

theorem tally_of_exact {vs others : List (Vote ℚ)} {v : Vote ℚ}
    (h : (vs.filter fun v => v.distance = 0) = v :: others) :
    tally vs = .ok (((v :: others).map Vote.value).sum / (v :: others).length) := by
  change (vs.filter fun v => v.distance == Scalar.ofCount 0) = v :: others at h
  rw [tally.eq_def, h]
  change Except.ok (Scalar.mean v.value (others.map Vote.value)) = _
  rw [Scalar.mean_rat, List.map_cons, List.length_cons, List.length_map, List.length_cons]

theorem tally_of_inexact {first : Vote ℚ} {rest : List (Vote ℚ)}
    (h : ((first :: rest).filter fun v => v.distance = 0) = [])
    (htotal : (weighted first rest).2 ≠ 0) :
    tally (first :: rest) = .ok ((weighted first rest).1 / (weighted first rest).2) := by
  change ((first :: rest).filter fun v => v.distance == Scalar.ofCount 0) = [] at h
  rw [tally, h]
  change (if decide ((weighted first rest).2 = 0) || false then _ else _) = _
  rw [decide_eq_false htotal]
  rfl

/-- Any votes have a tally, and it is their weighted mean. -/
theorem tally_rat {vs : List (Vote ℚ)} (hne : vs ≠ []) : tally vs = .ok (weightedMean vs) := by
  cases hexact : vs.filter fun v => v.distance = 0 with
  | cons v others =>
    rw [tally_of_exact hexact, weightedMean, hexact]
    rfl
  | nil =>
    have hd : ∀ v ∈ vs, v.distance ≠ 0 := by
      intro v hv h0
      have := List.filter_eq_nil_iff.1 hexact v hv
      simp [h0] at this
    cases vs with
    | nil => exact absurd rfl hne
    | cons first rest =>
      obtain ⟨scale, hscale, hw⟩ := weighted_rat hd
      have hpos := inverse_squares_pos hne hd
      rw [tally_of_inexact hexact (by rw [hw]; exact mul_ne_zero hscale hpos.ne'), hw,
        mul_div_mul_left _ _ hscale, weightedMean, hexact]
      rfl

end FuzzyRules.RuleBase
