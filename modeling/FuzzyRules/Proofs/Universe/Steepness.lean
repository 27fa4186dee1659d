import FuzzyRules.Proofs.Universe.Polyline
import FuzzyRules.Proofs.Universe.Sorting

/-!
# How steep a universe is

Over exact fractions the value of a universe whose terms agree changes no faster than along its
steepest segment, however many segments lie between two coordinates. On each segment, both ends
included, it is the value of the line through the two terms, so segments and terms agree where they
meet.
-/

namespace FuzzyRules.Universe

variable {u : Universe ℚ} {p : Term ℚ × Term ℚ} {x y v w : ℚ}

/-- The largest rate between neighbours with different centers, up or down. -/
def steepness (u : Universe ℚ) : ℚ :=
  ((u.terms.consecutivePairs.filter fun p => p.1.center ≠ p.2.center).map
    fun p => |rate p.1 p.2|).max?.getD 0

theorem rate_le_steepness (hp : p ∈ u.terms.consecutivePairs) (hne : p.1.center ≠ p.2.center) :
    |rate p.1 p.2| ≤ u.steepness := by
  have hmem : |rate p.1 p.2| ∈ (u.terms.consecutivePairs.filter
      fun p => p.1.center ≠ p.2.center).map fun p => |rate p.1 p.2| :=
    List.mem_map.2 ⟨p, List.mem_filter.2 ⟨hp, decide_eq_true hne⟩, rfl⟩
  obtain ⟨m, hmax⟩ := Option.isSome_iff_exists.1 (List.isSome_max?_of_mem hmem)
  rw [steepness, hmax, Option.getD_some]
  exact (List.max?_eq_some_iff.1 hmax).2 _ hmem

/-- The second point is further on, and the values do not differ more than the steepness allows. -/
def Gentle (u : Universe ℚ) (p q : ℚ × ℚ) : Prop := |p.2 - q.2| ≤ u.steepness * (q.1 - p.1)

theorem gentle_refl (u : Universe ℚ) (p : ℚ × ℚ) : u.Gentle p p := by
  rw [Gentle, sub_self, sub_self, abs_zero, mul_zero]

theorem Gentle.trans {p q r : ℚ × ℚ} (hpq : u.Gentle p q) (hqr : u.Gentle q r) : u.Gentle p r :=
  calc |p.2 - r.2| ≤ |p.2 - q.2| + |q.2 - r.2| := abs_sub_le _ _ _
    _ ≤ u.steepness * (q.1 - p.1) + u.steepness * (r.1 - q.1) := add_le_add hpq hqr
    _ = u.steepness * (r.1 - p.1) := by ring

theorem Agrees.of_consecutive (h : u.Agrees) (hp : p ∈ u.terms.consecutivePairs)
    (heq : p.1.center = p.2.center) : p.1.value = p.2.value :=
  have ⟨hfirst, hsecond⟩ := mem_of_mem_consecutivePairs hp
  h _ hfirst _ hsecond heq

theorem gentle_of_segment (hp : p ∈ u.terms.consecutivePairs) (hlt : p.1.center < p.2.center)
    (hxy : x ≤ y) : u.Gentle (x, line p.1 p.2 x) (y, line p.1 p.2 y) :=
  calc |line p.1 p.2 x - line p.1 p.2 y|
      = |rate p.1 p.2| * (y - x) := by
        rw [abs_sub_comm, line_sub_line, abs_mul, abs_of_nonneg (sub_nonneg.2 hxy)]
    _ ≤ u.steepness * (y - x) :=
        mul_le_mul_of_nonneg_right (rate_le_steepness hp hlt.ne) (sub_nonneg.2 hxy)

theorem along_gentle (h : u.Built) (hagrees : u.Agrees) (hp : p ∈ u.terms.consecutivePairs) :
    Along u.Gentle p.1 p.2 where
  ends := by
    rcases (forall_consecutivePairs_iff.2 h.pairwise_center_le.isChain p hp).lt_or_eq with hlt | heq
    · have hends := gentle_of_segment hp hlt hlt.le
      rwa [line_center_left, line_center_right (sub_pos.2 hlt).ne'] at hends
    · rw [heq, hagrees.of_consecutive hp heq]
      exact gentle_refl u _
  inner hlt _ hxy _ := gentle_of_segment hp hlt hxy

theorem gentle_of_valueAt (h : u.Built) (hcount : 2 ≤ u.count) (hagrees : u.Agrees)
    (hv : u.valueAt x = .ok v) (hw : u.valueAt y = .ok w) (hxy : x ≤ y) :
    u.Gentle (x, v) (y, w) :=
  related_of_valueAt (gentle_refl u) Gentle.trans h hcount
    (fun _ => along_gentle h hagrees) hv hw hxy

/-- Two coordinates in the domain have values that differ at most by the steepness times their
distance, and each segment has the values of its line, from one term up to the next. -/
theorem valueAt_steepness (h : u.Built) (hcount : 2 ≤ u.count) (hagrees : u.Agrees)
    {low high : ℚ} (hdomain : u.domain? = some (low, high)) :
    (∀ a b, low ≤ a → a ≤ high → low ≤ b → b ≤ high →
      ∃ v w, u.valueAt a = .ok v ∧ u.valueAt b = .ok w ∧ |v - w| ≤ u.steepness * |a - b|) ∧
    ∀ p ∈ u.terms.consecutivePairs, p.1.center < p.2.center →
      ∀ x, p.1.center ≤ x → x ≤ p.2.center → u.valueAt x = .ok (line p.1 p.2 x) := by
  have hvalue (x : ℚ) (hlow : low ≤ x) (hhigh : x ≤ high) : ∃ v, u.valueAt x = .ok v :=
    exists_valueAt h.pairwise_center_le hagrees (.inr ⟨low, high, hdomain, hlow, hhigh⟩)
  refine ⟨fun a b hla hah hlb hbh => ?_, fun p hp hlt x hpx hxp => ?_⟩
  · obtain ⟨v, hv⟩ := hvalue a hla hah
    obtain ⟨w, hw⟩ := hvalue b hlb hbh
    refine ⟨v, w, hv, hw, ?_⟩
    rcases le_total a b with hab | hba
    · rw [abs_sub_comm a b, abs_of_nonneg (sub_nonneg.2 hab)]
      exact gentle_of_valueAt h hcount hagrees hv hw hab
    · rw [abs_sub_comm v w, abs_of_nonneg (sub_nonneg.2 hba)]
      exact gentle_of_valueAt h hcount hagrees hw hv hba
  · obtain ⟨hfirst, hsecond⟩ := mem_of_mem_consecutivePairs hp
    obtain ⟨-, -, hdomain⟩ :=
      domain?_spec Scalar.comparable_rat (fun _ _ => trivial) h.pairwise_center_le hdomain
    obtain ⟨v, hv⟩ :=
      hvalue x ((hdomain _ hfirst).1.trans hpx) (hxp.trans (hdomain _ hsecond).2)
    rw [hv, Passes.unique h.pairwise_center_le (fun _ => hagrees.of_consecutive)
      (passes_of_valueAt h.pairwise_center_le hcount hv) (passes_of_segment hp hlt hpx hxp)]

/-- Two terms at one center, a gentle segment and a steep one. -/
def climb : Universe ℚ :=
  ⟨"climb", none, [⟨"foot", 0, 0⟩, ⟨"base", 0, 0⟩, ⟨"shoulder", 2, 1⟩, ⟨"peak", 3, 4⟩]⟩

theorem built_climb : climb.Built :=
  .of_pairwise Scalar.comparable_rat (fun _ _ => trivial) (by decide) (by decide +kernel)

theorem steepness_climb : climb.steepness = 3 := by decide +kernel

/-- From the gentle segment to the steep one. -/
theorem valueAt_steepness_climb :
    (climb.Built ∧ 2 ≤ climb.count ∧ climb.Agrees ∧ climb.domain? = some (0, 3)) ∧
    ∃ v w, climb.valueAt (1 / 2) = .ok v ∧ climb.valueAt (5 / 2) = .ok w ∧
      |v - w| ≤ 3 * |1 / 2 - 5 / 2| := by
  have hcount : 2 ≤ climb.count := by decide
  have hagrees : climb.Agrees := by simp [Agrees, climb]
  have hdomain : climb.domain? = some (0, 3) := rfl
  obtain ⟨hpairs, -⟩ := valueAt_steepness built_climb hcount hagrees hdomain
  have hpair := hpairs (1 / 2) (5 / 2) (by norm_num) (by norm_num) (by norm_num) (by norm_num)
  rw [steepness_climb] at hpair
  exact ⟨⟨built_climb, hcount, hagrees, hdomain⟩, hpair⟩

end FuzzyRules.Universe
