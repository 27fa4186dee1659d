import FuzzyRules.Proofs.RuleBase.Outcome
import FuzzyRules.Proofs.Universe.Polyline
import FuzzyRules.Proofs.Universe.Sorting
import FuzzyRules.Universe.Trend
import Mathlib.Algebra.Order.Group.Pointwise.Interval

/-!
# Universes with one trend

The check for one trend looks at neighbours only: it fails at the first pair by which the values
have both risen and fallen. Over exact fractions a universe that passes has values that go one way
over all of its domain, also over centers that terms with different values share. So what is further
away on one side is never closer by its value.
-/

namespace FuzzyRules.Universe

section Pairs

variable {α : Type} [Scalar α] {terms : List (Term α)}

def rises (pairs : List (Term α × Term α)) : Bool := pairs.any fun p => p.1.value < p.2.value

def falls (pairs : List (Term α × Term α)) : Bool := pairs.any fun p => p.2.value < p.1.value

/-- The values both rise and fall. -/
def turns (pairs : List (Term α × Term α)) : Bool := rises pairs && falls pairs

theorem rises_concat (pairs : List (Term α × Term α)) (a b : Term α) :
    rises (pairs ++ [(a, b)]) = (rises pairs || decide (a.value < b.value)) := by
  simp [rises]

theorem falls_concat (pairs : List (Term α × Term α)) (a b : Term α) :
    falls (pairs ++ [(a, b)]) = (falls pairs || decide (b.value < a.value)) := by
  simp [falls]

theorem trendFrom_cons (owner : String) (seen : List (Term α × Term α)) (a b : Term α)
    (rest : List (Term α)) : trendFrom owner (rises seen) (falls seen) (a :: b :: rest) =
      if turns (seen ++ [(a, b)]) then .error (.nonMonotonic owner b.name)
      else trendFrom owner (rises (seen ++ [(a, b)])) (falls (seen ++ [(a, b)])) (b :: rest) := by
  rw [trendFrom, turns, rises_concat, falls_concat]

/-- The check fails at the first pair by which the values turn. -/
theorem trendFrom_cases (owner : String) (seen : List (Term α × Term α))
    (hseen : turns seen = false) :
    (trendFrom owner (rises seen) (falls seen) terms = .ok () ∧
      turns (seen ++ terms.consecutivePairs) = false) ∨
    ∃ earlier p later, terms.consecutivePairs = earlier ++ p :: later ∧
      turns (seen ++ earlier) = false ∧ turns (seen ++ earlier ++ [p]) = true ∧
      trendFrom owner (rises seen) (falls seen) terms = .error (.nonMonotonic owner p.2.name) := by
  induction terms generalizing seen with
  | nil =>
    refine .inl ⟨rfl, ?_⟩
    rwa [List.consecutivePairs, List.zip_nil_left, List.append_nil]
  | cons a rest ih =>
    cases rest with
    | nil =>
      refine .inl ⟨rfl, ?_⟩
      rwa [List.consecutivePairs, List.tail_cons, List.zip_nil_right, List.append_nil]
    | cons b rest =>
      have hpairs : (a :: b :: rest).consecutivePairs =
          (a, b) :: (b :: rest).consecutivePairs := rfl
      rw [trendFrom_cons, hpairs]
      cases hturns : turns (seen ++ [(a, b)]) with
      | true =>
        refine .inr ⟨[], (a, b), _, rfl, ?_, ?_, if_pos rfl⟩
        · rwa [List.append_nil]
        · rwa [List.append_nil]
      | false =>
        rw [if_neg Bool.false_ne_true]
        refine (ih _ hturns).imp ?_ ?_
        · rintro ⟨hok, hall⟩
          exact ⟨hok, by rwa [List.append_assoc] at hall⟩
        · rintro ⟨earlier, p, later, hsplit, hearlier, hp, herror⟩
          refine ⟨(a, b) :: earlier, p, later, by rw [hsplit, List.cons_append], ?_, ?_, herror⟩
          · rwa [List.append_assoc] at hearlier
          · rwa [List.append_assoc seen] at hp

/-- The check as a whole. -/
theorem checkTrend_cases (u : Universe α) :
    (u.checkTrend = .ok () ∧ turns u.terms.consecutivePairs = false) ∨
    ∃ earlier p later, u.terms.consecutivePairs = earlier ++ p :: later ∧
      turns earlier = false ∧ turns (earlier ++ [p]) = true ∧
      u.checkTrend = .error (.nonMonotonic u.name p.2.name) :=
  trendFrom_cases u.name [] rfl

theorem turns_append_left {pairs : List (Term α × Term α)} (h : turns pairs = true)
    (later : List (Term α × Term α)) : turns (pairs ++ later) = true := by
  simp only [turns, rises, falls, Bool.and_eq_true, List.any_append, Bool.or_eq_true] at h ⊢
  exact ⟨.inl h.1, .inl h.2⟩

theorem checkTrend_eq_ok_iff {u : Universe α} :
    u.checkTrend = .ok () ↔ turns u.terms.consecutivePairs = false := by
  rcases u.checkTrend_cases with ⟨hok, hturns⟩ | ⟨earlier, p, later, hsplit, -, hturns, herror⟩
  · exact iff_of_true hok hturns
  · rw [herror, hsplit, List.append_cons, turns_append_left hturns later]
    simp

end Pairs

section Values

variable {u : Universe ℚ} {s t : Term ℚ} {x y v w : ℚ}

/-- No term has a smaller value than one before it. -/
def Rising (u : Universe ℚ) : Prop := (u.terms.map Term.value).Pairwise (· ≤ ·)

/-- No term has a larger value than one before it. -/
def Falling (u : Universe ℚ) : Prop := (u.terms.map Term.value).Pairwise (· ≥ ·)

theorem rising_iff : u.Rising ↔ ∀ p ∈ u.terms.consecutivePairs, p.1.value ≤ p.2.value := by
  rw [Rising, ← List.isChain_iff_pairwise, List.isChain_map]
  exact forall_consecutivePairs_iff.symm

theorem falling_iff : u.Falling ↔ ∀ p ∈ u.terms.consecutivePairs, p.2.value ≤ p.1.value := by
  rw [Falling, ← List.isChain_iff_pairwise, List.isChain_map]
  exact forall_consecutivePairs_iff.symm

theorem checkTrend_eq_ok_iff_values : u.checkTrend = .ok () ↔ u.Rising ∨ u.Falling := by
  have hrising : falls u.terms.consecutivePairs = false ↔ u.Rising := by
    simp [falls, rising_iff]
  have hfalling : rises u.terms.consecutivePairs = false ↔ u.Falling := by
    simp [rises, falling_iff]
  rw [checkTrend_eq_ok_iff, turns, Bool.and_eq_false_iff, hrising, hfalling, or_comm]

theorem along_rising (h : s.value ≤ t.value) : Along (fun p q => p.2 ≤ q.2) s t where
  ends := h
  inner {x y} hst _ hxy _ := by
    have hrate : 0 ≤ rate s t := div_nonneg (sub_nonneg.2 h) (sub_nonneg.2 hst.le)
    exact sub_nonneg.1 (line_sub_line s t x y ▸ mul_nonneg hrate (sub_nonneg.2 hxy))

theorem along_falling (h : t.value ≤ s.value) : Along (fun p q => q.2 ≤ p.2) s t where
  ends := h
  inner {x y} hst _ hxy _ := by
    have hrate : rate s t ≤ 0 :=
      div_nonpos_of_nonpos_of_nonneg (sub_nonpos.2 h) (sub_nonneg.2 hst.le)
    exact sub_nonpos.1 (line_sub_line s t x y ▸
      mul_nonpos_of_nonpos_of_nonneg hrate (sub_nonneg.2 hxy))

theorem valueAt_unique_of_count (hcount : ¬ 2 ≤ u.count) (hv : u.valueAt x = .ok v)
    (hw : u.valueAt y = .ok w) : v = w := by
  obtain ⟨name, description, terms⟩ := u
  match terms with
  | [] => cases hv
  | [t] =>
    cases hv
    cases hw
    rfl
  | t :: t' :: rest => exact absurd (by simp [count]) hcount

theorem Rising.valueAt_le (hu : u.Rising) (h : u.Built) (hv : u.valueAt x = .ok v)
    (hw : u.valueAt y = .ok w) (hxy : x ≤ y) : v ≤ w := by
  by_cases hcount : 2 ≤ u.count
  · exact related_of_valueAt (R := fun p q => p.2 ≤ q.2) (fun _ => le_rfl) le_trans h hcount
      (fun p hp => along_rising (rising_iff.1 hu p hp)) hv hw hxy
  · exact (valueAt_unique_of_count hcount hv hw).le

theorem Falling.le_valueAt (hu : u.Falling) (h : u.Built) (hv : u.valueAt x = .ok v)
    (hw : u.valueAt y = .ok w) (hxy : x ≤ y) : w ≤ v := by
  by_cases hcount : 2 ≤ u.count
  · exact related_of_valueAt (R := fun p q => q.2 ≤ p.2) (fun _ => le_rfl) ge_trans h hcount
      (fun p hp => along_falling (falling_iff.1 hu p hp)) hv hw hxy
  · exact (valueAt_unique_of_count hcount hv hw).ge

theorem abs_separation {a b d : ℚ} (h : u.separation a b = .ok d) :
    ∃ v w, u.valueAt a = .ok v ∧ u.valueAt b = .ok w ∧ |d| = |v - w| := by
  obtain ⟨v, w, hv, hw, hd⟩ := separation_eq_ok_iff.1 h
  refine ⟨v, w, hv, hw, ?_⟩
  rw [hd]
  split_ifs
  · exact abs_sub_comm w v
  · rfl

/-- The value at a coordinate between two others is between theirs. -/
theorem valueAt_between (h : u.Built) (htrend : u.checkTrend = .ok ()) {c x y z v w : ℚ}
    (hz : u.valueAt c = .ok z) (hv : u.valueAt x = .ok v) (hw : u.valueAt y = .ok w)
    (hside : c ≤ x ∧ x ≤ y ∨ y ≤ x ∧ x ≤ c) : v ∈ Set.uIcc z w := by
  rw [Set.mem_uIcc]
  rcases checkTrend_eq_ok_iff_values.1 htrend with hu | hu
  · refine hside.imp ?_ ?_
    · exact fun ⟨hcx, hxy⟩ => ⟨hu.valueAt_le h hz hv hcx, hu.valueAt_le h hv hw hxy⟩
    · exact fun ⟨hyx, hxc⟩ => ⟨hu.valueAt_le h hw hv hyx, hu.valueAt_le h hv hz hxc⟩
  · refine hside.symm.imp ?_ ?_
    · exact fun ⟨hyx, hxc⟩ => ⟨hu.le_valueAt h hv hz hxc, hu.le_valueAt h hw hv hyx⟩
    · exact fun ⟨hcx, hxy⟩ => ⟨hu.le_valueAt h hv hw hxy, hu.le_valueAt h hz hv hcx⟩

/-- The check passes exactly if the values of the terms go one way, and else names the term by which
they turn. If it passes, the universe goes that way wherever it has a value, and the separation from
a coordinate does not shrink on the way off to one side. -/
theorem checkTrend_exact (h : u.Built) :
    (u.checkTrend = .ok () ↔ u.Rising ∨ u.Falling) ∧
    (u.checkTrend ≠ .ok () → ∃ earlier p later,
      u.terms.consecutivePairs = earlier ++ p :: later ∧ turns earlier = false ∧
        turns (earlier ++ [p]) = true ∧ u.checkTrend = .error (.nonMonotonic u.name p.2.name)) ∧
    (u.Rising → ∀ x y v w, u.valueAt x = .ok v → u.valueAt y = .ok w → x ≤ y → v ≤ w) ∧
    (u.Falling → ∀ x y v w, u.valueAt x = .ok v → u.valueAt y = .ok w → x ≤ y → w ≤ v) ∧
    (u.checkTrend = .ok () → ∀ c x y d e, c ≤ x ∧ x ≤ y ∨ y ≤ x ∧ x ≤ c →
      u.separation x c = .ok d → u.separation y c = .ok e → |d| ≤ |e|) := by
  refine ⟨checkTrend_eq_ok_iff_values, fun hfail => ?_, fun hu _ _ _ _ hv hw => ?_,
    fun hu _ _ _ _ hv hw => ?_, fun htrend c x y d e hside hd he => ?_⟩
  · exact u.checkTrend_cases.resolve_left fun hok => hfail hok.1
  · exact hu.valueAt_le h hv hw
  · exact hu.le_valueAt h hv hw
  · obtain ⟨v, z, hv, hz, hd⟩ := abs_separation hd
    obtain ⟨w, z', hw, hz', he⟩ := abs_separation he
    cases hz.symm.trans hz'
    rw [hd, he]
    exact Set.abs_sub_left_of_mem_uIcc (valueAt_between h htrend hz hv hw hside)

/-- Two terms with different values stand at one center. -/
def ledge : Universe ℚ :=
  ⟨"ledge", none, [⟨"floor", 0, 0⟩, ⟨"rim", 1, 1⟩, ⟨"top", 1, 3⟩, ⟨"roof", 2, 4⟩]⟩

theorem built_ledge : ledge.Built :=
  .of_pairwise Scalar.comparable_rat (fun _ _ => trivial) (by decide) (by decide +kernel)

/-- The check passes, and on both sides of the center the distance from it grows. -/
theorem checkTrend_exact_ledge :
    ledge.Built ∧ ledge.checkTrend = .ok () ∧
    (∀ x y v w, ledge.valueAt x = .ok v → ledge.valueAt y = .ok w → x ≤ y → v ≤ w) ∧
    ∀ d e, ledge.separation (3 / 2) (1 / 2) = .ok d → ledge.separation 2 (1 / 2) = .ok e →
      |d| ≤ |e| := by
  have hrising : ledge.Rising := by
    simp [Rising, ledge]
    norm_num
  obtain ⟨hok, -, hvalues, -, hseparation⟩ := checkTrend_exact built_ledge
  have htrend := hok.2 (.inl hrising)
  exact ⟨built_ledge, htrend, hvalues hrising, fun d e =>
    hseparation htrend _ _ _ d e (.inl ⟨by norm_num, by norm_num⟩)⟩

end Values

end FuzzyRules.Universe
