import FuzzyRules.Proofs.Engine.Built
import FuzzyRules.Proofs.Universe.Coverage
import FuzzyRules.Proofs.Universe.Line
import Mathlib.Data.List.Defs

/-!
# The polyline through the terms

Over exact fractions the values of a universe with several terms lie on the polyline through its
terms. A relation between points that holds along each segment of it, and that can be chained, holds
between any two of its points of which the second is further on.
-/

namespace FuzzyRules.Universe

variable {u : Universe ℚ} {s t : Term ℚ} {terms rest : List (Term ℚ)} {x y v w : ℚ}
  {R : ℚ × ℚ → ℚ × ℚ → Prop}

theorem Built.pairwise_center_le (h : u.Built) : u.terms.Pairwise fun s t => s.center ≤ t.center :=
  h.ascending Scalar.comparable_rat fun _ _ => trivial

/-- The polyline has the value at the coordinate: at a term, or on the way to the next one. -/
inductive Passes : List (Term ℚ) → ℚ → ℚ → Prop
  | center (t : Term ℚ) (rest : List (Term ℚ)) : Passes (t :: rest) t.center t.value
  | between {s t : Term ℚ} {rest : List (Term ℚ)} {x : ℚ} (hsx : s.center < x)
      (hxt : x < t.center) : Passes (s :: t :: rest) x (line s t x)
  | later (s : Term ℚ) {rest : List (Term ℚ)} {x v : ℚ} (h : Passes rest x v) :
      Passes (s :: rest) x v

/-- The relation holds from one term to the next, and between the points on the way. -/
structure Along (R : ℚ × ℚ → ℚ × ℚ → Prop) (s t : Term ℚ) : Prop where
  ends : R (s.center, s.value) (t.center, t.value)
  inner {x y : ℚ} (hst : s.center < t.center) (hsx : s.center ≤ x) (hxy : x ≤ y)
    (hyt : y ≤ t.center) : R (x, line s t x) (y, line s t y)

/-! ### The values lie on the polyline -/

theorem Passes.append (before : List (Term ℚ)) (h : Passes terms x v) :
    Passes (before ++ terms) x v := by
  induction before with
  | nil => exact h
  | cons s before ih => exact .later s ih

theorem passes_of_mem (ht : t ∈ terms) : Passes terms t.center t.value := by
  obtain ⟨before, after, rfl⟩ := List.append_of_mem ht
  exact (Passes.center t after).append before

theorem mem_of_mem_consecutivePairs {β : Type} {l : List β} {p : β × β}
    (hp : p ∈ l.consecutivePairs) : p.1 ∈ l ∧ p.2 ∈ l := by
  obtain ⟨hfirst, hsecond⟩ := List.of_mem_zip hp
  exact ⟨hfirst, List.mem_of_mem_tail hsecond⟩

theorem passes_of_segment {p : Term ℚ × Term ℚ} (hp : p ∈ terms.consecutivePairs)
    (hlt : p.1.center < p.2.center) (hpx : p.1.center ≤ x) (hxp : x ≤ p.2.center) :
    Passes terms x (line p.1 p.2 x) := by
  rcases hpx.eq_or_lt with rfl | hpx
  · rw [line_center_left]
    exact passes_of_mem (mem_of_mem_consecutivePairs hp).1
  rcases hxp.eq_or_lt with rfl | hxp
  · rw [line_center_right (sub_pos.2 hlt).ne']
    exact passes_of_mem (mem_of_mem_consecutivePairs hp).2
  induction terms with
  | nil => cases hp
  | cons s rest ih =>
    cases rest with
    | nil => cases hp
    | cons t rest =>
      rcases List.mem_cons.1 hp with rfl | hp
      · exact .between hpx hxp
      · exact .later s (ih hp)

theorem passes_of_bracket (h : terms.Pairwise fun s t => s.center ≤ t.center)
    (hne : ∀ t ∈ terms, ¬ (t.center == x) = true) (hbracket : Bracket terms x s t) :
    Passes terms x (line s t x) := by
  obtain ⟨before, after, rfl, hbelow, habove, -⟩ :=
    exists_halves Scalar.ordered_rat trivial (fun _ _ => trivial) h hne
  obtain ⟨earlier, rfl⟩ := List.getLast?_eq_some_iff.1 (hbelow ▸ hbracket.below)
  obtain ⟨later, rfl⟩ := List.head?_eq_some_iff.1 (habove ▸ hbracket.above)
  rw [List.append_assoc]
  exact (Passes.between hbracket.mem_below.2 hbracket.mem_above.2).append earlier

theorem passes_of_valueAt (h : u.terms.Pairwise fun s t => s.center ≤ t.center)
    (hcount : 2 ≤ u.count) (hv : u.valueAt x = .ok v) : Passes u.terms x v := by
  have hreading := reading_valueAt Scalar.ordered_rat (fun _ _ => trivial) h hcount x
  rw [hv] at hreading
  cases hreading with
  | center ht htx agree =>
    obtain rfl := beq_iff_eq.1 htx
    exact passes_of_mem ht
  | between away bracket => exact passes_of_bracket h away bracket

/-! ### Relations along it -/

theorem forall_consecutivePairs_iff {β : Type} {r : β → β → Prop} {l : List β} :
    (∀ p ∈ l.consecutivePairs, r p.1 p.2) ↔ l.IsChain r := by
  induction l with
  | nil => simp
  | cons a l ih =>
    cases l with
    | nil => simp [List.consecutivePairs]
    | cons b l =>
      rw [List.isChain_cons_cons, ← ih]
      exact List.forall_mem_cons

theorem Passes.related_first (hrefl : ∀ p, R p p)
    (htrans : ∀ {p q r}, R p q → R q r → R p r) (h : Passes (t :: rest) y w)
    (hsegments : ∀ p ∈ (t :: rest).consecutivePairs, Along R p.1 p.2) :
    R (t.center, t.value) (y, w) := by
  -- from term to term, up to the segment that the point is on
  induction rest generalizing t with
  | nil =>
    cases h with
    | center => exact hrefl _
    | later _ h => cases h
  | cons t' rest ih =>
    obtain ⟨hfirst, hrest⟩ := List.forall_mem_cons.1 hsegments
    cases h with
    | center => exact hrefl _
    | between hty hyt' =>
      have hinner := hfirst.inner (hty.trans hyt') le_rfl hty.le hyt'.le
      rwa [line_center_left] at hinner
    | later _ h => exact htrans hfirst.ends (ih h hrest)

theorem Passes.center_le (h : Passes (t :: rest) x v)
    (hsorted : (t :: rest).Pairwise fun s t => s.center ≤ t.center) : t.center ≤ x := by
  refine related_first (R := fun p q => p.1 ≤ q.1) (fun _ => le_rfl) le_trans h ?_
  have hchain := forall_consecutivePairs_iff.2 hsorted.isChain
  exact fun p hp => ⟨hchain p hp, fun _ _ hxy _ => hxy⟩

/-- A relation that holds along each segment holds between a point and a later one. -/
theorem Passes.related_of_lt (hrefl : ∀ p, R p p) (htrans : ∀ {p q r}, R p q → R q r → R p r)
    (hsorted : terms.Pairwise fun s t => s.center ≤ t.center)
    (hsegments : ∀ p ∈ terms.consecutivePairs, Along R p.1 p.2) (hx : Passes terms x v)
    (hy : Passes terms y w) (hxy : x < y) : R (x, v) (y, w) := by
  induction hx with
  | center t rest => exact related_first hrefl htrans hy hsegments
  | @between s t rest x hsx hxt =>
    obtain ⟨hfirst, hrest⟩ := List.forall_mem_cons.1 hsegments
    have hst := hsx.trans hxt
    cases hy with
    | center => exact absurd hxy hsx.not_gt
    | between hsy hyt => exact hfirst.inner hst hsx.le hxy.le hyt.le
    | later _ hy =>
      -- through the term between the two points
      have hend := hfirst.inner hst hsx.le hxt.le le_rfl
      rw [line_center_right (sub_pos.2 hst).ne'] at hend
      exact htrans hend (related_first hrefl htrans hy hrest)
  | @later s rest x v hx ih =>
    cases rest with
    | nil => cases hx
    | cons t rest =>
      have hle := (List.pairwise_cons.1 hsorted).1 t List.mem_cons_self
      have htail := (List.pairwise_cons.1 hsorted).2
      cases hy with
      | center => exact absurd hxy (hle.trans (hx.center_le htail)).not_gt
      | between hsy hyt => exact absurd (hxy.trans hyt) (hx.center_le htail).not_gt
      | later _ hy => exact ih htail (List.forall_mem_cons.1 hsegments).2 hy hxy

/-- The values of a universe are related like the points of its polyline. -/
theorem related_of_valueAt (hrefl : ∀ p, R p p) (htrans : ∀ {p q r}, R p q → R q r → R p r)
    (h : u.Built) (hcount : 2 ≤ u.count)
    (hsegments : ∀ p ∈ u.terms.consecutivePairs, Along R p.1 p.2) (hv : u.valueAt x = .ok v)
    (hw : u.valueAt y = .ok w) (hxy : x ≤ y) : R (x, v) (y, w) := by
  rcases hxy.lt_or_eq with hlt | rfl
  · have hsorted := h.pairwise_center_le
    exact Passes.related_of_lt hrefl htrans hsorted hsegments
      (passes_of_valueAt hsorted hcount hv) (passes_of_valueAt hsorted hcount hw) hlt
  · cases hv.symm.trans hw
    exact hrefl _

/-! ### Values that agree -/

/-- Where neighbours that share a center share their value, the first term is passed at its own. -/
theorem Passes.value_eq (hsorted : (t :: rest).Pairwise fun s t => s.center ≤ t.center)
    (hagree : ∀ p ∈ (t :: rest).consecutivePairs,
      p.1.center = p.2.center → p.1.value = p.2.value)
    (hw : Passes (t :: rest) t.center w) : w = t.value := by
  have hchain := forall_consecutivePairs_iff.2 hsorted.isChain
  refine ((related_first (R := fun p q => p.1 ≤ q.1 ∧ (p.1 = q.1 → q.2 = p.2))
    (fun _ => ⟨le_rfl, fun _ => rfl⟩) ?_ hw fun p hp => ⟨⟨hchain p hp, ?_⟩, ?_⟩).2 rfl)
  · rintro p q r ⟨hpq, hpq'⟩ ⟨hqr, hqr'⟩
    refine ⟨hpq.trans hqr, fun hpr => ?_⟩
    have hq : p.1 = q.1 := le_antisymm hpq (hpr ▸ hqr)
    exact (hqr' (hq.symm.trans hpr)).trans (hpq' hq)
  · exact fun heq => (hagree p hp heq).symm
  · rintro x y - - hxy -
    refine ⟨hxy, ?_⟩
    rintro rfl
    rfl

theorem Passes.unique (hsorted : terms.Pairwise fun s t => s.center ≤ t.center)
    (hagree : ∀ p ∈ terms.consecutivePairs, p.1.center = p.2.center → p.1.value = p.2.value)
    (hv : Passes terms x v) (hw : Passes terms x w) : v = w := by
  induction hv with
  | center t rest => exact (hw.value_eq hsorted hagree).symm
  | @between s t rest x hsx hxt =>
    cases hw with
    | center => exact absurd hsx (lt_irrefl _)
    | between => rfl
    | later _ hw => exact absurd hxt (hw.center_le (List.pairwise_cons.1 hsorted).2).not_gt
  | @later s rest x v hv ih =>
    cases rest with
    | nil => cases hv
    | cons t rest =>
      have htail := (List.pairwise_cons.1 hsorted).2
      cases hw with
      | center => exact (hv.later s).value_eq hsorted hagree
      | between hsx hxt => exact absurd hxt (hv.center_le htail).not_gt
      | later _ hw => exact ih htail (List.forall_mem_cons.1 hagree).2 hw

end FuzzyRules.Universe
