import FuzzyRules.Proofs.Quantities
import FuzzyRules.Proofs.Universe.Coverage
import FuzzyRules.Proofs.Universe.Line
import FuzzyRules.Proofs.Universe.Sorting

/-!
# Universes at every coordinate

The terms of a universe are made of fractions, but what it is asked for may not be a number. For
every coordinate it is settled whether the universe has a value there, and which one: no search
leads out of the terms, and no division is one by zero.
-/

namespace FuzzyRules

def Term.toQuantity (t : Term ℚ) : Term Quantity :=
  ⟨t.name, .number t.center, .number t.value⟩

@[simp] theorem Term.toQuantity_center (t : Term ℚ) :
    t.toQuantity.center = .number t.center := rfl

@[simp] theorem Term.toQuantity_value (t : Term ℚ) : t.toQuantity.value = .number t.value := rfl

namespace Universe

variable {u : Universe ℚ} {a b t : Term ℚ} {t' : Term Quantity} {x : Quantity} {q : ℚ}

/-- The same universe, to be asked for any quantity. -/
def toQuantity (u : Universe ℚ) : Universe Quantity :=
  ⟨u.name, u.description, u.terms.map Term.toQuantity⟩

theorem exists_center (ht : t' ∈ u.toQuantity.terms) : ∃ q, t'.center = .number q := by
  obtain ⟨t, -, rfl⟩ := List.mem_map.1 ht
  exact ⟨t.center, rfl⟩

theorem Built.pairwise_toQuantity (h : u.toQuantity.Built) :
    u.toQuantity.terms.Pairwise fun s t => s.center ≤ t.center :=
  h.ascending Quantity.ordered_number.toComparable fun _ => exists_center

theorem Built.pairwise_of_toQuantity (h : u.toQuantity.Built) :
    u.terms.Pairwise fun s t => s.center ≤ t.center := by
  have hpairwise := h.pairwise_toQuantity
  rw [toQuantity, List.pairwise_map] at hpairwise
  exact hpairwise

theorem line_toQuantity (hab : b.center - a.center ≠ 0) (q : ℚ) :
    line a.toQuantity b.toQuantity (.number q) = .number (line a b q) := by
  simp [line, Quantity.number_div hab]

/-! ### Where a universe has no value -/

/-- What is no number is outside, and so is a number below or above all centers. -/
def Outside (u : Universe ℚ) : Quantity → Prop
  | .number q => (∀ t ∈ u.terms, q < t.center) ∨ ∀ t ∈ u.terms, t.center < q
  | .notANumber => True

/-- Two terms stand at the coordinate with different values. -/
def Conflicts (u : Universe ℚ) (x : Quantity) : Prop :=
  ∃ s ∈ u.terms, ∃ t ∈ u.terms,
    x = .number s.center ∧ x = .number t.center ∧ s.value ≠ t.value

theorem not_outside_of_le {s t : Term ℚ} (hs : s ∈ u.terms) (ht : t ∈ u.terms)
    (hsq : s.center ≤ q) (hqt : q ≤ t.center) : ¬ u.Outside (.number q) := by
  rintro (hbelow | habove)
  · exact (hbelow s hs).not_ge hsq
  · exact (habove t ht).not_ge hqt

theorem not_conflicts_of_outside (hx : u.Outside x) : ¬ u.Conflicts x := by
  rintro ⟨s, hs, -, -, rfl, -, -⟩
  exact not_outside_of_le hs hs le_rfl le_rfl hx

theorem outside_of_domain (h : u.terms.Pairwise fun s t => s.center ≤ t.center)
    {low high : Quantity} (hdomain : u.toQuantity.domain? = some (low, high))
    (hx : ¬ (low ≤ x ∧ x ≤ high)) : u.Outside x := by
  obtain ⟨name, description, terms⟩ := u
  cases terms with
  | nil => cases hdomain
  | cons t rest =>
    have hends : (Term.toQuantity t).center = low ∧
        (lastFrom t.toQuantity (rest.map Term.toQuantity)).center = high := by
      simpa [domain?, toQuantity] using hdomain
    obtain ⟨rfl, rfl⟩ := hends
    cases x with
    | notANumber => trivial
    | number q =>
      rw [lastFrom_map] at hx
      rcases not_and_or.1 hx with hlow | hhigh
      · refine .inl fun s hs => (not_le.1 hlow).trans_le ?_
        rcases List.mem_cons.1 hs with rfl | hs
        · exact le_rfl
        · exact (List.pairwise_cons.1 h).1 s hs
      · have hlast := le_lastFrom Scalar.comparable_rat (fun _ _ => trivial) h
        exact .inr fun s hs => (hlast s hs).trans_lt (not_le.1 hhigh)

/-! ### Where it has one -/

/-- The two terms next to a coordinate, found where the search says, and a value on the line
through them. -/
structure Interpolates (u : Universe ℚ) (q v : ℚ) (a b : Term ℚ) : Prop where
  bracket : Bracket u.terms q a b
  found : 0 < countLeading (fun t => t.center < .number q) u.toQuantity.terms ∧
    u.toQuantity.terms[countLeading (fun t => t.center < .number q) u.toQuantity.terms - 1]? =
      some a.toQuantity ∧
    u.toQuantity.terms[countLeading (fun t => t.center < .number q) u.toQuantity.terms]? =
      some b.toQuantity
  divisor : b.center - a.center ≠ 0
  collinear : (v - a.value) * (b.center - a.center) = (b.value - a.value) * (q - a.center)
  low : min a.value b.value ≤ v
  high : v ≤ max a.value b.value

/-- The value that the terms at the coordinate share, or the one between its neighbours. -/
structure Determines (u : Universe ℚ) (q v : ℚ) : Prop where
  center {t : Term ℚ} (ht : t ∈ u.terms) (htq : t.center = q) : v = t.value
  between (away : ∀ t ∈ u.terms, t.center ≠ q) : ∃ a b, u.Interpolates q v a b

theorem bracket_of_toQuantity {a' b' : Term Quantity}
    (h : Bracket u.toQuantity.terms (.number q) a' b') :
    ∃ a b, a.toQuantity = a' ∧ b.toQuantity = b' ∧ Bracket u.terms q a b := by
  have hbelow := h.below
  have habove := h.above
  rw [toQuantity, List.filter_map, List.getLast?_map, Option.map_eq_some_iff] at hbelow
  rw [toQuantity, List.filter_map, List.head?_map, Option.map_eq_some_iff] at habove
  obtain ⟨a, ha, rfl⟩ := hbelow
  obtain ⟨b, hb, rfl⟩ := habove
  exact ⟨a, b, rfl, rfl, ha, hb⟩

/-- What a universe with several terms comes to at a quantity. -/
inductive Answer (u : Universe ℚ) : Quantity → Except (ModelFault Quantity) Quantity → Prop
  | outside {x low high : Quantity} (hx : u.Outside x) :
      Answer u x (.error (.outOfDomain u.name x low high))
  | conflict {x first second : Quantity} (hx : u.Conflicts x) :
      Answer u x (.error (.degenerate u.name x first second))
  | value {q v : ℚ} (inside : ¬ u.Outside (.number q)) (agree : ¬ u.Conflicts (.number q))
      (hv : u.Determines q v) : Answer u (.number q) (.ok (.number v))

theorem interpolates_line (h : u.toQuantity.Built) (away : ∀ t ∈ u.terms, t.center ≠ q)
    (hbracket : Bracket u.terms q a b)
    (hbracket' : Bracket u.toQuantity.terms (.number q) a.toQuantity b.toQuantity) :
    u.Interpolates q (line a b q) a b := by
  have haway : ∀ t ∈ u.toQuantity.terms, ¬ (t.center == .number q) = true := by
    intro t' ht' htq
    obtain ⟨t, ht, rfl⟩ := List.mem_map.1 ht'
    exact away t ht (Quantity.number.inj (Quantity.number_beq.1 htq)).symm
  have haq := hbracket.mem_below.2
  have hqb := hbracket.mem_above.2
  have hdivisor : b.center - a.center ≠ 0 := (sub_pos.2 (haq.trans hqb)).ne'
  obtain ⟨hlow, hhigh⟩ := line_bounds (haq.trans hqb) haq.le hqb.le
  have hfound := hbracket'.getElem?_countLeading Quantity.ordered_number ⟨q, rfl⟩
    (fun _ => exists_center) h.pairwise_toQuantity haway
  exact ⟨hbracket, hfound, hdivisor, line_collinear hdivisor q, hlow, hhigh⟩

theorem answer_at_center (ht : t ∈ u.terms)
    (hagree : ∀ s ∈ u.terms, s.center = t.center → s.value = t.value) :
    Answer u (.number t.center) (.ok (.number t.value)) := by
  refine .value (not_outside_of_le ht ht le_rfl le_rfl) ?_ ⟨?_, fun away => absurd rfl (away t ht)⟩
  · rintro ⟨s, hs, s', hs', hst, hs't, hne⟩
    rw [Quantity.number.injEq] at hst hs't
    exact hne ((hagree s hs hst.symm).trans (hagree s' hs' hs't.symm).symm)
  · exact fun hs hst => (hagree _ hs hst).symm

theorem answer_between (away : ∀ t ∈ u.terms, t.center ≠ q)
    (hinterpolates : u.Interpolates q (line a b q) a b) :
    Answer u (.number q) (.ok (line a.toQuantity b.toQuantity (.number q))) := by
  obtain ⟨ha, haq⟩ := hinterpolates.bracket.mem_below
  obtain ⟨hb, hqb⟩ := hinterpolates.bracket.mem_above
  rw [line_toQuantity hinterpolates.divisor]
  refine .value (not_outside_of_le ha hb haq.le hqb.le) ?_
    ⟨fun ht htq => absurd htq (away _ ht), fun _ => ⟨a, b, hinterpolates⟩⟩
  rintro ⟨s, hs, -, -, hsq, -, -⟩
  exact away s hs (Quantity.number.inj hsq).symm

theorem answer_valueAt (h : u.toQuantity.Built) (hcount : 2 ≤ u.count) (x : Quantity) :
    Answer u x (u.toQuantity.valueAt x) := by
  have hcount' : 2 ≤ u.toQuantity.count := by simpa [count, toQuantity] using hcount
  have hreading := reading_valueAt Quantity.ordered_number (fun _ => exists_center)
    h.pairwise_toQuantity hcount' x
  generalize u.toQuantity.valueAt x = y at hreading ⊢
  cases hreading with
  | outside hdomain hx => exact .outside (outside_of_domain h.pairwise_of_toQuantity hdomain hx)
  | conflict hs' ht' hsx htx differ =>
    obtain ⟨s, hs, rfl⟩ := List.mem_map.1 hs'
    obtain ⟨t, ht, rfl⟩ := List.mem_map.1 ht'
    have hdiffer : t.value ≠ s.value := by simpa using differ
    exact .conflict ⟨s, hs, t, ht, Quantity.number_beq.1 hsx, Quantity.number_beq.1 htx,
      hdiffer.symm⟩
  | center ht' htx agree =>
    obtain ⟨t, ht, rfl⟩ := List.mem_map.1 ht'
    obtain rfl := Quantity.number_beq.1 htx
    refine answer_at_center ht fun s hs hst => ?_
    have hsx : (s.toQuantity.center == .number t.center) = true := by simp [hst]
    rcases agree _ (List.mem_map_of_mem hs) hsx with heq | hvalue
    · exact Quantity.number.inj (congrArg Term.value heq)
    · simpa using hvalue
  | between away bracket =>
    cases x with
    | notANumber => exact absurd bracket.mem_below.2 (Quantity.not_lt_notANumber _)
    | number q =>
      obtain ⟨a, b, rfl, rfl, hbracket⟩ := bracket_of_toQuantity bracket
      have haway : ∀ t ∈ u.terms, t.center ≠ q := by
        intro t ht htq
        exact away _ (List.mem_map_of_mem ht) (by simp [htq])
      exact answer_between haway (interpolates_line h haway hbracket bracket)

/-- For every coordinate it is settled what a universe comes to, and by which of its terms. -/
theorem valueAt_everywhere (h : u.toQuantity.Built) (x : Quantity) :
    ((∃ owner, u.toQuantity.valueAt x = .error (.emptyUniverse owner)) ↔ u.terms = []) ∧
    (∀ t, u.terms = [t] → u.toQuantity.valueAt x = .ok (.number t.value)) ∧
    (2 ≤ u.count →
      ((∃ owner y low high, u.toQuantity.valueAt x = .error (.outOfDomain owner y low high)) ↔
        u.Outside x) ∧
      ((∃ owner y first second,
        u.toQuantity.valueAt x = .error (.degenerate owner y first second)) ↔ u.Conflicts x) ∧
      (¬ u.Outside x → ¬ u.Conflicts x →
        ∃ q v, x = .number q ∧ u.toQuantity.valueAt x = .ok (.number v) ∧ u.Determines q v)) := by
  refine ⟨⟨?_, ?_⟩, ?_, fun hcount => ?_⟩
  · rintro ⟨owner, hempty⟩
    rcases hterms : u.terms with _ | ⟨t, _ | ⟨t', rest⟩⟩
    · rfl
    · simp [valueAt, toQuantity, hterms] at hempty
    · have hanswer := answer_valueAt h (by simp [count, hterms]) x
      rw [hempty] at hanswer
      cases hanswer
  · intro hempty
    exact ⟨u.name, by simp [valueAt, toQuantity, hempty]⟩
  · intro t ht
    simp [valueAt, toQuantity, ht]
  · have hanswer := answer_valueAt h hcount x
    generalize u.toQuantity.valueAt x = y at hanswer ⊢
    cases hanswer with
    | outside hx =>
      have hagree : ¬ u.Conflicts x := not_conflicts_of_outside hx
      simp [hx, hagree]
    | conflict hx =>
      have hinside : ¬ u.Outside x := fun hout => not_conflicts_of_outside hout hx
      simp [hx, hinside]
    | value inside agree hv => simpa [inside, agree] using hv

/-- Two terms that share the lower center, and one above them. -/
def shade : Universe ℚ := ⟨"shade", none, [⟨"black", 0, 0⟩, ⟨"dark", 0, 0⟩, ⟨"light", 2, 1⟩]⟩

theorem built_shade : shade.toQuantity.Built :=
  .of_pairwise Quantity.ordered_number.toComparable (fun _ ht => exists_center (u := shade) ht)
    (by decide) (by simp [shade])

/-- Between the centers there is a value, and off the numbers there is none. -/
theorem valueAt_everywhere_shade :
    shade.toQuantity.Built ∧
    (∃ owner y low high, shade.toQuantity.valueAt .notANumber =
      .error (.outOfDomain owner y low high)) ∧
    ∃ v, shade.toQuantity.valueAt (.number (1 / 2)) = .ok (.number v) ∧
      shade.Determines (1 / 2) v := by
  refine ⟨built_shade, ?_, ?_⟩
  · obtain ⟨-, -, hseveral⟩ := valueAt_everywhere built_shade .notANumber
    exact (hseveral (by decide)).1.2 trivial
  · obtain ⟨-, -, hseveral⟩ := valueAt_everywhere built_shade (.number (1 / 2))
    obtain ⟨-, -, hvalue⟩ := hseveral (by decide)
    obtain ⟨q, v, hq, hv, hdetermines⟩ := hvalue
      (not_outside_of_le (s := ⟨"black", 0, 0⟩) (t := ⟨"light", 2, 1⟩) (by simp [shade])
        (by simp [shade]) (by norm_num) (by norm_num))
      (by simp [Conflicts, shade])
    cases hq
    exact ⟨v, hv, hdetermines⟩

end Universe

end FuzzyRules
