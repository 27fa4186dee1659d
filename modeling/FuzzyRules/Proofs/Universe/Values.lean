import FuzzyRules.Proofs.Universe.Arrangement
import FuzzyRules.Universe.Interpolation

/-!
# The values of a universe

A universe with several ascending terms comes to one of four things: a coordinate is not between the
outermost centers, terms conflict at it, terms agree at it, or it lies strictly between two
neighbours and has the value on the line through them. This holds for all numbers that stand in a
line, next to others that compare with nothing.
-/

namespace FuzzyRules

/-- The proper numbers are ordered, and nothing else compares. -/
structure Scalar.Ordered {α : Type} [Scalar α] (proper : α → Prop) : Prop
    extends Scalar.Comparable proper where
  proper_of_le {a b : α} (hab : a ≤ b) : proper a ∧ proper b
  lt_iff {a b : α} (ha : proper a) (hb : proper b) : a < b ↔ ¬ b ≤ a
  beq_of_le {a b : α} (hab : a ≤ b) (hba : b ≤ a) : (a == b) = true

namespace Universe

variable {α : Type} [Scalar α] {proper : α → Prop} {u : Universe α} {terms : List (Term α)}
  {a b : Term α} {x : α}

/-- The last stored term below a coordinate and the first one above it. -/
structure Bracket (terms : List (Term α)) (x : α) (a b : Term α) : Prop where
  below : (terms.filter fun t => t.center < x).getLast? = some a
  above : (terms.filter fun t => x < t.center).head? = some b

theorem Bracket.mem_below (h : Bracket terms x a b) : a ∈ terms ∧ a.center < x := by
  simpa using List.mem_filter.1 (List.mem_of_getLast? h.below)

theorem Bracket.mem_above (h : Bracket terms x a b) : b ∈ terms ∧ x < b.center := by
  simpa using List.mem_filter.1 (List.mem_of_head? h.above)

theorem exists_bracket (hlow : ∃ s ∈ terms, s.center < x) (hhigh : ∃ s ∈ terms, x < s.center) :
    ∃ a b, Bracket terms x a b := by
  obtain ⟨s, hs, hsx⟩ := hlow
  obtain ⟨s', hs', hxs'⟩ := hhigh
  have hbelow : (terms.filter fun t => t.center < x) ≠ [] :=
    List.ne_nil_of_mem (List.mem_filter.2 ⟨hs, decide_eq_true hsx⟩)
  have habove : (terms.filter fun t => x < t.center) ≠ [] :=
    List.ne_nil_of_mem (List.mem_filter.2 ⟨hs', decide_eq_true hxs'⟩)
  exact ⟨_, _, List.getLast?_eq_some_getLast hbelow, List.head?_eq_some_head habove⟩

section Ascending

variable (hproper : Scalar.Ordered proper) (hx : proper x) (hterms : ∀ t ∈ terms, proper t.center)
  (h : terms.Pairwise fun s s' => s.center ≤ s'.center)

include hproper hx hterms h

theorem exists_halves (hne : ∀ t ∈ terms, ¬ (t.center == x) = true) :
    ∃ before after, terms = before ++ after ∧ (terms.filter fun t => t.center < x) = before ∧
      (terms.filter fun t => x < t.center) = after ∧
      countLeading (fun t => t.center < x) terms = before.length := by
  have hdown : terms.Pairwise fun s s' =>
      decide (s'.center < x) = true → decide (s.center < x) = true := by
    refine h.imp_of_mem ?_
    intro s s' hs hs' hle hlt
    rw [decide_eq_true_eq, hproper.lt_iff (hterms _ hs') hx] at hlt
    rw [decide_eq_true_eq, hproper.lt_iff (hterms _ hs) hx]
    exact fun hxs => hlt (hproper.trans hx (hterms _ hs) (hterms _ hs') hxs hle)
  obtain ⟨before, after, rfl, hbefore, hafter⟩ := exists_split hdown
  have hcount := countLeading_append hbefore hafter
  refine ⟨before, after, rfl, ?_, ?_, hcount⟩
  · rw [List.filter_append, List.filter_eq_self.2 hbefore,
      List.filter_eq_nil_iff.2 (by simpa using hafter), List.append_nil]
  · simp only [decide_eq_true_eq, decide_eq_false_iff_not] at hbefore hafter
    have hbelow : ∀ t ∈ before, ¬ decide (x < t.center) = true := by
      intro t ht
      have hproper_t := hterms t (List.mem_append_left _ ht)
      have hlt := hbefore t ht
      rw [hproper.lt_iff hproper_t hx] at hlt
      rw [decide_eq_true_eq, hproper.lt_iff hx hproper_t, not_not]
      exact (hproper.total hproper_t hx).resolve_right hlt
    have habove : ∀ t ∈ after, decide (x < t.center) = true := by
      intro t ht
      have hmem := List.mem_append_right before ht
      have hlt := hafter t ht
      rw [hproper.lt_iff (hterms t hmem) hx, not_not] at hlt
      rw [decide_eq_true_eq, hproper.lt_iff hx (hterms t hmem)]
      exact fun hle => hne t hmem (hproper.beq_of_le hle hlt)
    rw [List.filter_append, List.filter_eq_nil_iff.2 hbelow, List.filter_eq_self.2 habove,
      List.nil_append]

/-- The neighbours that are found are the two terms next to the coordinate. -/
theorem neighbours?_eq_some_iff (hne : ∀ t ∈ terms, ¬ (t.center == x) = true) :
    neighbours? terms x = some (a, b) ↔ Bracket terms x a b := by
  obtain ⟨before, after, happend, hbelow, habove, hcount⟩ :=
    exists_halves hproper hx hterms h hne
  have hfound : neighbours? terms x = some (a, b) ↔
      before.getLast? = some a ∧ after.head? = some b := by
    simp only [neighbours?]
    rw [hcount, happend, List.take_left, List.drop_left]
    cases before.getLast? <;> cases after.head? <;> simp
  rw [hfound, ← hbelow, ← habove]
  exact ⟨fun h => ⟨h.1, h.2⟩, fun h => ⟨h.below, h.above⟩⟩

theorem Bracket.getElem?_countLeading (hne : ∀ t ∈ terms, ¬ (t.center == x) = true)
    (hbracket : Bracket terms x a b) :
    0 < countLeading (fun t => t.center < x) terms ∧
      terms[countLeading (fun t => t.center < x) terms - 1]? = some a ∧
      terms[countLeading (fun t => t.center < x) terms]? = some b := by
  obtain ⟨before, after, happend, hbelow, habove, hcount⟩ :=
    exists_halves hproper hx hterms h hne
  have ha := hbracket.below
  have hb := hbracket.above
  rw [hbelow] at ha
  rw [habove] at hb
  have hpos : 0 < before.length := List.length_pos_iff.2 (by rintro rfl; cases ha)
  rw [hcount, happend]
  refine ⟨hpos, ?_, ?_⟩
  · rw [List.getElem?_append_left (by omega), ← List.getLast?_eq_getElem?, ha]
  · rw [List.getElem?_append_right (Nat.le_refl _), Nat.sub_self, ← List.head?_eq_getElem?, hb]

end Ascending

/-- What a universe with several terms comes to at a coordinate. -/
inductive Reading (u : Universe α) (x : α) : Except (ModelFault α) α → Prop
  | outside {low high : α} (domain : u.domain? = some (low, high)) (hx : ¬ (low ≤ x ∧ x ≤ high)) :
      Reading u x (.error (.outOfDomain u.name x low high))
  | conflict {s t : Term α} (hs : s ∈ u.terms) (ht : t ∈ u.terms) (hsx : (s.center == x) = true)
      (htx : (t.center == x) = true) (differ : (t.value != s.value) = true) :
      Reading u x (.error (.degenerate u.name x s.value t.value))
  | center {t : Term α} (ht : t ∈ u.terms) (htx : (t.center == x) = true)
      (agree : ∀ s ∈ u.terms, (s.center == x) = true → s = t ∨ (s.value != t.value) = false) :
      Reading u x (.ok t.value)
  | between {a b : Term α} (away : ∀ t ∈ u.terms, ¬ (t.center == x) = true)
      (bracket : Bracket u.terms x a b) : Reading u x (.ok (line a b x))

theorem reading_of_agreed {hit : Term α} {others : List (Term α)}
    (hhits : (u.terms.filter fun t => t.center == x) = hit :: others) :
    Reading u x (agreed u.name x hit others) := by
  have hmem : ∀ s, s ∈ hit :: others ↔ s ∈ u.terms ∧ (s.center == x) = true := by
    intro s
    rw [← hhits, List.mem_filter]
  obtain ⟨hhit, hhitx⟩ := (hmem hit).1 List.mem_cons_self
  unfold agreed
  cases hfind : others.find? fun t => t.value != hit.value with
  | some other =>
    obtain ⟨hother, hotherx⟩ :=
      (hmem other).1 (List.mem_cons_of_mem _ (List.mem_of_find?_eq_some hfind))
    have hdiffer := List.find?_some hfind
    exact .conflict hhit hother hhitx hotherx hdiffer
  | none =>
    refine .center hhit hhitx ?_
    intro s hs hsx
    rcases List.mem_cons.1 ((hmem s).2 ⟨hs, hsx⟩) with rfl | hs
    · exact .inl rfl
    · exact .inr (by simpa using List.find?_eq_none.1 hfind s hs)

theorem reading_valueAt (hproper : Scalar.Ordered proper) (hterms : ∀ t ∈ u.terms, proper t.center)
    (h : u.terms.Pairwise fun s s' => s.center ≤ s'.center) (hcount : 2 ≤ u.count) (x : α) :
    Reading u x (u.valueAt x) := by
  obtain ⟨name, description, terms⟩ := u
  match terms with
  | [] => simp [count] at hcount
  | [t] => simp [count] at hcount
  | t :: t' :: rest =>
    change Reading _ x (valueWithin name (t :: t' :: rest) t.center (lastFrom t' rest).center x)
    unfold valueWithin
    split_ifs with hx
    · cases hhits : (t :: t' :: rest).filter fun s => s.center == x with
      | cons hit others => exact reading_of_agreed (u := ⟨name, description, _⟩) hhits
      | nil =>
        obtain ⟨hlow, hhigh⟩ := hx
        obtain ⟨ht, hx⟩ := hproper.proper_of_le hlow
        have hlast := (hproper.proper_of_le hhigh).2
        have hne : ∀ s ∈ t :: t' :: rest, ¬ (s.center == x) = true :=
          List.filter_eq_nil_iff.1 hhits
        have hbelow : t.center < x := (hproper.lt_iff ht hx).2 fun hle =>
          hne t List.mem_cons_self (hproper.beq_of_le hlow hle)
        have habove : x < (lastFrom t' rest).center := (hproper.lt_iff hx hlast).2 fun hle =>
          hne _ (lastFrom_mem t (t' :: rest)) (hproper.beq_of_le hle hhigh)
        obtain ⟨a, b, hbracket⟩ := exists_bracket ⟨t, List.mem_cons_self, hbelow⟩
          ⟨_, lastFrom_mem t (t' :: rest), habove⟩
        rw [(neighbours?_eq_some_iff hproper hx hterms h hne).2 hbracket]
        exact .between hne hbracket
    · exact .outside rfl hx

end Universe

end FuzzyRules
