import FuzzyRules.Proofs.Universe.Terms

/-!
# The order of terms

A search by halving counts the elements in front of the point where a condition stops to hold. So a
term is placed behind the terms whose center is not larger, and terms that are ascending stay so.
Numbers that the order leaves out, such as one that differs from itself, are not spoken of.
-/

namespace FuzzyRules

theorem countLeading_eq {α : Type} {p : α → Bool} {l : List α} {k : Nat} (hk : k ≤ l.length)
    (hp : ∀ i (h : i < l.length), p l[i] = true ↔ i < k) : countLeading p l = k := by
  fun_induction countLeading p l generalizing k with
  | case1 => simp_all
  | case2 a ha =>
    have := (hp 0 (by simp)).1 ha
    simp at hk
    omega
  | case3 a ha =>
    have := hp 0 (by simp)
    simp_all
  | case4 a b rest half _ upper hhalf =>
    rename_i ih
    have hlt : half < k := (hp half upper).1 hhalf
    have hdrop : countLeading p ((a :: b :: rest).drop half) = k - half := by
      apply ih
      · rw [List.length_drop]
        omega
      · intro i h
        rw [List.getElem_drop, hp]
        omega
    rw [hdrop]
    omega
  | case5 a b rest half _ upper hhalf =>
    rename_i ih
    have hle : k ≤ half := by
      have := (not_congr (hp half upper)).1 hhalf
      omega
    have hlower : half ≤ (a :: b :: rest).length - half := by
      simp only [half]
      omega
    apply ih
    · rw [List.length_take]
      omega
    · intro i h
      rw [List.getElem_take, hp]

theorem countLeading_append {α : Type} {p : α → Bool} {before after : List α}
    (hbefore : ∀ a ∈ before, p a = true) (hafter : ∀ a ∈ after, p a = false) :
    countLeading p (before ++ after) = before.length := by
  apply countLeading_eq
  · rw [List.length_append]
    omega
  · intro i h
    by_cases hi : i < before.length
    · simp [List.getElem_append_left hi, hi, hbefore _ (List.getElem_mem hi)]
    · rw [List.length_append] at h
      have hmem := List.getElem_mem (l := after) (n := i - before.length) (by omega)
      rw [List.getElem_append_right (by omega), hafter _ hmem]
      simp [hi]

theorem exists_split {α : Type} {p : α → Bool} {l : List α}
    (h : l.Pairwise fun a b => p b = true → p a = true) :
    ∃ before after, l = before ++ after ∧ (∀ a ∈ before, p a = true) ∧
      ∀ a ∈ after, p a = false := by
  induction l with
  | nil => exact ⟨[], [], rfl, by simp, by simp⟩
  | cons a rest ih =>
    obtain ⟨hfirst, hrest⟩ := List.pairwise_cons.1 h
    cases ha : p a with
    | true =>
      obtain ⟨before, after, rfl, hbefore, hafter⟩ := ih hrest
      exact ⟨a :: before, after, rfl, List.forall_mem_cons.2 ⟨ha, hbefore⟩, hafter⟩
    | false =>
      refine ⟨[], a :: rest, rfl, by simp, List.forall_mem_cons.2 ⟨ha, fun b hb => ?_⟩⟩
      have := mt (hfirst b hb)
      simp_all

/-- The numbers that can be compared with each other. -/
structure Scalar.Comparable {α : Type} [Scalar α] (proper : α → Prop) : Prop where
  total {a b : α} (ha : proper a) (hb : proper b) : a ≤ b ∨ b ≤ a
  trans {a b c : α} (ha : proper a) (hb : proper b) (hc : proper c) (hab : a ≤ b) (hbc : b ≤ c) :
    a ≤ c

theorem Scalar.Comparable.refl {α : Type} [Scalar α] {proper : α → Prop}
    (h : Scalar.Comparable proper) {a : α} (ha : proper a) : a ≤ a :=
  (h.total ha ha).elim id id

namespace Universe

variable {α : Type} [Scalar α] {proper : α → Prop} {t : Term α} {terms before after : List (Term α)}

theorem place_append (hbefore : ∀ s ∈ before, s.center ≤ t.center)
    (hafter : ∀ s ∈ after, ¬ s.center ≤ t.center) :
    place t (before ++ after) = before ++ t :: after := by
  have hcount : countLeading (fun s => s.center ≤ t.center) (before ++ after) = before.length :=
    countLeading_append (by simpa using hbefore) (by simpa using hafter)
  rw [place, hcount, List.take_left, List.drop_left]

/-- Ascending terms have a place for another one, unless it cannot be compared with them. -/
theorem exists_place (hproper : Scalar.Comparable proper) (ht : proper t.center)
    (hterms : ∀ s ∈ terms, proper s.center)
    (h : terms.Pairwise fun s s' => s.center ≤ s'.center) :
    ∃ before after, terms = before ++ after ∧ place t terms = before ++ t :: after ∧
      (∀ s ∈ before, s.center ≤ t.center) ∧ ∀ s ∈ after, ¬ s.center ≤ t.center := by
  have hdown : terms.Pairwise fun s s' =>
      decide (s'.center ≤ t.center) = true → decide (s.center ≤ t.center) = true := by
    refine h.imp_of_mem ?_
    intro s s' hs hs' hle hs't
    rw [decide_eq_true_eq] at hs't ⊢
    exact hproper.trans (hterms s hs) (hterms s' hs') ht hle hs't
  obtain ⟨before, after, rfl, hbefore, hafter⟩ := exists_split hdown
  simp only [decide_eq_true_eq, decide_eq_false_iff_not] at hbefore hafter
  exact ⟨before, after, rfl, place_append hbefore hafter, hbefore, hafter⟩

theorem pairwise_place (hproper : Scalar.Comparable proper) (ht : proper t.center)
    (hterms : ∀ s ∈ terms, proper s.center)
    (h : terms.Pairwise fun s s' => s.center ≤ s'.center) :
    (place t terms).Pairwise fun s s' => s.center ≤ s'.center := by
  obtain ⟨before, after, rfl, hplace, hbefore, hafter⟩ := exists_place hproper ht hterms h
  obtain ⟨hb, ha, hba⟩ := List.pairwise_append.1 h
  have hge : ∀ s ∈ after, t.center ≤ s.center := by
    intro s hs
    exact (hproper.total ht (hterms s (List.mem_append_right _ hs))).resolve_right (hafter s hs)
  rw [hplace]
  refine List.pairwise_append.2 ⟨hb, List.pairwise_cons.2 ⟨hge, ha⟩, ?_⟩
  intro s hs s' hs'
  rcases List.mem_cons.1 hs' with rfl | hs'
  · exact hbefore s hs
  · exact hba s hs s' hs'

theorem le_lastFrom (hproper : Scalar.Comparable proper) {t : Term α} {rest : List (Term α)}
    (hterms : ∀ s ∈ t :: rest, proper s.center)
    (h : (t :: rest).Pairwise fun s s' => s.center ≤ s'.center) :
    ∀ s ∈ t :: rest, s.center ≤ (lastFrom t rest).center := by
  induction rest generalizing t with
  | nil =>
    intro s hs
    obtain rfl := List.mem_singleton.1 hs
    exact hproper.refl (hterms s hs)
  | cons t' rest ih =>
    obtain ⟨hfirst, hrest⟩ := List.pairwise_cons.1 h
    intro s hs
    rcases List.mem_cons.1 hs with rfl | hs
    · exact hfirst _ (lastFrom_mem t' rest)
    · exact ih (fun s hs => hterms s (List.mem_cons_of_mem t hs)) hrest s hs

/-- The domain of ascending terms reaches from their smallest center to their largest one. -/
theorem domain?_spec (hproper : Scalar.Comparable proper) {u : Universe α} {low high : α}
    (hterms : ∀ t ∈ u.terms, proper t.center)
    (h : u.terms.Pairwise fun s s' => s.center ≤ s'.center)
    (hdomain : u.domain? = some (low, high)) :
    (∃ t ∈ u.terms, t.center = low) ∧ (∃ t ∈ u.terms, t.center = high) ∧
      ∀ t ∈ u.terms, low ≤ t.center ∧ t.center ≤ high := by
  obtain ⟨name, description, terms⟩ := u
  cases terms with
  | nil => cases hdomain
  | cons first rest =>
    cases hdomain
    refine ⟨⟨first, List.mem_cons_self, rfl⟩, ⟨_, lastFrom_mem first rest, rfl⟩, ?_⟩
    refine fun t ht => ⟨?_, le_lastFrom hproper hterms h t ht⟩
    rcases List.mem_cons.1 ht with rfl | ht
    · exact hproper.refl (hterms t List.mem_cons_self)
    · exact (List.pairwise_cons.1 h).1 t ht

/-- The terms ascend by center, if their centers can be compared at all. -/
def Ascending (proper : α → Prop) (u : Universe α) : Prop :=
  (∀ t ∈ u.terms, proper t.center) → u.terms.Pairwise fun s t => s.center ≤ t.center

theorem ascending_add (hproper : Scalar.Comparable proper) {u u' : Universe α}
    (hu : u.Ascending proper) (h : u.add t = .ok u') : u'.Ascending proper := by
  rw [add_eq_ok h]
  intro hall
  have hall : proper t.center ∧ ∀ s ∈ u.terms, proper s.center :=
    ⟨hall t (mem_place.2 (.inl rfl)), fun s hs => hall s (mem_place.2 (.inr hs))⟩
  exact pairwise_place hproper hall.1 hall.2 (hu hall.2)

end Universe

end FuzzyRules
