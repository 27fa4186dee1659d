import FuzzyRules.Proofs.Universe.Monotony

/-!
# The order in which terms are listed

What a universe comes to at a coordinate depends on the centers and the values of its terms in
stored order, and not on their names. Over exact fractions, if terms that share a center share their
value, the same terms in another order are stored with the same centers and values, so nothing that
is computed from them changes.
-/

namespace FuzzyRules

theorem countLeading_map {α β : Type} (f : β → α) (p : α → Bool) (l : List β) :
    countLeading p (l.map f) = countLeading (fun b => p (f b)) l := by
  fun_induction countLeading (fun b => p (f b)) l with
  | case1 => simp [countLeading]
  | case2 a ha => simp [countLeading, ha]
  | case3 a ha => simp [countLeading, ha]
  | case4 a b rest half _ _ hhalf ih =>
    rw [List.map_cons, List.map_cons, countLeading]
    simp only [← List.map_cons, List.length_map, List.getElem_map, ← List.map_drop]
    rw [if_pos hhalf]
    exact congrArg (half + ·) ih
  | case5 a b rest half _ _ hhalf ih =>
    rw [List.map_cons, List.map_cons, countLeading]
    simp only [← List.map_cons, List.length_map, List.getElem_map, ← List.map_take]
    rw [if_neg hhalf]
    exact ih

variable {α : Type}

/-- The center and the value alone. -/
def Term.anonymous (t : Term α) : Term α := ⟨"", t.center, t.value⟩

namespace Universe

/-- The same universe without the names of its terms. -/
def anonymous (u : Universe α) : Universe α := ⟨u.name, none, u.terms.map Term.anonymous⟩

theorem domain?_anonymous (u : Universe α) : u.anonymous.domain? = u.domain? := by
  obtain ⟨name, description, terms⟩ := u
  cases terms with
  | nil => rfl
  | cons t rest =>
    change some (t.center, (lastFrom t.anonymous (rest.map Term.anonymous)).center) = _
    rw [lastFrom_map]
    rfl

variable [Scalar α]

theorem agreed_anonymous (owner : String) (x : α) (hit : Term α) (others : List (Term α)) :
    agreed owner x hit.anonymous (others.map Term.anonymous) = agreed owner x hit others := by
  have hfind : (others.map Term.anonymous).find? (fun t => t.value != hit.anonymous.value) =
      (others.find? fun t => t.value != hit.value).map Term.anonymous := List.find?_map
  unfold agreed
  rw [hfind]
  cases others.find? fun t => t.value != hit.value <;> rfl

theorem neighbours?_anonymous (terms : List (Term α)) (x : α) :
    neighbours? (terms.map Term.anonymous) x =
      (neighbours? terms x).map (Prod.map Term.anonymous Term.anonymous) := by
  have hcount : countLeading (fun t => t.center < x) (terms.map Term.anonymous) =
      countLeading (fun t => t.center < x) terms := countLeading_map ..
  simp only [neighbours?, hcount, ← List.map_take, ← List.map_drop, List.getLast?_map,
    List.head?_map]
  cases (terms.take (countLeading (fun t => t.center < x) terms)).getLast? <;>
    cases (terms.drop (countLeading (fun t => t.center < x) terms)).head? <;> rfl

theorem valueWithin_anonymous (owner : String) (terms : List (Term α)) (low high x : α) :
    valueWithin owner (terms.map Term.anonymous) low high x =
      valueWithin owner terms low high x := by
  have hhits : (terms.map Term.anonymous).filter (fun t => t.center == x) =
      (terms.filter fun t => t.center == x).map Term.anonymous := List.filter_map
  unfold valueWithin
  rw [hhits, neighbours?_anonymous]
  cases terms.filter fun t => t.center == x with
  | cons hit others => simp only [List.map_cons, agreed_anonymous]
  | nil => cases neighbours? terms x <;> rfl

theorem valueAt_anonymous (u : Universe α) (x : α) : u.anonymous.valueAt x = u.valueAt x := by
  obtain ⟨name, description, terms⟩ := u
  match terms with
  | [] => rfl
  | [t] => rfl
  | t :: s :: rest =>
    change valueWithin name ((t :: s :: rest).map Term.anonymous) t.center
      (lastFrom s.anonymous (rest.map Term.anonymous)).center x = _
    rw [valueWithin_anonymous, lastFrom_map]
    rfl

theorem separation_anonymous (u : Universe α) (a b : α) :
    u.anonymous.separation a b = u.separation a b := by
  simp only [separation, valueAt_anonymous]

section Fractions

variable {terms terms' : List (Term ℚ)}

theorem checkTrend_anonymous (u : Universe ℚ) :
    u.anonymous.checkTrend = .ok () ↔ u.checkTrend = .ok () := by
  have hvalues : u.anonymous.terms.map Term.value = u.terms.map Term.value := List.map_map ..
  rw [checkTrend_eq_ok_iff_values, checkTrend_eq_ok_iff_values, Rising, Falling, hvalues]
  rfl

/-- Only the names at a shared center depend on the order in which terms are listed. -/
theorem anonymous_sorted
    (hagree : ∀ s ∈ terms, ∀ t ∈ terms, s.center = t.center → s.value = t.value)
    (hperm : terms.Perm terms') :
    (sorted terms).map Term.anonymous = (sorted terms').map Term.anonymous := by
  have hsorted (terms : List (Term ℚ)) :
      ((sorted terms).map Term.anonymous).Pairwise fun s t => s.center ≤ t.center :=
    List.pairwise_map.2 (pairwise_sorted Scalar.comparable_rat fun _ _ => trivial)
  refine List.Perm.eq_of_pairwise ?_ (hsorted terms) (hsorted terms') ?_
  · intro a b ha hb hab hba
    obtain ⟨s, hs, rfl⟩ := List.mem_map.1 ha
    obtain ⟨t, ht, rfl⟩ := List.mem_map.1 hb
    have hcenter : s.center = t.center := le_antisymm hab hba
    have hvalue := hagree s (mem_sorted.1 hs) t (hperm.mem_iff.2 (mem_sorted.1 ht)) hcenter
    rw [Term.anonymous, Term.anonymous, hcenter, hvalue]
  · exact ((perm_sorted terms).trans (hperm.trans (perm_sorted terms').symm)).map _

/-- Terms that agree make the same universe in any order, up to names at a shared center: the domain
is the same, the values and separations are the same, errors included, and so is the trend. -/
theorem listing_indifferent (name : String) (description : Option String)
    (hdistinct : (terms.map Term.name).Nodup)
    (hagree : ∀ s ∈ terms, ∀ t ∈ terms, s.center = t.center → s.value = t.value)
    (hperm : terms.Perm terms') :
    ∃ u u', terms.foldlM add ⟨name, description, []⟩ = .ok u ∧
      terms'.foldlM add ⟨name, description, []⟩ = .ok u' ∧
      u.domain? = u'.domain? ∧ (∀ x, u.valueAt x = u'.valueAt x) ∧
      (∀ a b, u.separation a b = u'.separation a b) ∧
      (u.checkTrend = .ok () ↔ u'.checkTrend = .ok ()) := by
  have hadd (terms : List (Term ℚ)) (hdistinct : (terms.map Term.name).Nodup) :
      terms.foldlM add ⟨name, description, []⟩ = .ok ⟨name, description, sorted terms⟩ :=
    foldlM_add_eq Scalar.comparable_rat (fun _ _ => trivial) hdistinct
  have hsame : (⟨name, description, sorted terms⟩ : Universe ℚ).anonymous =
      (⟨name, description, sorted terms'⟩ : Universe ℚ).anonymous := by
    rw [anonymous, anonymous, anonymous_sorted hagree hperm]
  refine ⟨_, _, hadd terms hdistinct,
    hadd terms' ((hperm.map Term.name).nodup_iff.1 hdistinct), ?_, fun x => ?_, fun a b => ?_, ?_⟩
  · rw [← domain?_anonymous, hsame, domain?_anonymous]
  · rw [← valueAt_anonymous, hsame, valueAt_anonymous]
  · rw [← separation_anonymous, hsame, separation_anonymous]
  · rw [← checkTrend_anonymous, hsame, checkTrend_anonymous]

/-- Two terms share the center in the middle, and their value. -/
def fillings : List (Term ℚ) := [⟨"full", 2, 5⟩, ⟨"half", 1, 1⟩, ⟨"middle", 1, 1⟩, ⟨"empty", 0, 0⟩]

theorem listing_indifferent_fillings :
    ((fillings.map Term.name).Nodup ∧
      (∀ s ∈ fillings, ∀ t ∈ fillings, s.center = t.center → s.value = t.value) ∧
      fillings.Perm fillings.reverse) ∧
    ∃ u u', fillings.foldlM add (new "tank") = .ok u ∧
      fillings.reverse.foldlM add (new "tank") = .ok u' ∧
      u.domain? = u'.domain? ∧ (∀ x, u.valueAt x = u'.valueAt x) ∧
      (∀ a b, u.separation a b = u'.separation a b) ∧
      (u.checkTrend = .ok () ↔ u'.checkTrend = .ok ()) := by
  have hdistinct : (fillings.map Term.name).Nodup := by decide
  have hagree : ∀ s ∈ fillings, ∀ t ∈ fillings, s.center = t.center → s.value = t.value := by
    simp [fillings]
  have hperm : fillings.Perm fillings.reverse := (List.reverse_perm fillings).symm
  exact ⟨⟨hdistinct, hagree, hperm⟩, listing_indifferent "tank" none hdistinct hagree hperm⟩

end Fractions

end Universe

end FuzzyRules
