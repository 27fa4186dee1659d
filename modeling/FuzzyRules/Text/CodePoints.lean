/-!
# Sets of code points

A set of characters is given by ascending, disjoint, inclusive ranges of code points. Membership
stops at the first range that lies above the code point asked for.
-/

namespace FuzzyRules.Text

abbrev CodePoints := List (Nat × Nat)

namespace CodePoints

def has : CodePoints → Nat → Bool
  | [], _ => false
  | (lo, hi) :: rest, n => if n < lo then false else if n ≤ hi then true else has rest n

@[simp] theorem has_nil (n : Nat) : has [] n = false := rfl

theorem exists_range_of_has {ranges : CodePoints} {n : Nat} (h : ranges.has n = true) :
    ∃ r ∈ ranges, r.1 ≤ n ∧ n ≤ r.2 := by
  induction ranges with
  | nil => simp at h
  | cons r rest ih =>
    unfold has at h
    split at h
    · simp at h
    · split at h
      · exact ⟨r, List.mem_cons_self, by omega, by assumption⟩
      · obtain ⟨q, hq, hn⟩ := ih h
        exact ⟨q, List.mem_cons_of_mem _ hq, hn⟩

end CodePoints

end FuzzyRules.Text
