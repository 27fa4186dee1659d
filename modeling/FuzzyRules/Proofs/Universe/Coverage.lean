import FuzzyRules.Proofs.Universe.Values
import Mathlib.Algebra.Order.Ring.Rat

/-!
# What a universe covers

Over exact fractions a universe with ascending terms has a value at every coordinate from its first
to its last center, as long as terms that share a center agree. A universe with one term has a value
everywhere.
-/

namespace FuzzyRules

theorem Scalar.comparable_rat : Scalar.Comparable fun _ : ℚ => True where
  total {a b} _ _ := le_total a b
  trans _ _ _ hab hbc := le_trans (α := ℚ) hab hbc

theorem Scalar.ordered_rat : Scalar.Ordered fun _ : ℚ => True where
  toComparable := comparable_rat
  proper_of_le _ := ⟨trivial, trivial⟩
  lt_iff _ _ := not_le (α := ℚ).symm
  beq_of_le hab hba := beq_iff_eq.2 (le_antisymm (α := ℚ) hab hba)

namespace Universe

variable {u : Universe ℚ} {t : Term ℚ} {rest : List (Term ℚ)} {x : ℚ}

def Covers (u : Universe ℚ) (x : ℚ) : Prop :=
  u.count = 1 ∨ ∃ low high, u.domain? = some (low, high) ∧ low ≤ x ∧ x ≤ high

/-- Terms that share a center share their value. -/
def Agrees (u : Universe ℚ) : Prop :=
  ∀ s ∈ u.terms, ∀ t ∈ u.terms, s.center = t.center → s.value = t.value

theorem covers_center (h : u.terms.Pairwise fun s s' => s.center ≤ s'.center) (ht : t ∈ u.terms) :
    u.Covers t.center := by
  cases hdomain : u.domain? with
  | none => exact absurd ht (by rw [domain?_eq_none.1 hdomain]; exact List.not_mem_nil)
  | some ends =>
    obtain ⟨-, -, hbounds⟩ := domain?_spec Scalar.comparable_rat (fun _ _ => trivial) h hdomain
    exact .inr ⟨ends.1, ends.2, hdomain, hbounds t ht⟩

theorem exists_valueAt (h : u.terms.Pairwise fun s s' => s.center ≤ s'.center) (hagrees : u.Agrees)
    (hx : u.Covers x) : ∃ y, u.valueAt x = .ok y := by
  obtain ⟨name, description, terms⟩ := u
  match terms with
  | [] => simp [Covers, count, domain?] at hx
  | [t] => exact ⟨t.value, rfl⟩
  | t :: t' :: rest =>
    obtain ⟨low, high, hdomain, hlow, hhigh⟩ := hx.resolve_left (by simp [count])
    have hreading := reading_valueAt Scalar.ordered_rat (fun _ _ => trivial) h (by simp [count]) x
    generalize valueAt _ x = answer at hreading ⊢
    cases hreading with
    | outside domain hout =>
      cases hdomain.symm.trans domain
      exact absurd ⟨hlow, hhigh⟩ hout
    | conflict hs ht hsx htx differ =>
      rw [beq_iff_eq] at hsx htx
      exact absurd (hagrees _ ht _ hs (htx.trans hsx.symm)) (bne_iff_ne.1 differ)
    | center ht htx agree => exact ⟨_, rfl⟩
    | between away bracket => exact ⟨_, rfl⟩

end Universe

end FuzzyRules
