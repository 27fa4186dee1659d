import Mathlib.Data.List.Nodup
import FuzzyRules.Proofs.Traversal

/-!
# Names that are taken

Where every step takes a new name, a list of elements is taken in exactly if their names are
distinct and none of them is taken before.
-/

namespace FuzzyRules

open Traversal

/-- A step that takes a name: it succeeds if the name is new and the element is good in itself, and
then the names that are taken are those from before and the new one. -/
structure Takes {σ α κ ε : Type} (step : σ → α → Except ε σ) (key : α → κ) (inv : σ → Prop)
    (taken : σ → κ → Prop) (good : α → Prop) : Prop where
  succeeds {s : σ} {a : α} (hs : inv s) :
    (∃ s', step s a = .ok s') ↔ good a ∧ ¬ taken s (key a)
  keeps {s s' : σ} {a : α} (hs : inv s) (h : step s a = .ok s') : inv s'
  names {s s' : σ} {a : α} (hs : inv s) (h : step s a = .ok s') (k : κ) :
    taken s' k ↔ k = key a ∨ taken s k

theorem Takes.exists_foldlM_iff {σ α κ ε : Type} {step : σ → α → Except ε σ} {key : α → κ}
    {inv : σ → Prop} {taken : σ → κ → Prop} {good : α → Prop}
    (h : Takes step key inv taken good) {l : List α} {s : σ} (hs : inv s) :
    (∃ s', l.foldlM step s = .ok s') ↔
      (∀ a ∈ l, good a) ∧ (l.map key).Nodup ∧ ∀ a ∈ l, ¬ taken s (key a) := by
  induction l generalizing s with
  | nil => simpa using ⟨s, rfl⟩
  | cons a rest ih =>
    simp only [foldlM_cons_eq_ok_iff, List.forall_mem_cons, List.map_cons, List.nodup_cons]
    constructor
    · rintro ⟨s', s₁, ha, hrest⟩
      obtain ⟨hgood, hnew⟩ := (h.succeeds hs).1 ⟨s₁, ha⟩
      obtain ⟨hgoods, hnodup, hnews⟩ := (ih (h.keeps hs ha)).1 ⟨s', hrest⟩
      have hkey : ∀ b ∈ rest, key b ≠ key a ∧ ¬ taken s (key b) := by
        intro b hb
        have := hnews b hb
        rwa [h.names hs ha, not_or] at this
      refine ⟨⟨hgood, hgoods⟩, ⟨?_, hnodup⟩, hnew, fun b hb => (hkey b hb).2⟩
      rw [List.mem_map]
      rintro ⟨b, hb, heq⟩
      exact (hkey b hb).1 heq
    · rintro ⟨⟨hgood, hgoods⟩, ⟨hfresh, hnodup⟩, hnew, hnews⟩
      obtain ⟨s₁, ha⟩ := (h.succeeds hs).2 ⟨hgood, hnew⟩
      have hnews₁ : ∀ b ∈ rest, ¬ taken s₁ (key b) := by
        intro b hb
        rw [h.names hs ha, not_or]
        exact ⟨fun heq => hfresh (List.mem_map.2 ⟨b, hb, heq⟩), hnews b hb⟩
      obtain ⟨s', hrest⟩ := (ih (h.keeps hs ha)).2 ⟨hgoods, hnodup, hnews₁⟩
      exact ⟨s', s₁, ha, hrest⟩

end FuzzyRules
