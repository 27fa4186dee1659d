import FuzzyRules.Proofs.Taking
import FuzzyRules.Universe.Basic

/-!
# Terms of a universe

A term is taken in exactly if its name is new, and then the names are those from before and its own.
-/

namespace FuzzyRules.Universe

variable {α : Type} {u u' : Universe α} {t t' : Term α} {terms : List (Term α)} {name : String}

theorem isSome_term?_iff : (u.term? name).isSome = true ↔ ∃ t ∈ u.terms, t.name = name := by
  simp [term?]

theorem name_of_term? (h : u.term? name = some t) : t.name = name := by
  have hfound : u.terms.find? (fun t => t.name = name) = some t := h
  simpa using List.find?_some hfound

theorem term?_eq_some_iff (hdistinct : (u.terms.map Term.name).Nodup) :
    u.term? name = some t ↔ t ∈ u.terms ∧ t.name = name := by
  constructor
  · exact fun h => ⟨List.mem_of_find?_eq_some h, name_of_term? h⟩
  · rintro ⟨ht, rfl⟩
    obtain ⟨s, hs⟩ := Option.isSome_iff_exists.1 (isSome_term?_iff.2 ⟨t, ht, rfl⟩)
    rw [hs, List.inj_on_of_nodup_map hdistinct (List.mem_of_find?_eq_some hs) ht
      (name_of_term? hs)]

theorem lastFrom_mem (t : Term α) (rest : List (Term α)) : lastFrom t rest ∈ t :: rest := by
  rw [lastFrom_eq_getLast]
  exact List.getLast_mem _

theorem lastFrom_map {β : Type} (f : Term α → Term β) (t : Term α) (rest : List (Term α)) :
    lastFrom (f t) (rest.map f) = f (lastFrom t rest) := by
  induction rest generalizing t with
  | nil => rfl
  | cons t' rest ih => exact ih t'

variable [Scalar α]

theorem perm_place (t : Term α) (terms : List (Term α)) : (place t terms).Perm (t :: terms) := by
  rw [place]
  refine List.perm_middle.trans (List.Perm.of_eq ?_)
  rw [List.take_append_drop]

theorem mem_place : t' ∈ place t terms ↔ t' = t ∨ t' ∈ terms :=
  (perm_place t terms).mem_iff.trans List.mem_cons

theorem exists_add_iff : (∃ u', u.add t = .ok u') ↔ ¬ (u.term? t.name).isSome = true := by
  unfold add
  split_ifs with h <;> simp [h]

theorem add_eq_ok (h : u.add t = .ok u') : u' = { u with terms := place t u.terms } := by
  unfold add at h
  split_ifs at h
  cases h
  rfl

theorem isSome_term?_of_add (h : u.add t = .ok u') :
    (u'.term? name).isSome = true ↔ name = t.name ∨ (u.term? name).isSome = true := by
  rw [add_eq_ok h]
  simp only [isSome_term?_iff, mem_place, or_and_right, exists_or, exists_eq_left]
  tauto

theorem takes_add : Takes (add : Universe α → _) Term.name (fun _ => True)
    (fun u name => (u.term? name).isSome = true) (fun _ => True) where
  succeeds _ := by rw [exists_add_iff, true_and]
  keeps _ _ := trivial
  names _ h _ := isSome_term?_of_add h

/-- Terms are taken in one after the other exactly if their names are distinct and new. -/
theorem exists_foldlM_add_iff : (∃ u', terms.foldlM add u = .ok u') ↔
    (terms.map Term.name).Nodup ∧ ∀ t ∈ terms, ¬ (u.term? t.name).isSome = true := by
  rw [takes_add.exists_foldlM_iff trivial]
  simp only [implies_true, true_and]

theorem name_of_add (h : u.add t = .ok u') : u'.name = u.name := by
  rw [add_eq_ok h]

end FuzzyRules.Universe
