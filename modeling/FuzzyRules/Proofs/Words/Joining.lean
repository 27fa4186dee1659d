import FuzzyRules.Proofs.Words.Tokenizing

/-!
# Texts with separators between them

Two texts that have tokens keep them when separators stand between the texts, even if the first
one ends in the middle of a word or of a number.
-/

namespace FuzzyRules

variable {cs ds : List Char} {ps qs : List Piece} {separators : List Char}

theorem Piece.EndsBefore.append {p : Piece} (h : p.EndsBefore cs)
    (hds : ∀ c ∈ ds.head?, IsSeparator c) : p.EndsBefore (cs ++ ds) := by
  cases cs with
  | cons c cs => cases p <;> exact h
  | nil =>
    cases p with
    | separator _ => trivial
    | text _ => trivial
    | word _ => exact fun c hc => .inl (hds c hc)
    | number _ => exact hds

theorem Splits.append (h : Splits cs ps) (h' : Splits ds qs)
    (hds : ∀ c ∈ ds.head?, IsSeparator c) : Splits (cs ++ ds) (ps ++ qs) := by
  induction h with
  | nil => exact h'
  | cons valid ends _ ih =>
    rw [List.append_assoc]
    exact .cons valid (ends.append hds) ih

theorem Splits.after_separators (h : Splits cs ps) (hseparators : ∀ c ∈ separators, IsSeparator c) :
    Splits (separators ++ cs) (separators.map .separator ++ ps) := by
  induction separators with
  | nil => exact h
  | cons c rest ih =>
    obtain ⟨hc, hrest⟩ := List.forall_mem_cons.1 hseparators
    exact Reading.splits_separator hc (ih hrest)

theorem filterMap_token?_separators (separators : List Char) :
    (separators.map Piece.separator).filterMap Piece.token? = [] := by
  simp [List.filterMap_map, Function.comp_def, Piece.token?]

theorem Splits.append_separators (h : Splits cs ps) (h' : Splits ds qs) (hne : separators ≠ [])
    (hseparators : ∀ c ∈ separators, IsSeparator c) :
    Splits (cs ++ (separators ++ ds)) (ps ++ (separators.map .separator ++ qs)) := by
  refine h.append (h'.after_separators hseparators) ?_
  cases separators with
  | nil => exact absurd rfl hne
  | cons c rest => simpa using hseparators c List.mem_cons_self

namespace TokenStream

theorem tokens_eq_ok_iff {source : String} {ts : List Token} :
    (ofText wordTable source).tokens = some (.ok ts) ↔
      ∃ ps, Splits source.toList ps ∧ ps.filterMap Piece.token? = ts := by
  obtain ⟨l, ending, -, -, htokens, hiff⟩ := exists_yields source
  rw [htokens, Option.some_inj]
  exact hiff ts

theorem tokens_join {a b s : String} {ts us : List Token}
    (ha : (ofText wordTable a).tokens = some (.ok ts))
    (hb : (ofText wordTable b).tokens = some (.ok us)) (hne : s ≠ "")
    (hs : ∀ c ∈ s.toList, IsSeparator c) :
    (ofText wordTable (a ++ s ++ b)).tokens = some (.ok (ts ++ us)) := by
  obtain ⟨ps, hps, rfl⟩ := tokens_eq_ok_iff.1 ha
  obtain ⟨qs, hqs, rfl⟩ := tokens_eq_ok_iff.1 hb
  have hne' : s.toList ≠ [] := fun h => hne (String.toList_eq_nil_iff.1 h)
  refine tokens_eq_ok_iff.2 ⟨ps ++ (s.toList.map .separator ++ qs), ?_, ?_⟩
  · rw [String.toList_append, String.toList_append, List.append_assoc]
    exact hps.append_separators hqs hne' hs
  · rw [List.filterMap_append, List.filterMap_append, filterMap_token?_separators, List.nil_append]

end TokenStream

end FuzzyRules
