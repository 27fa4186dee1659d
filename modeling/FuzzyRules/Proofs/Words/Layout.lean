import FuzzyRules.Proofs.Words.Joining

/-!
# Tokens laid out as a text

A keyword is written as it is, a text in quotes with a backslash before every quote and every
backslash in it, and a number as any literal for it. Between two tokens there are separators, as
many as one likes but at least one. However its tokens are laid out, a text has just these tokens.
-/

namespace FuzzyRules

/-- A character of a text as it is written between quotes. -/
def escaped (c : Char) : List Char := if c = '"' ∨ c = '\\' then ['\\', c] else [c]

/-- The ways to write a token. -/
inductive Token.Spelled : Token → List Char → Prop
  | keyword (word : String) : Spelled (.keyword word) word.toList
  | text (content : String) :
      Spelled (.text content) ('"' :: content.toList.flatMap escaped ++ ['"'])
  | number {n : NumberText} {x : Float} (valid : n.Valid)
      (value : Decimal.literal? (String.ofList n.chars) = some x) : Spelled (.number x) n.chars

/-- The ways to write some tokens one after the other. There may be separators on either side of
them, too. -/
inductive Laid : List Token → List Char → Prop
  | nil : Laid [] []
  | behind {c : Char} {ts : List Token} {cs : List Char} (hc : IsSeparator c) (tail : Laid ts cs) :
      Laid ts (c :: cs)
  | last {t : Token} {cs : List Char} (spelled : t.Spelled cs) : Laid [t] cs
  | before {t : Token} {ts : List Token} {cs gap rest : List Char} (spelled : t.Spelled cs)
      (hne : gap ≠ []) (hgap : ∀ c ∈ gap, IsSeparator c) (tail : Laid ts rest) :
      Laid (t :: ts) (cs ++ (gap ++ rest))

/-- A keyword, if the token is one, is a run of letters. -/
def Token.Literate : Token → Prop
  | .keyword word => word.toList ≠ [] ∧ ∀ c ∈ word.toList, Text.isLetter c = true
  | _ => True

instance : DecidablePred Token.Literate
  | .keyword word =>
    decidable_of_iff (word.toList ≠ [] ∧ word.toList.all Text.isLetter = true)
      (and_congr_right' List.all_eq_true)
  | .text _ | .number _ | .finish => inferInstanceAs (Decidable True)

def TextUnit.ofChar (c : Char) : TextUnit := if c = '"' ∨ c = '\\' then .escaped c else .plain c

namespace TextUnit

theorem chars_ofChar (c : Char) : (ofChar c).chars = FuzzyRules.escaped c := by
  unfold ofChar FuzzyRules.escaped
  split_ifs <;> rfl

theorem content_ofChar (c : Char) : (ofChar c).content = c := by
  unfold ofChar
  split_ifs <;> rfl

theorem valid_ofChar (c : Char) : (ofChar c).Valid := by
  unfold ofChar
  split_ifs with h
  · exact h
  · exact not_or.1 h

end TextUnit

theorem Token.Spelled.exists_piece {t : Token} {cs : List Char} (h : t.Spelled cs)
    (ht : t.Literate) :
    ∃ p : Piece, p.Valid ∧ p.chars = cs ∧ p.EndsBefore [] ∧ p.token? = some t := by
  cases h with
  | keyword word =>
    exact ⟨.word word.toList, ht, rfl, nofun, by rw [Piece.token?, String.ofList_toList]⟩
  | text content =>
    refine ⟨.text (content.toList.map TextUnit.ofChar), ?_, ?_, trivial, ?_⟩
    · intro u hu
      obtain ⟨c, -, rfl⟩ := List.mem_map.1 hu
      exact TextUnit.valid_ofChar c
    · simp only [Piece.chars, List.flatMap_map, TextUnit.chars_ofChar]
    · simp [Piece.token?, Function.comp_def, TextUnit.content_ofChar]
  | @number n x valid value =>
    exact ⟨.number n, valid, rfl, nofun, by rw [Piece.token?, value]; rfl⟩

/-- A text that is laid out splits into the pieces of its tokens. -/
theorem Laid.exists_splits {ts : List Token} {cs : List Char} (h : Laid ts cs)
    (hts : ∀ t ∈ ts, t.Literate) : ∃ ps, Splits cs ps ∧ ps.filterMap Piece.token? = ts := by
  induction h with
  | nil => exact ⟨[], .nil, rfl⟩
  | @behind c ts cs hc _ ih =>
    obtain ⟨ps, hps, rfl⟩ := ih hts
    exact ⟨.separator c :: ps, Reading.splits_separator hc hps, rfl⟩
  | @last t cs spelled =>
    obtain ⟨p, hvalid, rfl, hends, htoken⟩ := spelled.exists_piece (hts t List.mem_cons_self)
    have hsplits := Splits.cons hvalid hends .nil
    rw [List.append_nil] at hsplits
    exact ⟨[p], hsplits, by simp [htoken]⟩
  | @before t ts cs gap rest spelled hne hgap _ ih =>
    obtain ⟨ht, hts⟩ := List.forall_mem_cons.1 hts
    obtain ⟨p, hvalid, rfl, hends, htoken⟩ := spelled.exists_piece ht
    obtain ⟨ps, hps, rfl⟩ := ih hts
    have hfirst := Splits.cons hvalid hends .nil
    rw [List.append_nil] at hfirst
    refine ⟨_, hfirst.append_separators hps hne hgap, ?_⟩
    rw [List.filterMap_append, List.filterMap_append, filterMap_token?_separators, List.nil_append]
    simp [htoken]

theorem exists_laid {ts : List Token} (h : ∀ t ∈ ts, ∃ cs, t.Spelled cs) : ∃ cs, Laid ts cs := by
  have hblank : ∀ c ∈ [' '], IsSeparator c := List.forall_mem_singleton.2 (by decide +kernel)
  induction ts with
  | nil => exact ⟨[], .nil⟩
  | cons t ts ih =>
    obtain ⟨⟨cs, hcs⟩, hts⟩ := List.forall_mem_cons.1 h
    obtain ⟨rest, hrest⟩ := ih hts
    exact ⟨_, .before hcs (List.cons_ne_nil _ _) hblank hrest⟩

theorem tokens_of_laid {source : String} {ts : List Token} (h : Laid ts source.toList)
    (hts : ∀ t ∈ ts, t.Literate) :
    (TokenStream.ofText wordTable source).tokens = some (.ok ts) :=
  TokenStream.tokens_eq_ok_iff.2 (h.exists_splits hts)

end FuzzyRules
