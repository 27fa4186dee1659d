import FuzzyRules.Proofs.Words.Simulation

/-!
# Tokens of a text

The built-in words make tokens of a text exactly if it splits into pieces. There is one way to
split it, every piece but a separator is a token, and the end of the text lasts.
-/

namespace FuzzyRules

theorem Piece.token?_eq_none_iff {p : Piece} (h : p.Valid) :
    p.token? = none ↔ ∃ c, p = .separator c := by
  cases p with
  | separator c => simp [token?]
  | text units => simp [token?]
  | word letters => simp [token?]
  | number n =>
    have hliteral := NumberText.literal?_chars h.1
    rw [if_neg h.2] at hliteral
    simp [token?, hliteral]

theorem Splits.valid {cs : List Char} {ps : List Piece} (h : Splits cs ps) :
    ∀ p ∈ ps, p.Valid := by
  induction h with
  | nil => simp
  | cons valid _ _ ih => exact List.forall_mem_cons.2 ⟨valid, ih⟩

namespace TokenStream

/-- A text comes to an end with its tokens, or with a fault if it splits into no pieces. -/
theorem exists_yields (source : String) :
    ∃ l ending, (ofText wordTable source).Yields l ending ∧
      l.length ≤ source.toList.length + 1 ∧
      (ofText wordTable source).tokens = some (ending.map fun _ => l.map Prod.fst) ∧
      ∀ ts, ending.map (fun _ => l.map Prod.fst) = .ok ts ↔
        ∃ ps, Splits source.toList ps ∧ ps.filterMap Piece.token? = ts := by
  obtain ⟨l, ending, hyields, hlength, hscan⟩ := (holds_ofText source).agrees_scan
  have hbound : l.length < (ofText wordTable source).stepBound := by
    refine Nat.lt_of_le_of_lt hlength ?_
    change source.toList.length + 1 < (source.toList.length + 15) * 8
    omega
  refine ⟨l, ending, hyields, hlength, hyields.tokens_eq hbound, fun ts => ?_⟩
  simp only [← Reading.scan_eq_some_iff]
  cases hs : Reading.between.scan source.toList with
  | none =>
    rw [hs] at hscan
    obtain ⟨fault, rfl, -⟩ := hscan
    simp [Except.map]
  | some ps =>
    rw [hs] at hscan
    obtain ⟨⟨line, rfl⟩, hl⟩ := hscan
    simp [Except.map, hl]

theorem Yields.lexical {source : String} {l : List (Token × Nat)} {fault : GrammarFault}
    (h : (ofText wordTable source).Yields l (.error fault)) : fault.Lexical := by
  obtain ⟨l', ending, hyields, -, hscan⟩ := (holds_ofText source).agrees_scan
  obtain ⟨rfl, rfl⟩ := h.unique hyields
  cases hs : Reading.between.scan source.toList with
  | none =>
    rw [hs] at hscan
    obtain ⟨_, hfault, hlexical⟩ := hscan
    cases hfault
    exact hlexical
  | some ps =>
    rw [hs] at hscan
    obtain ⟨⟨line, hline⟩, -⟩ := hscan
    cases hline

theorem pulls_of_tokens {source : String} {ts : List Token}
    (h : (ofText wordTable source).tokens = some (.ok ts)) (n : Nat) :
    (ofText wordTable source).pulls (ts.length + n) =
      some (ts.map .ok ++ List.replicate n (.ok .finish)) := by
  obtain ⟨l, ending, hyields, -, htokens, -⟩ := exists_yields source
  have hts := Option.some.inj (htokens.symm.trans h)
  cases ending with
  | error fault => cases hts
  | ok line =>
    obtain rfl : l.map Prod.fst = ts := Except.ok.inj hts
    rw [List.length_map]
    exact hyields.pulls_eq n

end TokenStream

/-- The built-in words make tokens of the texts that split into pieces, and of no other. A text
splits in one way, its tokens are the pieces other than separators, and behind them there is nothing
but the end of the text. -/
theorem tokens_builtinWords :
    ∃ t : Table CharClass LexAction, Dialect.builtinWords.resolve = .ok t ∧ ∀ source : String,
      (∃ outcome, (TokenStream.ofText t source).tokens = some outcome) ∧
      (∀ ts, (TokenStream.ofText t source).tokens = some (.ok ts) ↔
        ∃ ps, Splits source.toList ps ∧ ps.filterMap Piece.token? = ts) ∧
      (∀ ps qs, Splits source.toList ps → Splits source.toList qs → ps = qs) ∧
      (∀ ps, Splits source.toList ps → ∀ p ∈ ps, p.token? = none ↔ ∃ c, p = .separator c) ∧
      (∀ ts, (TokenStream.ofText t source).tokens = some (.ok ts) → ∀ n,
        (TokenStream.ofText t source).pulls (ts.length + n) =
          some (ts.map .ok ++ List.replicate n (.ok .finish))) := by
  refine ⟨wordTable, resolve_builtinWords, fun source => ⟨?_, ?_, ?_, ?_, ?_⟩⟩
  · obtain ⟨l, ending, -, -, htokens, -⟩ := TokenStream.exists_yields source
    exact ⟨_, htokens⟩
  · intro ts
    obtain ⟨l, ending, -, -, htokens, hiff⟩ := TokenStream.exists_yields source
    rw [htokens, Option.some_inj]
    exact hiff ts
  · exact fun ps qs => Splits.unique
  · exact fun ps h p hp => Piece.token?_eq_none_iff (h.valid p hp)
  · exact fun ts h n => TokenStream.pulls_of_tokens h n

end FuzzyRules
