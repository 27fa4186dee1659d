import FuzzyRules.Compilation.Load
import FuzzyRules.Proofs.Phrases.Admissible
import FuzzyRules.Proofs.Phrases.Sentences
import FuzzyRules.Proofs.Words.Tokenizing

/-!
# Models of the description language

A text compiles exactly if its tokens are those of admissible blocks, and then to the engine that
the blocks build.
-/

namespace FuzzyRules

/-- The built-in tables. -/
def builtinDialect : Dialect := ⟨wordTable, phraseTable⟩

theorem builtin_eq : Dialect.builtin = .ok builtinDialect := by
  rw [Dialect.builtin, Dialect.ofDescriptions, resolve_builtinWords, resolve_builtinPhrases]
  simp only [bind, Except.bind, pure, Except.pure, builtinDialect]

theorem ofSources_none : Dialect.ofSources none none = .ok builtinDialect := by
  rw [← builtin_eq]
  simp only [Dialect.ofSources, Dialect.describe, Dialect.builtin, Dialect.ofDescriptions, bind,
    Except.bind]

theorem compile_eq_parse (settings : EngineSettings) {source : String} {l : List (Token × Nat)}
    {ending : Except GrammarFault Nat}
    (hyields : (TokenStream.ofText wordTable source).Yields l ending)
    (hlength : l.length ≤ source.toList.length + 1) :
    builtinDialect.compile settings source =
      some (PhraseState.start.parse (Assembly.start settings) l ending) := by
  have hbound := Compilation.rest_length_lt_stepBound
    (Compilation.start builtinDialect settings source)
  exact Compilation.runFor_eq_parse (Compilation.awaits_start settings source) hyields
    (Nat.lt_of_le_of_lt hlength hbound)

theorem compileWith_of_compile {words phrases : Option String} {d : Dialect}
    {settings : EngineSettings} {source : String} {outcome : Except GrammarFault (Engine Float)}
    (hd : Dialect.ofSources words phrases = .ok d)
    (h : d.compile settings source = some outcome) :
    compileWith words phrases settings source = outcome.mapError .grammar := by
  simp only [compileWith, hd, h]

theorem mapError_eq_ok_iff {α β γ : Type} {f : α → β} {x : Except α γ} {c : γ} :
    x.mapError f = .ok c ↔ x = .ok c := by
  cases x <;> simp [Except.mapError]

theorem compileWith_eq_ok_iff (settings : EngineSettings) {source : String}
    {l : List (Token × Nat)} {ending : Except GrammarFault Nat} {e : Engine Float}
    (hyields : (TokenStream.ofText wordTable source).Yields l ending)
    (hlength : l.length ≤ source.toList.length + 1) :
    compileWith none none settings source = .ok e ↔ (∃ line, ending = .ok line) ∧
      PhraseState.start.Accepts (Assembly.start settings) (l.map Prod.fst) e := by
  rw [compileWith_of_compile ofSources_none (compile_eq_parse settings hyields hlength),
    ← PhraseState.parse_eq_ok_iff]
  exact mapError_eq_ok_iff

theorem compile_eq_ok_iff {settings : EngineSettings} {source : String} {e : Engine Float} :
    compileWith none none settings source = .ok e ↔ ∃ blocks : List Block,
      (TokenStream.ofText wordTable source).tokens = some (.ok (blocks.flatMap Block.tokens)) ∧
        (∀ b ∈ blocks, b.Named) ∧ buildBlocks settings blocks = .ok e := by
  obtain ⟨l, ending, hyields, hlength, htokens, -⟩ := TokenStream.exists_yields source
  rw [compileWith_eq_ok_iff settings hyields hlength, Assembly.start, PhraseState.accepts_start,
    htokens]
  constructor
  · rintro ⟨⟨line, rfl⟩, blocks, hl, hnamed, hbuild⟩
    exact ⟨blocks, by rw [← hl]; rfl, hnamed, hbuild⟩
  · rintro ⟨blocks, hl, hnamed, hbuild⟩
    cases ending with
    | error fault => cases hl
    | ok line => exact ⟨⟨line, rfl⟩, blocks, Except.ok.inj (Option.some.inj hl), hnamed, hbuild⟩

/-- A text compiles with the built-in tables exactly if its tokens are those of admissible blocks,
and the engine is the one that the blocks build in their order. -/
theorem compile_builtin : ∃ d, Dialect.builtin = .ok d ∧
    ∀ (settings : EngineSettings) (source : String),
      (∀ e, compileWith none none settings source = .ok e ↔ ∃ blocks : List Block,
        (TokenStream.ofText d.words source).tokens = some (.ok (blocks.flatMap Block.tokens)) ∧
          Admissible settings blocks ∧ buildBlocks settings blocks = .ok e) ∧
      ((∃ e, compileWith none none settings source = .ok e) ↔ ∃ blocks : List Block,
        (TokenStream.ofText d.words source).tokens = some (.ok (blocks.flatMap Block.tokens)) ∧
          Admissible settings blocks) := by
  refine ⟨builtinDialect, builtin_eq, fun settings source => ⟨fun e => ?_, ?_⟩⟩
  · rw [compile_eq_ok_iff]
    constructor
    · rintro ⟨blocks, htokens, hnamed, hbuild⟩
      exact ⟨blocks, htokens, admissible_iff.2 ⟨hnamed, e, hbuild⟩, hbuild⟩
    · rintro ⟨blocks, htokens, hadmissible, hbuild⟩
      exact ⟨blocks, htokens, (admissible_iff.1 hadmissible).1, hbuild⟩
  · simp only [compile_eq_ok_iff]
    constructor
    · rintro ⟨e, blocks, htokens, hnamed, hbuild⟩
      exact ⟨blocks, htokens, admissible_iff.2 ⟨hnamed, e, hbuild⟩⟩
    · rintro ⟨blocks, htokens, hadmissible⟩
      obtain ⟨hnamed, e, hbuild⟩ := admissible_iff.1 hadmissible
      exact ⟨e, blocks, htokens, hnamed, hbuild⟩

end FuzzyRules
