import FuzzyRules.Proofs.Compilation.Trace
import FuzzyRules.Proofs.Phrases.Models
import FuzzyRules.Proofs.Phrases.Paths
import FuzzyRules.Proofs.Words.Lines

/-!
# Lines of misplaced tokens

A violation of the built-in phrases is about the first token with which no sentence begins. It is
reported on the line on which that token begins in the text.
-/

namespace FuzzyRules

namespace PhraseState

theorem exists_stuck {q : PhraseState} {s : Assembly} {l : List (Token × Nat)}
    {ending : Except GrammarFault Nat} {grammar state : String} {seen : Excerpt} {line : Nat}
    (h : q.parse s l ending = .error (.violation grammar state seen line))
    (hending : ending ≠ .error (.violation grammar state seen line))
    (hseen : seen ≠ Token.finish.excerpt) : ∃ earlier t later q',
      l = earlier ++ (t, line) :: later ∧ seen = t.excerpt ∧
        q.path (earlier.map Prod.fst) = some q' ∧ q'.move? t = none := by
  replace h := fails_of_parse h
  generalize hfault : GrammarFault.violation grammar state seen line = fault at h hending
  induction h with
  | ended => exact absurd rfl hending
  | unclosed _ hfinish =>
    subst hfault
    exact absurd hfinish Assembly.finish_ne_violation
  | unfinished =>
    cases hfault
    exact absurd rfl hseen
  | @stuck q t _ line l _ move =>
    cases hfault
    exact ⟨[], t, l, q, rfl, rfl, rfl, move⟩
  | refused _ _ _ _ perform =>
    subst hfault
    exact absurd rfl (Assembly.ne_violation_of_perform perform)
  | @later q s s' t m l _ _ tokenLine move _ _ ih =>
    obtain ⟨earlier, t', rest, q', rfl, hexcerpt, hpath, hstuck⟩ := ih hfault hending
    refine ⟨(t, tokenLine) :: earlier, t', rest, q', rfl, hexcerpt, ?_, hstuck⟩
    rw [List.map_cons, path_cons, move]
    exact hpath

end PhraseState

/-- On the line stands the first of the tokens with which no sentence begins, and it is shown. -/
def Misplaced (l : List (Token × Nat)) (seen : Excerpt) (line : Nat) : Prop :=
  ∃ earlier t later, l = earlier ++ (t, line) :: later ∧ seen = t.excerpt ∧
    (∃ more, Sentence (earlier.map Prod.fst ++ more)) ∧
      ∀ more, ¬ Sentence (earlier.map Prod.fst ++ t :: more)

theorem misplaced_of_violation {settings : EngineSettings} {source state : String}
    {seen : Excerpt} {line : Nat} {l : List (Token × Nat)} {ending : Except GrammarFault Nat}
    {ps : List Piece} {rest : List Char}
    (hyields : (TokenStream.ofText wordTable source).Yields l ending)
    (hended : Ended source.toList ps rest ending)
    (h : compileWith none none settings source =
      .error (.grammar (.violation phraseTable.name state seen line)))
    (hseen : seen ≠ Token.finish.excerpt) : Misplaced l seen line := by
  obtain ⟨l', ending', hyields', hlength, -⟩ := TokenStream.exists_yields source
  obtain ⟨rfl, rfl⟩ := hyields.unique hyields'
  have hcompile := compile_eq_parse settings hyields hlength
  rw [compileWith_of_compile ofSources_none hcompile] at h
  generalize hparse : PhraseState.start.parse (Assembly.start settings) l ending = outcome at h
  cases outcome with
  | ok e => cases h
  | error fault =>
    cases h
    have hending : ending ≠ .error (.violation phraseTable.name state seen line) := by
      rintro rfl
      exact absurd hended.grammar_eq (by decide)
    obtain ⟨earlier, t, later, q, rfl, rfl, hpath, hstuck⟩ :=
      PhraseState.exists_stuck hparse hending hseen
    exact ⟨earlier, t, later, rfl, rfl, PhraseState.exists_sentence_of_path hpath,
      PhraseState.not_sentence_of_stuck hpath hstuck⟩

/-- With the built-in words, every token has the line on which its piece of the text begins, and a
fault has the line of the character or of the number that is at fault. A token that is out of place
for the built-in phrases is reported on its own line. -/
theorem lines_exact : ∃ d, Dialect.builtin = .ok d ∧
    ∀ source : String, ∃ l ending ps rest,
      (TokenStream.ofText d.words source).Yields l ending ∧ Begins source.toList ps rest ∧
        l = lined [] ps ∧ Ended source.toList ps rest ending ∧
        ∀ settings state seen line, compileWith none none settings source =
            .error (.grammar (.violation d.phrases.name state seen line)) →
          seen ≠ Token.finish.excerpt → Misplaced l seen line := by
  refine ⟨builtinDialect, builtin_eq, fun source => ?_⟩
  obtain ⟨l, ending, ps, rest, hyields, hbegins, hl, hended⟩ :=
    TokenStream.exists_yields_lined source
  exact ⟨l, ending, ps, rest, hyields, hbegins, hl, hended, fun _ _ _ _ h hseen =>
    misplaced_of_violation hyields hended h hseen⟩

theorem lines_exact_rule : ∃ d, Dialect.builtin = .ok d ∧ ∃ l ending,
    (TokenStream.ofText d.words "universe \"a\nb\"\nrule").Yields l ending ∧
      Misplaced l ⟨"keyword", "rule"⟩ 3 := by
  have hviolation : builtinDialect.compile {} "universe \"a\nb\"\nrule" =
      some (.error (.violation "syntax" "universe_head" ⟨"keyword", "rule"⟩ 3)) := by
    decide +kernel
  obtain ⟨d, hd, hlines⟩ := lines_exact
  obtain rfl := Except.ok.inj (builtin_eq.symm.trans hd)
  obtain ⟨l, ending, ps, rest, hyields, -, -, -, hmisplaced⟩ :=
    hlines "universe \"a\nb\"\nrule"
  exact ⟨_, hd, l, ending, hyields, hmisplaced {} _ _ _
    (compileWith_of_compile ofSources_none hviolation) (by decide)⟩

end FuzzyRules
