import FuzzyRules.Proofs.Compilation.Trace
import FuzzyRules.Proofs.Phrases.Paths
import FuzzyRules.Proofs.Words.Joining
import FuzzyRules.Proofs.Words.Viability

/-!
# Violations where they occur first

A violation of the built-in tables is reported at the earliest place: in front of it stands the
beginning of a text that has tokens, or of a sentence, and with what is reported there is none that
begins so. What a text fails with is settled by what has been examined of it.
-/

namespace FuzzyRules

namespace PhraseState

theorem move?_finish (q : PhraseState) : q.move? .finish = none := by
  cases q <;> rfl

theorem grammar_of_parse {q : PhraseState} {s : Assembly} {l : List (Token × Nat)} {last line : Nat}
    {grammar state : String} {seen : Excerpt}
    (h : q.parse s l (.ok last) = .error (.violation grammar state seen line)) :
    grammar = "syntax" := by
  replace h := fails_of_parse h
  generalize hfault : GrammarFault.violation grammar state seen line = fault at h
  generalize hending : (Except.ok last : Except GrammarFault Nat) = ending at h
  induction h with
  | ended => cases hending
  | unclosed _ hfinish =>
    subst hfault
    exact absurd hfinish Assembly.finish_ne_violation
  | unfinished | stuck =>
    cases hfault
    rfl
  | refused _ _ _ _ perform =>
    subst hfault
    exact absurd rfl (Assembly.ne_violation_of_perform perform)
  | later _ _ _ _ ih => exact ih hfault hending

end PhraseState

namespace Compilation

variable {words : Table CharClass LexAction} {c : Compilation ⟨words, phraseTable⟩}
  {q : PhraseState} {grammar state : String} {seen : Excerpt} {line : Nat}

theorem pulled_of_done {outcome : Except GrammarFault (Engine Float)} {t : Token}
    (h : c.advance = .done outcome) (ht : c.pulled? = some t) (fuel : Nat) :
    (c.trace (fuel + 1)).filterMap pulled? = [t] := by
  simp [trace, h, ht]

theorem pulled_of_running {c' : Compilation ⟨words, phraseTable⟩} {t : Token}
    (h : c.advance = .running c') (ht : c.pulled? = some t) (fuel : Nat) :
    (c.trace (fuel + 1)).filterMap pulled? = t :: (c'.trace fuel).filterMap pulled? := by
  simp [trace, h, ht]

/-- A violation of the phrases is about a token that the state behind the others does not allow. -/
theorem exists_path_of_violation (h : c.Awaits q) {fuel : Nat}
    (hrun : c.runFor fuel = some (.error (.violation grammar state seen line)))
    (hgrammar : grammar ≠ words.name) : ∃ before t q',
      (c.trace fuel).filterMap pulled? = before ++ [t] ∧ seen = t.excerpt ∧
        q.path before = some q' ∧ q'.move? t = none ∧ (t = .finish → q' ≠ .start) := by
  induction fuel generalizing c q with
  | zero => cases hrun
  | succ fuel ih =>
    rcases hnext : c.stream.next with _ | ⟨stream, fault | t⟩
    · simp [runFor, advance, h.lookahead, hnext] at hrun
    · rw [runFor_of_done (advance_of_fault h hnext)] at hrun
      cases hrun
      obtain ⟨last, -, -, hfails⟩ := (TokenStream.trail_of_pull hnext).exists_last
      exact absurd (TokenStream.disabled_of_violation hfails).2.2.1 hgrammar
    · have hpulled : c.pulled? = some t := by simp only [pulled?, h.lookahead, hnext]
      have hoffers := offers_of_next h hnext
      generalize hadvance : c.advance = progress at hoffers
      cases hoffers with
      | finish =>
        rw [runFor_of_done hadvance, PhraseState.parse, Option.some.injEq] at hrun
        split at hrun
        · exact absurd hrun Assembly.finish_ne_violation
        · rename_i hq
          cases hrun
          exact ⟨[], _, q, pulled_of_done hadvance hpulled fuel, rfl, rfl, q.move?_finish,
            fun _ => hq⟩
      | stuck proper move =>
        rw [runFor_of_done hadvance] at hrun
        cases hrun
        exact ⟨[], t, q, pulled_of_done hadvance hpulled fuel, rfl, rfl, move,
          fun hfinish => absurd hfinish proper⟩
      | refused move perform =>
        rw [runFor_of_done hadvance, Option.some.injEq, Except.error.injEq] at hrun
        exact absurd hrun (Assembly.ne_violation_of_perform perform)
      | moved move perform awaits stream =>
        rw [runFor_of_running hadvance] at hrun
        obtain ⟨before, t', q', htokens, hseen, hpath, hstuck, hfinish⟩ := ih awaits hrun
        refine ⟨t :: before, t', q', ?_, hseen, ?_, hstuck, hfinish⟩
        · rw [pulled_of_running hadvance hpulled, htokens, List.cons_append]
        · rw [PhraseState.path_cons, move]
          exact hpath

end Compilation

def Tokenizes (words : Table CharClass LexAction) (source : String) : Prop :=
  ∃ ts, (TokenStream.ofText words source).tokens = some (.ok ts)

namespace Dialect

/-- What is shown of a violation is the item that has been examined last. In front of it stands the
beginning of a text that has tokens, and with the item itself no text that has tokens begins. -/
def FindsItem (d : Dialect) (settings : EngineSettings) (source : String) (seen : Excerpt) :
    Prop :=
  ∃ before item, d.examined settings source = before.map some ++ [item] ∧
    seen = HasExcerpt.excerpt item ∧
    (∃ source', before <+: source'.toList ∧ Tokenizes d.words source') ∧
    match item with
    | some c => ∀ source', before ++ [c] <+: source'.toList → ¬ Tokenizes d.words source'
    | none => source.toList = before ∧ ¬ Tokenizes d.words source

/-- What is shown of a violation is the token that has been taken last. In front of it stands the
beginning of a sentence, and with the token itself no sentence begins. -/
def FindsToken (d : Dialect) (settings : EngineSettings) (source : String) (seen : Excerpt) :
    Prop :=
  ∃ before t, d.pulled settings source = before ++ [t] ∧ seen = t.excerpt ∧
    (∃ more, Sentence (before ++ more)) ∧
    if t = .finish then ¬ Sentence before else ∀ more, ¬ Sentence (before ++ t :: more)

end Dialect

section Builtin

variable {settings : EngineSettings} {source : String} {grammar state : String} {seen : Excerpt}
  {line : Nat}

theorem findsToken_of_violation (h : builtinDialect.compile settings source =
    some (.error (.violation grammar state seen line))) (hgrammar : grammar ≠ wordTable.name) :
    builtinDialect.FindsToken settings source seen := by
  obtain ⟨before, t, q, hpulled, hseen, hpath, hstuck, hfinish⟩ :=
    Compilation.exists_path_of_violation (Compilation.awaits_start settings source) h hgrammar
  refine ⟨before, t, hpulled, hseen, PhraseState.exists_sentence_of_path hpath, ?_⟩
  split_ifs with ht
  · exact PhraseState.not_sentence_of_path hpath (hfinish ht)
  · exact PhraseState.not_sentence_of_stuck hpath hstuck

theorem not_tokenizes_of_violation (h : builtinDialect.compile settings source =
    some (.error (.violation grammar state seen line))) (hgrammar : grammar ≠ phraseTable.name) :
    ¬ Tokenizes wordTable source := by
  rintro ⟨ts, hts⟩
  obtain ⟨l, ending, hyields, hlength, htokens, -⟩ := TokenStream.exists_yields source
  rw [htokens] at hts
  cases ending with
  | error fault => cases hts
  | ok last =>
    rw [compile_eq_parse settings hyields hlength] at h
    exact hgrammar (PhraseState.grammar_of_parse (Option.some.inj h))

theorem findsItem_of_violation (h : builtinDialect.compile settings source =
    some (.error (.violation grammar state seen line))) (hgrammar : grammar ≠ phraseTable.name) :
    grammar = wordTable.name ∧ builtinDialect.FindsItem settings source seen := by
  obtain ⟨last, hlast, haccepted, hdisabled, hname, hseen⟩ :=
    Compilation.exists_look_of_violation h hgrammar
  obtain ⟨last', before, hlast', hreaches, hsource, hexamined, -⟩ := Dialect.exists_last_look h
  obtain rfl : last' = last := Option.some.inj (hlast'.symm.trans hlast)
  refine ⟨hname, before, _, hexamined, hseen, ?_, ?_⟩
  · obtain ⟨more, ps, hsplits⟩ :=
      (TokenStream.Underway.of_reaches hreaches).exists_splits haccepted hdisabled hsource
    refine ⟨String.ofList (before ++ more), ?_, _, TokenStream.tokens_eq_ok_iff.2 ⟨ps, ?_, rfl⟩⟩
    · rw [String.toList_ofList]
      exact List.prefix_append _ _
    · rwa [String.toList_ofList]
  · cases hrest : last'.rest with
    | nil =>
      rw [hrest, List.append_nil] at hsource
      exact ⟨hsource, not_tokenizes_of_violation h hgrammar⟩
    | cons c cs =>
      -- a text that goes on with this item would have failed with the same violation
      intro source' hbegins
      have hseen' : builtinDialect.examined settings source <+: items source'.toList := by
        have hmap := hbegins.map some
        rw [List.map_append] at hmap
        rw [hexamined, hrest]
        exact hmap.trans (List.prefix_append _ _)
      exact not_tokenizes_of_violation
        (Dialect.compile_of_examined settles_wordTable settles_phraseTable h hseen') hgrammar

end Builtin

/-- A violation of the built-in tables is reported at the first item with which no text that has
tokens can begin, or at the first token with which no sentence can begin. Whatever a text fails
with, every text that agrees with what has been examined of it fails with the same. -/
theorem compile_earliest : ∃ d, Dialect.builtin = .ok d ∧
    ∀ (settings : EngineSettings) (source : String) (failure : Failure),
      compileWith none none settings source = .error failure →
        (∀ grammar state seen line, failure = .grammar (.violation grammar state seen line) →
          (grammar = d.words.name ∧ d.FindsItem settings source seen) ∨
            (grammar = d.phrases.name ∧ d.FindsToken settings source seen)) ∧
        d.examined settings source <+: items source.toList ∧
        ∀ source', d.examined settings source <+: items source'.toList →
          compileWith none none settings source' = .error failure := by
  refine ⟨builtinDialect, builtin_eq, fun settings source failure h => ?_⟩
  obtain ⟨outcome, houtcome⟩ := Dialect.exists_compile (d := builtinDialect) settles_wordTable
    settles_phraseTable settings source
  rw [compileWith_of_compile ofSources_none houtcome] at h
  obtain ⟨fault, rfl, rfl⟩ : ∃ fault, outcome = .error fault ∧ .grammar fault = failure := by
    cases outcome with
    | ok e => cases h
    | error fault => exact ⟨fault, rfl, Except.error.inj h⟩
  refine ⟨?_, Dialect.examined_isBeginning houtcome, fun source' hseen => ?_⟩
  · rintro grammar state seen line hfailure
    cases hfailure
    by_cases hgrammar : grammar = phraseTable.name
    · refine .inr ⟨hgrammar, findsToken_of_violation houtcome ?_⟩
      rw [hgrammar]
      decide
    · exact .inl (findsItem_of_violation houtcome hgrammar)
  · have houtcome' :=
      Dialect.compile_of_examined settles_wordTable settles_phraseTable houtcome hseen
    exact compileWith_of_compile ofSources_none houtcome'

/-- A semicolon begins no token. A keyword in place of a name is found when the character behind it
is read, and what follows does not matter. -/
theorem compile_earliest_universe : ∃ d, Dialect.builtin = .ok d ∧
    d.FindsItem {} "universe ;" ⟨"character", ";"⟩ ∧
    d.FindsToken {} "universe end ;" ⟨"keyword", "end"⟩ ∧
    ∀ behind, compileWith none none {} ("universe end " ++ behind) =
      compileWith none none {} "universe end ;" := by
  have hitem : builtinDialect.compile {} "universe ;" =
      some (.error (.violation "lexical" "start" ⟨"character", ";"⟩ 1)) := by decide +kernel
  have htoken : builtinDialect.compile {} "universe end ;" =
      some (.error (.violation "syntax" "universe_name" ⟨"keyword", "end"⟩ 1)) := by decide +kernel
  have hexamined : builtinDialect.examined {} "universe end ;" =
      "universe end ".toList.map some := by decide +kernel
  obtain ⟨d, hd, hearliest⟩ := compile_earliest
  obtain rfl := Except.ok.inj (builtin_eq.symm.trans hd)
  obtain ⟨hfirst, -, -⟩ := hearliest {} _ _ (compileWith_of_compile ofSources_none hitem)
  obtain ⟨hsecond, -, hunseen⟩ := hearliest {} _ _ (compileWith_of_compile ofSources_none htoken)
  refine ⟨builtinDialect, hd, ?_, ?_, fun behind => ?_⟩
  · obtain ⟨-, h⟩ | ⟨h, -⟩ := hfirst _ _ _ _ rfl
    · exact h
    · exact absurd h (by decide)
  · obtain ⟨h, -⟩ | ⟨-, h⟩ := hsecond _ _ _ _ rfl
    · exact absurd h (by decide)
    · exact h
  · rw [compileWith_of_compile ofSources_none htoken]
    refine hunseen _ ?_
    rw [hexamined, String.toList_append, items_append]
    exact List.prefix_append _ _

end FuzzyRules
