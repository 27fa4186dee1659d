import FuzzyRules.Proofs.Compilation.Trace

/-!
# Compilation in two phases

A compilation takes its tokens from the stream one by one, and it holds one that is not consumed for
the next step. It comes to the same as a reading of all tokens of the text, which have been taken
before, with the lines on which they began: step by step, no token is lost, repeated or exchanged.
-/

namespace FuzzyRules

namespace TokenStream

variable {t : Table CharClass LexAction} {s s' : TokenStream t}

theorem ready_of_pull {fuel : Nat} {token : Token} (hs : s.sink.ready ≠ some .finish)
    (h : s.pull fuel = some (s', .ok token)) :
    s'.sink.ready ≠ some .finish ∧ (token = .finish → s'.run.accepted = true) := by
  induction fuel generalizing s with
  | zero => cases h
  | succ fuel ih =>
    cases haccepted : s.run.accepted with
    | true =>
      rw [pull_of_accepted haccepted] at h
      cases h
      exact ⟨hs, fun _ => haccepted⟩
    | false =>
      rcases advance_cases haccepted with ⟨s₁, fault, hadvance⟩ |
        ⟨tr, sink, -, hperform, -, hadvance⟩
      · rw [pull_of_fault haccepted hadvance] at h
        cases h
      · have hopen : s.openSink.ready ≠ some .finish := hs
        have hready := ready_of_perform hopen hperform
        have hfollow : (s.follow tr sink).sink.ready ≠ some .finish := nofun
        -- what the sink makes is never the end of the text
        cases hsink : sink.ready with
        | none =>
          rw [hsink] at hadvance
          rw [pull_of_silent haccepted hadvance] at h
          exact ih hfollow h
        | some made =>
          rw [hsink] at hadvance
          rw [pull_of_token haccepted hadvance] at h
          cases h
          exact ⟨hfollow, fun h => absurd (h ▸ hsink) hready⟩

theorem exists_yields_of_collect {fuel : Nat} {result : Except GrammarFault (List Token)}
    (hs : s.sink.ready ≠ some .finish) (h : s.collect fuel = some result) :
    ∃ l ending, s.Yields l ending ∧ result = ending.map fun _ => l.map Prod.fst := by
  induction fuel generalizing s result with
  | zero => cases h
  | succ fuel ih =>
    rcases hnext : s.next with _ | ⟨s', fault | token⟩
    · simp [collect, hnext] at h
    · simp only [collect, hnext, Option.some.injEq] at h
      exact ⟨[], .error fault, .fault hnext, h.symm⟩
    · obtain ⟨hs', haccepted⟩ := ready_of_pull hs hnext
      by_cases hfinish : token = .finish
      · subst hfinish
        simp only [collect, hnext, Option.some.injEq] at h
        exact ⟨[], .ok s'.tokenLine, .finish hnext (haccepted rfl), h.symm⟩
      · rw [collect_of_token hnext hfinish] at h
        obtain ⟨result', hresult', rfl⟩ := Option.map_eq_some_iff.1 h
        obtain ⟨l, ending, hyields, rfl⟩ := ih hs' hresult'
        refine ⟨_, ending, .token hnext hfinish hyields, ?_⟩
        cases ending <;> rfl

end TokenStream

/-- The phrases at work on an assembly, without a stream that the tokens come from. -/
structure PhraseRun (phrases : Table TokenClass AssemblyAction) where
  run : Run phrases
  assembly : Assembly

namespace PhraseRun

variable {phrases : Table TokenClass AssemblyAction}

def start (phrases : Table TokenClass AssemblyAction) (settings : EngineSettings) :
    PhraseRun phrases :=
  ⟨Run.start phrases, Assembly.start settings⟩

inductive Move (phrases : Table TokenClass AssemblyAction) where
  | consumed (r : PhraseRun phrases)
  | kept (r : PhraseRun phrases)
  | done (outcome : Except GrammarFault (Engine Float))

def offer (r : PhraseRun phrases) (t : Token) (line : Nat) : Move phrases :=
  let after := r.run.step Assembly.operate t line r.assembly
  match after.result with
  | .error fault => .done (.error (.ofStep fault))
  | .ok transit =>
    if transit.accepted then .done (after.operator.finish t)
    else if transit.consumed then .consumed ⟨after.run, after.operator⟩
    else .kept ⟨after.run, after.operator⟩

/-- Reads tokens with their lines, each of which is offered again until a step consumes it. Behind
them comes the end of the text, forever, or the fault with which the tokens have ended. -/
def read : Nat → PhraseRun phrases → List (Token × Nat) → Except GrammarFault Nat →
    Option (Except GrammarFault (Engine Float))
  | 0, _, _, _ => none
  | steps + 1, r, (t, line) :: rest, ending =>
    match r.offer t line with
    | .consumed r' => read steps r' rest ending
    | .kept r' => read steps r' ((t, line) :: rest) ending
    | .done outcome => some outcome
  | steps + 1, r, [], .ok line =>
    match r.offer .finish line with
    | .consumed r' => read steps r' [] (.ok line)
    | .kept r' => read steps r' [] (.ok line)
    | .done outcome => some outcome
  | _ + 1, _, [], .error fault => some (.error fault)

end PhraseRun

namespace Compilation

variable {d : Dialect} {c c' : Compilation d} {t : Token} {l : List (Token × Nat)}
  {ending : Except GrammarFault Nat}

def phraseRun (c : Compilation d) : PhraseRun d.phrases := ⟨c.run, c.assembly⟩

/-- The tokens that are still to be consumed: the one ahead and those that the stream yields. -/
inductive Awaiting : Compilation d → List (Token × Nat) → Except GrammarFault Nat → Prop
  | pulls {c : Compilation d} {l : List (Token × Nat)} {ending : Except GrammarFault Nat}
      (lookahead : c.lookahead = none) (yields : c.stream.Yields l ending) : Awaiting c l ending
  | ahead {c : Compilation d} {t : Token} {l : List (Token × Nat)}
      {ending : Except GrammarFault Nat} (lookahead : c.lookahead = some t) (proper : t ≠ .finish)
      (yields : c.stream.Yields l ending) : Awaiting c ((t, c.stream.tokenLine) :: l) ending
  | finished {c : Compilation d} (lookahead : c.lookahead = some .finish)
      (accepted : c.stream.run.accepted = true) : Awaiting c [] (.ok c.stream.tokenLine)

theorem offer_eq (c : Compilation d) (t : Token) :
    c.offer t = match c.phraseRun.offer t c.stream.tokenLine with
      | .consumed r => .running ⟨c.stream, r.run, r.assembly, none⟩
      | .kept r => .running ⟨c.stream, r.run, r.assembly, some t⟩
      | .done outcome => .done outcome := by
  cases hresult : (c.run.step Assembly.operate t c.stream.tokenLine c.assembly).result with
  | error fault => simp only [offer, PhraseRun.offer, phraseRun, hresult]
  | ok transit =>
    simp only [offer, PhraseRun.offer, phraseRun, hresult]
    split_ifs <;> rfl

theorem runFor_of_offer {steps : Nat} (hadvance : c'.advance = c.offer t) (ht : t ≠ .finish)
    (hyields : c.stream.Yields l ending)
    (ih : ∀ {c : Compilation d} {l}, c.Awaiting l ending →
      c.runFor steps = c.phraseRun.read steps l ending) :
    c'.runFor (steps + 1) = c.phraseRun.read (steps + 1) ((t, c.stream.tokenLine) :: l) ending := by
  rw [runFor, hadvance, offer_eq, PhraseRun.read]
  cases c.phraseRun.offer t c.stream.tokenLine with
  | consumed r => exact ih (.pulls rfl hyields)
  | kept r => exact ih (.ahead rfl ht hyields)
  | done outcome => rfl

theorem runFor_of_offer_finish {steps : Nat} (hadvance : c'.advance = c.offer .finish)
    (haccepted : c.stream.run.accepted = true)
    (ih : ∀ {c : Compilation d} {l ending}, c.Awaiting l ending →
      c.runFor steps = c.phraseRun.read steps l ending) :
    c'.runFor (steps + 1) = c.phraseRun.read (steps + 1) [] (.ok c.stream.tokenLine) := by
  have hyields := TokenStream.Yields.finish (TokenStream.next_of_accepted haccepted) haccepted
  rw [runFor, hadvance, offer_eq, PhraseRun.read]
  cases c.phraseRun.offer .finish c.stream.tokenLine with
  | consumed r => exact ih (.pulls rfl hyields)
  | kept r => exact ih (.finished rfl haccepted)
  | done outcome => rfl

/-- Step by step, a compilation is a reading of the tokens that it awaits. -/
theorem Awaiting.runFor_eq (h : c.Awaiting l ending) (steps : Nat) :
    c.runFor steps = c.phraseRun.read steps l ending := by
  induction steps generalizing c l ending with
  | zero => rw [runFor, PhraseRun.read]
  | succ steps ih =>
    cases h with
    | pulls lookahead yields =>
      cases yields with
      | fault next => simp only [runFor, advance, lookahead, next, PhraseRun.read]
      | @finish _ s next accepted =>
        have hadvance : c.advance = offer { c with stream := s } .finish := by
          simp only [advance, lookahead, next]
        exact runFor_of_offer_finish hadvance accepted ih
      | @token _ s t _ _ next proper tail =>
        have hadvance : c.advance = offer { c with stream := s } t := by
          simp only [advance, lookahead, next]
        exact runFor_of_offer hadvance proper tail ih
    | ahead lookahead proper yields =>
      exact runFor_of_offer (by simp only [advance, lookahead]) proper yields ih
    | finished lookahead accepted =>
      exact runFor_of_offer_finish (by simp only [advance, lookahead]) accepted ih

theorem awaiting_start (settings : EngineSettings) {source : String}
    (h : (TokenStream.ofText d.words source).Yields l ending) :
    (start d settings source).Awaiting l ending :=
  .pulls rfl h

end Compilation

namespace Dialect

variable {d : Dialect} {settings : EngineSettings} {source : String} {l : List (Token × Nat)}
  {ending : Except GrammarFault Nat}

/-- A text that yields the tokens and the ending compiles to what the phrases make of these. With
any number of steps, neither way is ahead of the other. If no circle of the two tables consumes the
end of the text, the bounds on the number of steps do not matter either. -/
structure InPhases (d : Dialect) (settings : EngineSettings) (source : String)
    (l : List (Token × Nat)) (ending : Except GrammarFault Nat) : Prop where
  yields : (TokenStream.ofText d.words source).Yields l ending
  compile_eq : d.compile settings source = (PhraseRun.start d.phrases settings).read
    (Compilation.start d settings source).stepBound l ending
  runFor_eq (steps : Nat) : (Compilation.start d settings source).runFor steps =
    (PhraseRun.start d.phrases settings).read steps l ending
  compile_iff (hwords : d.words.Settles none) (hphrases : d.phrases.Settles .finish)
    (outcome : Except GrammarFault (Engine Float)) : d.compile settings source = some outcome ↔
      ∃ steps, (PhraseRun.start d.phrases settings).read steps l ending = some outcome

theorem inPhases_of_yields (settings : EngineSettings)
    (h : (TokenStream.ofText d.words source).Yields l ending) :
    d.InPhases settings source l ending := by
  have hruns := (Compilation.awaiting_start settings h).runFor_eq
  refine ⟨h, hruns _, hruns, fun hwords hphrases outcome => ?_⟩
  constructor
  · intro hcompile
    exact ⟨_, (hruns _).symm.trans hcompile⟩
  · rintro ⟨steps, hread⟩
    obtain ⟨outcome', hcompile⟩ := exists_compile hwords hphrases settings source
    rw [hcompile, Compilation.runFor_unique hcompile ((hruns steps).trans hread)]

/-- A text compiles to what the phrases make of its tokens once all of them have been taken, and
then of the end of the text, forever. If a fault ends the tokens, it is the outcome only for phrases
that consume them all. -/
theorem compile_two_phases (d : Dialect) (settings : EngineSettings) (source : String) :
    (∀ pulls tokens, (TokenStream.ofText d.words source).collect pulls = some (.ok tokens) →
      ∃ l line, l.map Prod.fst = tokens ∧ d.InPhases settings source l (.ok line)) ∧
    ∀ pulls fault, (TokenStream.ofText d.words source).collect pulls = some (.error fault) →
      ∃ l, d.InPhases settings source l (.error fault) := by
  have hready : (TokenStream.ofText d.words source).sink.ready ≠ some .finish := nofun
  constructor
  · intro pulls tokens h
    obtain ⟨l, ending, hyields, hresult⟩ := TokenStream.exists_yields_of_collect hready h
    cases ending with
    | error fault => cases hresult
    | ok line => exact ⟨l, line, (Except.ok.inj hresult).symm, inPhases_of_yields settings hyields⟩
  · intro pulls fault h
    obtain ⟨l, ending, hyields, hresult⟩ := TokenStream.exists_yields_of_collect hready h
    cases ending with
    | ok line => cases hresult
    | error fault' =>
      cases hresult
      exact ⟨l, inPhases_of_yields settings hyields⟩

/-- The character is no token. The phrases that wait for a name come to it, those that wait for an
entity have failed before. -/
theorem compile_two_phases_foul :
    let fault := GrammarFault.violation "lexical" "start" ⟨"character", "?"⟩ 1
    ((∃ l, builtinDialect.InPhases ⟨true⟩ "universe ?" l (.error fault)) ∧
      builtinDialect.compile ⟨true⟩ "universe ?" = some (.error fault)) ∧
    (∃ l, builtinDialect.InPhases ⟨true⟩ "end ?" l (.error fault)) ∧
      builtinDialect.compile ⟨true⟩ "end ?" =
        some (.error (.violation "syntax" "start" ⟨"keyword", "end"⟩ 1)) := by
  refine ⟨⟨?_, by decide +kernel⟩, ?_, by decide +kernel⟩
  · exact (compile_two_phases builtinDialect ⟨true⟩ "universe ?").2 2 _ (by decide +kernel)
  · exact (compile_two_phases builtinDialect ⟨true⟩ "end ?").2 2 _ (by decide +kernel)

end Dialect

end FuzzyRules
