import FuzzyRules.Compilation.Basic
import FuzzyRules.Proofs.Phrases.Table
import FuzzyRules.Proofs.Token.Yields

/-!
# Parsing with the built-in phrases

A compilation with the built-in phrases takes the tokens of its stream one by one. Its outcome is
that of a parser which is given all tokens, with their lines, and the way in which the text ends.
-/

namespace FuzzyRules

namespace PhraseState

/-- What the tokens make of an assembly, read from a state. -/
def parse (q : PhraseState) (s : Assembly) :
    List (Token × Nat) → Except GrammarFault Nat → Except GrammarFault (Engine Float)
  | [], .error fault => .error fault
  | [], .ok line =>
    if q = start then s.finish .finish
    else .error (.violation "syntax" q.name Token.finish.excerpt line)
  | (t, line) :: l, ending =>
    match q.move? t with
    | none => .error (.violation "syntax" q.name t.excerpt line)
    | some m =>
      match Run.perform Assembly.operate t m.actions s with
      | (_, .error fault) => .error fault
      | (s', .ok ()) => m.next.parse s' l ending

/-- How the reading of tokens fails: with the fault that ends them, with the end of the text, or at
a token that the state does not allow or whose actions are refused. -/
inductive Fails : PhraseState → Assembly → List (Token × Nat) → Except GrammarFault Nat →
    GrammarFault → Prop
  | ended (q : PhraseState) (s : Assembly) (fault : GrammarFault) :
      Fails q s [] (.error fault) fault
  | unclosed {s : Assembly} {fault : GrammarFault} (line : Nat)
      (finish : s.finish .finish = .error fault) : Fails start s [] (.ok line) fault
  | unfinished {q : PhraseState} (s : Assembly) (line : Nat) (hq : q ≠ start) :
      Fails q s [] (.ok line) (.violation "syntax" q.name Token.finish.excerpt line)
  | stuck {q : PhraseState} {t : Token} (s : Assembly) (line : Nat) (l : List (Token × Nat))
      (ending : Except GrammarFault Nat) (move : q.move? t = none) :
      Fails q s ((t, line) :: l) ending (.violation "syntax" q.name t.excerpt line)
  | refused {q : PhraseState} {s s' : Assembly} {t : Token} {m : PhraseMove} {fault : GrammarFault}
      (line : Nat) (l : List (Token × Nat)) (ending : Except GrammarFault Nat)
      (move : q.move? t = some m)
      (perform : Run.perform Assembly.operate t m.actions s = (s', .error fault)) :
      Fails q s ((t, line) :: l) ending fault
  | later {q : PhraseState} {s s' : Assembly} {t : Token} {m : PhraseMove}
      {l : List (Token × Nat)} {ending : Except GrammarFault Nat} {fault : GrammarFault}
      (line : Nat) (move : q.move? t = some m)
      (perform : Run.perform Assembly.operate t m.actions s = (s', .ok ()))
      (tail : Fails m.next s' l ending fault) : Fails q s ((t, line) :: l) ending fault

theorem fails_of_parse {q : PhraseState} {s : Assembly} {l : List (Token × Nat)}
    {ending : Except GrammarFault Nat} {fault : GrammarFault}
    (h : q.parse s l ending = .error fault) : q.Fails s l ending fault := by
  induction l generalizing q s with
  | nil =>
    cases ending with
    | error cause =>
      cases h
      exact .ended q s _
    | ok line =>
      rw [parse] at h
      by_cases hq : q = start
      · subst hq
        exact .unclosed line h
      · rw [if_neg hq] at h
        cases h
        exact .unfinished s line hq
  | cons entry l ih =>
    obtain ⟨t, line⟩ := entry
    rw [parse] at h
    cases hmove : q.move? t with
    | none =>
      rw [hmove] at h
      cases h
      exact .stuck s line l ending hmove
    | some m =>
      rw [hmove] at h
      rcases hperform : Run.perform Assembly.operate t m.actions s with ⟨s', cause | ⟨⟩⟩
      · simp only [hperform] at h
        cases h
        exact .refused line l ending hmove hperform
      · simp only [hperform] at h
        exact .later line hmove hperform (ih h)

end PhraseState

namespace Compilation

variable {words : Table CharClass LexAction} {c : Compilation ⟨words, phraseTable⟩}
  {q : PhraseState}

/-- A compilation that is about to take a token in a state of the phrase table. -/
structure Awaits (c : Compilation ⟨words, phraseTable⟩) (q : PhraseState) : Prop where
  state : c.run.state = q.index
  accepted : c.run.accepted = false
  idle : c.run.idle = 0
  lookahead : c.lookahead = none

theorem awaits_start (settings : EngineSettings) (source : String) :
    (start ⟨words, phraseTable⟩ settings source).Awaits .start :=
  ⟨rfl, rfl, rfl, rfl⟩

theorem Awaits.withStream (h : c.Awaits q) (stream : TokenStream words) :
    Awaits { c with stream := stream } q :=
  ⟨h.state, h.accepted, h.idle, h.lookahead⟩

theorem rest_length_lt_stepBound {d : Dialect} (c : Compilation d) :
    c.stream.rest.length + 1 < c.stepBound := by
  have hwords : 0 < (d.words.size + 1) * (d.words.size + 1) :=
    Nat.mul_pos (Nat.succ_pos _) (Nat.succ_pos _)
  have hphrases : 0 < (d.phrases.size + 1) * (d.phrases.size + 1) :=
    Nat.mul_pos (Nat.succ_pos _) (Nat.succ_pos _)
  calc c.stream.rest.length + 1
      < 64 * (c.stream.rest.length + (d.words.size + 1) * (d.words.size + 1)) := by omega
    _ ≤ 64 * (c.stream.rest.length + (d.words.size + 1) * (d.words.size + 1)) *
        (d.words.size + 1) := Nat.le_mul_of_pos_right _ (Nat.succ_pos _)
    _ ≤ c.stepBound := Nat.le_mul_of_pos_right _ hphrases

theorem runFor_of_done {outcome : Except GrammarFault (Engine Float)}
    (h : c.advance = .done outcome) (fuel : Nat) : c.runFor (fuel + 1) = some outcome := by
  rw [runFor, h]

theorem runFor_of_running {c' : Compilation ⟨words, phraseTable⟩}
    (h : c.advance = .running c') (fuel : Nat) : c.runFor (fuel + 1) = c'.runFor fuel := by
  rw [runFor, h]

theorem advance_of_fault (h : c.Awaits q) {stream : TokenStream words} {fault : GrammarFault}
    (hnext : c.stream.next = some (stream, .error fault)) :
    c.advance = .done (.error fault) := by
  simp only [advance, h.lookahead, hnext]

theorem advance_of_next (h : c.Awaits q) {stream : TokenStream words} {t : Token}
    (hnext : c.stream.next = some (stream, .ok t)) :
    c.advance = offer { c with stream := stream } t := by
  simp only [advance, h.lookahead, hnext]

theorem offer_finish (h : c.Awaits q) :
    c.offer .finish = .done (q.parse c.assembly [] (.ok c.stream.tokenLine)) := by
  have henabled := PhraseState.enabled?_finish h.state
  by_cases hq : q = .start
  · rw [if_pos hq] at henabled
    have hidle : c.run.idle + 1 ≤ 19 := by
      rw [h.idle]
      decide
    have hstep := Run.step_of_performed c.stream.tokenLine h.accepted henabled
      (Run.perform_nil Assembly.operate _ c.assembly) hidle
    rw [offer, hstep, PhraseState.parse, if_pos hq]
    rfl
  · rw [if_neg hq] at henabled
    rw [offer, Run.step_of_disabled _ _ h.accepted henabled, PhraseState.parse, if_neg hq,
      PhraseState.stateName_eq h.state]
    rfl

theorem offer_stuck (h : c.Awaits q) {t : Token} (ht : t ≠ .finish) (hmove : q.move? t = none) :
    c.offer t =
      .done (.error (.violation "syntax" q.name t.excerpt c.stream.tokenLine)) := by
  have henabled := PhraseState.enabled?_of_stuck h.state ht hmove
  rw [offer, Run.step_of_disabled _ _ h.accepted henabled, PhraseState.stateName_eq h.state]
  rfl

theorem offer_refused (h : c.Awaits q) {t : Token} {m : PhraseMove} {s : Assembly}
    {fault : GrammarFault} (hmove : q.move? t = some m)
    (hperform : Run.perform Assembly.operate t m.actions c.assembly = (s, .error fault)) :
    c.offer t = .done (.error fault) := by
  have henabled := PhraseState.enabled?_of_move h.state hmove
  rw [offer, Run.step_of_refused _ h.accepted henabled hperform]
  rfl

theorem offer_moved (h : c.Awaits q) {t : Token} {m : PhraseMove} {s : Assembly}
    (hmove : q.move? t = some m)
    (hperform : Run.perform Assembly.operate t m.actions c.assembly = (s, .ok ())) :
    ∃ c', c.offer t = .running c' ∧ c'.Awaits m.next ∧ c'.stream = c.stream ∧
      c'.assembly = s := by
  have henabled := PhraseState.enabled?_of_move h.state hmove
  have hstep := Run.step_of_performed c.stream.tokenLine h.accepted henabled hperform
    (Nat.zero_le _)
  refine ⟨⟨c.stream, ⟨m.next.index, false, 0⟩, s, none⟩, ?_, ⟨rfl, rfl, rfl, rfl⟩, rfl, rfl⟩
  rw [offer, hstep]
  simp [Run.moveTo, PhraseMove.transition, h.accepted, Run.idleAfter]

/-- What the offer of a token comes to in a state of the phrase table. -/
inductive Offers (c : Compilation ⟨words, phraseTable⟩) (q : PhraseState) :
    Token → Progress ⟨words, phraseTable⟩ → Prop
  | finish : Offers c q .finish (.done (q.parse c.assembly [] (.ok c.stream.tokenLine)))
  | stuck {t : Token} (proper : t ≠ .finish) (move : q.move? t = none) : Offers c q t
      (.done (.error (.violation "syntax" q.name t.excerpt c.stream.tokenLine)))
  | refused {t : Token} {m : PhraseMove} {s : Assembly} {fault : GrammarFault}
      (move : q.move? t = some m)
      (perform : Run.perform Assembly.operate t m.actions c.assembly = (s, .error fault)) :
      Offers c q t (.done (.error fault))
  | moved {t : Token} {m : PhraseMove} {c' : Compilation ⟨words, phraseTable⟩}
      (move : q.move? t = some m)
      (perform : Run.perform Assembly.operate t m.actions c.assembly = (c'.assembly, .ok ()))
      (awaits : c'.Awaits m.next) (stream : c'.stream = c.stream) : Offers c q t (.running c')

theorem offers_offer (h : c.Awaits q) (t : Token) : c.Offers q t (c.offer t) := by
  by_cases ht : t = .finish
  · subst ht
    rw [offer_finish h]
    exact .finish
  cases hmove : q.move? t with
  | none =>
    rw [offer_stuck h ht hmove]
    exact .stuck ht hmove
  | some m =>
    rcases hperform : Run.perform Assembly.operate t m.actions c.assembly with ⟨s, fault | ⟨⟩⟩
    · rw [offer_refused h hmove hperform]
      exact .refused hmove hperform
    · obtain ⟨c', hoffer, hawaits, hstream, rfl⟩ := offer_moved h hmove hperform
      rw [hoffer]
      exact .moved hmove hperform hawaits hstream

theorem offers_of_next (h : c.Awaits q) {stream : TokenStream words} {t : Token}
    (hnext : c.stream.next = some (stream, .ok t)) :
    Offers { c with stream := stream } q t c.advance := by
  rw [advance_of_next h hnext]
  exact offers_offer (h.withStream stream) t

/-- A compilation comes to what the parser makes of the tokens that its stream yields. -/
theorem runFor_eq_parse (h : c.Awaits q) {l : List (Token × Nat)}
    {ending : Except GrammarFault Nat} (hyields : c.stream.Yields l ending) {fuel : Nat}
    (hfuel : l.length < fuel) : c.runFor fuel = some (q.parse c.assembly l ending) := by
  generalize hstream : c.stream = stream at hyields
  obtain ⟨fuel, rfl⟩ := Nat.exists_eq_succ_of_ne_zero (Nat.ne_zero_of_lt hfuel)
  induction hyields generalizing c q fuel with
  | finish next _ =>
    subst hstream
    have hadvance := (advance_of_next h next).trans (offer_finish (h.withStream _))
    exact runFor_of_done hadvance fuel
  | fault next =>
    subst hstream
    exact runFor_of_done (advance_of_fault h next) fuel
  | token next proper _ ih =>
    subst hstream
    have hoffers := offers_of_next h next
    generalize hadvance : c.advance = progress at hoffers
    cases hoffers with
    | finish => exact absurd rfl proper
    | stuck _ move => rw [runFor_of_done hadvance, PhraseState.parse, move]
    | refused move perform =>
      simp only [runFor_of_done hadvance, PhraseState.parse, move, perform]
    | moved move perform awaits stream =>
      have hlater := Nat.lt_of_succ_lt_succ hfuel
      obtain ⟨fuel, rfl⟩ := Nat.exists_eq_succ_of_ne_zero (Nat.ne_zero_of_lt hlater)
      rw [runFor_of_running hadvance, ih awaits stream fuel hlater]
      simp only [PhraseState.parse, move, perform]

end Compilation

end FuzzyRules
