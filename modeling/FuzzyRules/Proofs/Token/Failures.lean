import FuzzyRules.Proofs.Automaton.Failures
import FuzzyRules.Proofs.Token.Looks

/-!
# What a step of a stream leaves behind

A step counts the line ends among the characters that it consumes, and it notes the line if a token
begins there. A step that fails consumes nothing. It leaves the stream as a failed step of its run
has left the run and the sink.
-/

namespace FuzzyRules.TokenStream

variable {t : Table CharClass LexAction} {s s' : TokenStream t}

/-- The line of the last beginning of a token, behind the next step. -/
def nextTokenLine (s : TokenStream t) : Nat := if s.beginsToken then s.line else s.tokenLine

theorem advance_passes (s : TokenStream t) : ∃ skipped, s.rest = skipped ++ s.advance.1.rest ∧
    s.advance.1.line = s.line + skipped.count '\n' ∧
      s.advance.1.tokenLine = s.nextTokenLine := by
  obtain ⟨rest, run, sink, line, tokenLine⟩ := s
  simp only [advance]
  split
  · exact ⟨[], rfl, rfl, rfl⟩
  · split
    · cases rest with
      | nil => exact ⟨[], rfl, rfl, rfl⟩
      | cons c rest =>
        refine ⟨[c], rfl, ?_, rfl⟩
        by_cases hc : c = '\n' <;> simp [takeReady, skip, hc]
    · exact ⟨[], rfl, rfl, rfl⟩

def failed (s : TokenStream t) (run : Run t) (sink : Sink) : TokenStream t :=
  ⟨s.rest, run, sink, s.line, s.nextTokenLine⟩

theorem advance_of_failed {run : Run t} {sink : Sink} {fault : StepFault GrammarFault}
    (h : s.run.step Sink.operate s.rest.head? s.line s.openSink = ⟨run, sink, .error fault⟩) :
    s.advance = (s.failed run sink, .error (.ofStep fault)) := by
  rw [openSink] at h
  rw [advance, h]
  rfl

theorem exists_fails_of_advance {fault : GrammarFault} (h : s.advance = (s', .error fault)) :
    ∃ run sink cause, s.run.Fails Sink.operate s.rest.head? s.line s.openSink
        ⟨run, sink, .error cause⟩ ∧
      s' = s.failed run sink ∧ fault = .ofStep cause := by
  generalize hstep : s.run.step Sink.operate s.rest.head? s.line s.openSink = after
  obtain ⟨run, sink, cause | transit⟩ := after
  · obtain ⟨-, hfails⟩ := Run.fails_of_error (congrArg Stepped.result hstep)
    rw [hstep] at hfails
    rw [advance_of_failed hstep] at h
    cases h
    exact ⟨run, sink, cause, hfails, rfl, rfl⟩
  · rw [openSink] at hstep
    rw [advance, hstep] at h
    cases h

/-- The next pulls: the stream behind each of them, with what it has come to. -/
def pullings : Nat → TokenStream t → Option (List (TokenStream t × Except GrammarFault Token))
  | 0, _ => some []
  | n + 1, s =>
    match s.next with
    | none => none
    | some x => (pullings n x.1).map (x :: ·)

theorem pulls_eq_pullings (n : Nat) (s : TokenStream t) :
    s.pulls n = (s.pullings n).map (List.map Prod.snd) := by
  induction n generalizing s with
  | zero => rfl
  | succ n ih =>
    rw [pulls, pullings]
    cases s.next with
    | none => rfl
    | some x => simp [ih, Function.comp_def]

end FuzzyRules.TokenStream
