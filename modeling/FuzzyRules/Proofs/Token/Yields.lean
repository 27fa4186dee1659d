import FuzzyRules.Proofs.Automaton.Steps
import FuzzyRules.Token.Stream

/-!
# What a stream yields

A stream yields tokens, each with the line on which it began, and ends with the end of the text or
with a fault. The bounds on the number of steps do not matter as long as characters are consumed:
what the stream yields behind them it yields as a whole.
-/

namespace FuzzyRules

namespace TokenStream

variable {t : Table CharClass LexAction}

/-- The sink that a step begins with. -/
def openSink (s : TokenStream t) : Sink := { s.sink with line := s.line }

/-- The stream after a transition that has left `sink` behind. -/
def follow (s : TokenStream t) (tr : Transition CharClass LexAction t.size) (sink : Sink) :
    TokenStream t where
  rest := if tr.consumes then s.rest.tail else s.rest
  run := s.run.moveTo (s.run.idleAfter tr) tr.next
  sink := { sink with ready := none }
  line := if tr.consumes ∧ s.rest.head? = some '\n' then s.line + 1 else s.line
  tokenLine := if s.beginsToken then s.line else s.tokenLine

theorem advance_of_disabled {s : TokenStream t} (hs : s.run.accepted = false)
    (h : s.run.enabled? s.rest.head? = none) : ∃ s' seen,
      s.advance = (s', .error (.violation t.name s.run.stateName seen s.line)) := by
  rw [advance, Run.step_of_disabled _ _ hs h]
  exact ⟨_, _, rfl⟩

theorem advance_of_refused {s : TokenStream t} {tr : Transition CharClass LexAction t.size}
    {sink : Sink} {fault : GrammarFault} (hs : s.run.accepted = false)
    (h : s.run.enabled? s.rest.head? = some tr)
    (hsink : Run.perform Sink.operate s.rest.head? tr.actions s.openSink = (sink, .error fault)) :
    ∃ s', s.advance = (s', .error fault) := by
  have hstep := Run.step_of_refused s.line hs h hsink
  rw [openSink] at hstep
  rw [advance, hstep]
  exact ⟨_, rfl⟩

theorem advance_of_performed {s : TokenStream t} {tr : Transition CharClass LexAction t.size}
    {sink : Sink} (hs : s.run.accepted = false) (h : s.run.enabled? s.rest.head? = some tr)
    (hsink : Run.perform Sink.operate s.rest.head? tr.actions s.openSink = (sink, .ok ()))
    (hidle : s.run.idleAfter tr ≤ t.size) : s.advance = (s.follow tr sink, .ok sink.ready) := by
  have hstep := Run.step_of_performed s.line hs h hsink hidle
  rw [openSink] at hstep
  rw [advance, hstep]
  obtain ⟨rest, run, sink₀, line, tokenLine⟩ := s
  cases hc : tr.consumes with
  | false => simp [follow, takeReady, hc]
  | true =>
    cases rest with
    | nil => simp [follow, takeReady, skip, hc]
    | cons c rest => simp [follow, takeReady, skip, hc]

theorem pull_of_accepted {s : TokenStream t} (h : s.run.accepted = true) (fuel : Nat) :
    s.pull (fuel + 1) = some (s, .ok .finish) := by
  simp [pull, h]

theorem pull_of_fault {s s' : TokenStream t} {fault : GrammarFault}
    (hs : s.run.accepted = false) (h : s.advance = (s', .error fault)) (fuel : Nat) :
    s.pull (fuel + 1) = some (s', .error fault) := by
  simp [pull, hs, h]

theorem pull_of_token {s s' : TokenStream t} {token : Token} (hs : s.run.accepted = false)
    (h : s.advance = (s', .ok (some token))) (fuel : Nat) :
    s.pull (fuel + 1) = some (s', .ok token) := by
  simp [pull, hs, h]

theorem pull_of_silent {s s' : TokenStream t} (hs : s.run.accepted = false)
    (h : s.advance = (s', .ok none)) (fuel : Nat) : s.pull (fuel + 1) = s'.pull fuel := by
  simp [pull, hs, h]

theorem pull_mono {fuel more : Nat} {s : TokenStream t}
    {x : TokenStream t × Except GrammarFault Token} (h : s.pull fuel = some x)
    (hle : fuel ≤ more) : s.pull more = some x := by
  induction fuel generalizing s more with
  | zero => cases h
  | succ fuel ih =>
    cases more with
    | zero => omega
    | succ more =>
      cases hs : s.run.accepted with
      | true => rwa [pull_of_accepted hs] at h ⊢
      | false =>
        rcases hadvance : s.advance with ⟨s', fault | _ | token⟩
        · rwa [pull_of_fault hs hadvance] at h ⊢
        · rw [pull_of_silent hs hadvance] at h ⊢
          exact ih h (by omega)
        · rwa [pull_of_token hs hadvance] at h ⊢

theorem one_lt_stepBound (s : TokenStream t) : 1 < s.stepBound := by
  have hsize := t.start.isLt
  have : 1 * 2 ≤ s.stepBound := Nat.mul_le_mul (by omega) (by omega)
  omega

theorem stepBound_lt {s s' : TokenStream t} (h : s'.rest.length < s.rest.length) :
    s'.stepBound < s.stepBound :=
  Nat.mul_lt_mul_of_pos_right (by omega) (by omega)

theorem next_of_accepted {s : TokenStream t} (h : s.run.accepted = true) :
    s.next = some (s, .ok .finish) :=
  pull_mono (pull_of_accepted h 0) (Nat.le_of_lt (one_lt_stepBound s))

theorem next_of_accepting {s s' : TokenStream t} (hs : s.run.accepted = false)
    (h : s.advance = (s', .ok none)) (hs' : s'.run.accepted = true) :
    s.next = some (s', .ok .finish) :=
  pull_mono ((pull_of_silent hs h 1).trans (pull_of_accepted hs' 0)) (one_lt_stepBound s)

theorem next_of_fault {s s' : TokenStream t} {fault : GrammarFault}
    (hs : s.run.accepted = false) (h : s.advance = (s', .error fault)) :
    s.next = some (s', .error fault) :=
  pull_mono (pull_of_fault hs h 0) (Nat.le_of_lt (one_lt_stepBound s))

theorem next_of_token {s s' : TokenStream t} {token : Token} (hs : s.run.accepted = false)
    (h : s.advance = (s', .ok (some token))) : s.next = some (s', .ok token) :=
  pull_mono (pull_of_token hs h 0) (Nat.le_of_lt (one_lt_stepBound s))

theorem next_of_silent {s s' : TokenStream t} {x : TokenStream t × Except GrammarFault Token}
    (hs : s.run.accepted = false) (h : s.advance = (s', .ok none))
    (hrest : s'.rest.length < s.rest.length) (hnext : s'.next = some x) : s.next = some x :=
  pull_mono ((pull_of_silent hs h _).trans hnext) (stepBound_lt hrest)

/-- The tokens with their lines, and the line that the text ends with or the fault that ends it. -/
inductive Yields : TokenStream t → List (Token × Nat) → Except GrammarFault Nat → Prop
  | finish {s s' : TokenStream t} (next : s.next = some (s', .ok .finish))
      (accepted : s'.run.accepted = true) : Yields s [] (.ok s'.tokenLine)
  | fault {s s' : TokenStream t} {fault : GrammarFault} (next : s.next = some (s', .error fault)) :
      Yields s [] (.error fault)
  | token {s s' : TokenStream t} {token : Token} {l : List (Token × Nat)}
      {ending : Except GrammarFault Nat} (next : s.next = some (s', .ok token))
      (proper : token ≠ .finish) (tail : Yields s' l ending) :
      Yields s ((token, s'.tokenLine) :: l) ending

theorem collect_of_token {s s' : TokenStream t} {token : Token}
    (hnext : s.next = some (s', .ok token)) (hproper : token ≠ .finish) (fuel : Nat) :
    s.collect (fuel + 1) = (collect fuel s').map (Except.map (token :: ·)) := by
  cases token with
  | finish => exact absurd rfl hproper
  | keyword word => simp only [collect, hnext]
  | text content => simp only [collect, hnext]
  | number value => simp only [collect, hnext]

namespace Yields

variable {s s' : TokenStream t} {l l' : List (Token × Nat)}
  {ending ending' : Except GrammarFault Nat}

/-- What a stream yields is determined. -/
theorem unique (h : Yields s l ending) (h' : Yields s l' ending') :
    l = l' ∧ ending = ending' := by
  induction h generalizing l' with
  | finish next _ =>
    cases h' with
    | finish next' _ =>
      cases next.symm.trans next'
      exact ⟨rfl, rfl⟩
    | fault next' => cases next.symm.trans next'
    | token next' proper' _ =>
      cases next.symm.trans next'
      exact absurd rfl proper'
  | fault next =>
    cases h' with
    | finish next' _ => cases next.symm.trans next'
    | fault next' =>
      cases next.symm.trans next'
      exact ⟨rfl, rfl⟩
    | token next' _ _ => cases next.symm.trans next'
  | token next proper _ ih =>
    cases h' with
    | finish next' _ =>
      cases next.symm.trans next'
      exact absurd rfl proper
    | fault next' => cases next.symm.trans next'
    | token next' _ tail' =>
      cases next.symm.trans next'
      obtain ⟨rfl, rfl⟩ := ih tail'
      exact ⟨rfl, rfl⟩

theorem of_silent (hs : s.run.accepted = false) (h : s.advance = (s', .ok none))
    (hrest : s'.rest.length < s.rest.length) (hyields : Yields s' l ending) :
    Yields s l ending := by
  cases hyields with
  | finish next accepted => exact finish (next_of_silent hs h hrest next) accepted
  | fault next => exact fault (next_of_silent hs h hrest next)
  | token next proper tail => exact token (next_of_silent hs h hrest next) proper tail

theorem collect_eq (h : Yields s l ending) {fuel : Nat} (hfuel : l.length < fuel) :
    s.collect fuel = some (ending.map fun _ => l.map Prod.fst) := by
  induction h generalizing fuel with
  | finish next _ =>
    cases fuel with
    | zero => cases hfuel
    | succ fuel => simp [collect, next, Except.map]
  | fault next =>
    cases fuel with
    | zero => cases hfuel
    | succ fuel => simp [collect, next, Except.map]
  | @token s s' token l ending next proper _ ih =>
    cases fuel with
    | zero => cases hfuel
    | succ fuel =>
      rw [collect_of_token next proper, ih (Nat.lt_of_succ_lt_succ hfuel)]
      cases ending <;> rfl

theorem tokens_eq (h : Yields s l ending) (hbound : l.length < s.stepBound) :
    s.tokens = some (ending.map fun _ => l.map Prod.fst) :=
  h.collect_eq hbound

end Yields

/-- What the next pulls come to. -/
def pulls : Nat → TokenStream t → Option (List (Except GrammarFault Token))
  | 0, _ => some []
  | n + 1, s =>
    match s.next with
    | none => none
    | some (s', result) => (pulls n s').map (result :: ·)

theorem pulls_of_accepted {s : TokenStream t} (h : s.run.accepted = true) (n : Nat) :
    s.pulls n = some (List.replicate n (.ok .finish)) := by
  induction n with
  | zero => rfl
  | succ n ih => simp [pulls, next_of_accepted h, ih, List.replicate_succ]

/-- Once the text has ended, it ends again with every further pull. -/
theorem Yields.pulls_eq {s : TokenStream t} {l : List (Token × Nat)} {line : Nat}
    (h : Yields s l (.ok line)) (n : Nat) :
    s.pulls (l.length + n) =
      some ((l.map Prod.fst).map .ok ++ List.replicate n (.ok .finish)) := by
  generalize hending : (Except.ok line : Except GrammarFault Nat) = ending at h
  induction h with
  | @finish s s' next accepted =>
    cases n with
    | zero => rfl
    | succ n => simp [pulls, next, pulls_of_accepted accepted, List.replicate_succ]
  | fault next => cases hending
  | @token s s' token l ending next _ _ ih =>
    rw [List.length_cons, Nat.add_right_comm, pulls, next]
    simp [ih hending]

end TokenStream

end FuzzyRules
