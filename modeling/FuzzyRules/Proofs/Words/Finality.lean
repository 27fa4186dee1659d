import FuzzyRules.Proofs.Token.Failures
import FuzzyRules.Proofs.Words.Viability

/-!
# Faults of the built-in words are final

Where a character is out of place, every further pull finds it there again. A malformed number has
left the sink empty and the table in its state, so the next pull finds a number of no characters,
which is malformed as well. So no pull behind a fault yields anything but that fault.
-/

namespace FuzzyRules

/-- What a later pull fails with: the same violation, or a number of which nothing is left, on the
same line. -/
inductive GrammarFault.Recurs : GrammarFault → GrammarFault → Prop
  | violation (grammar state : String) (seen : Excerpt) (line : Nat) :
      Recurs (.violation grammar state seen line) (.violation grammar state seen line)
  | malformedNumber (literal : String) (line : Nat) :
      Recurs (.malformedNumber literal line) (.malformedNumber "" line)

theorem GrammarFault.Recurs.trans {f g h : GrammarFault} (hfg : f.Recurs g) (hgh : g.Recurs h) :
    f.Recurs h := by
  cases hfg <;> cases hgh <;> constructor

theorem literal?_empty : Decimal.literal? "" = none := rfl

/-- A transition of the built-in words has one action at most. One that pushes is for characters
only. -/
theorem actions_wordTable : ∀ i : Fin 7, ∀ tr ∈ (wordTable.row i).transitions,
    tr.actions.length ≤ 1 ∧ (tr.actions = [.push] → tr.itemClass.admits none = false) := by
  decide

namespace TokenStream

variable {s s' : TokenStream wordTable} {fault : GrammarFault}

theorem number_of_refused {tr : Transition CharClass LexAction 7} {before behind : List LexAction}
    {a : LexAction} {sink sink' : Sink} (henabled : s.run.enabled? s.rest.head? = some tr)
    (hactions : tr.actions = before ++ a :: behind)
    (hrefused : Sink.operate a s.rest.head? sink = (sink', .error fault)) :
    tr.actions = [.number] ∧ before = [] ∧ Decimal.literal? sink.buffer = none ∧
      sink' = { sink with buffer := "" } ∧ fault = .malformedNumber sink.buffer sink.line := by
  rw [Run.enabled?] at henabled
  obtain ⟨hlength, hpush⟩ := actions_wordTable s.run.state tr (List.mem_of_find?_eq_some henabled)
  obtain ⟨rfl, rfl⟩ : before = [] ∧ behind = [] := by
    rw [hactions, List.length_append, List.length_cons] at hlength
    exact ⟨List.length_eq_zero_iff.1 (by omega), List.length_eq_zero_iff.1 (by omega)⟩
  have hadmits := List.find?_some henabled
  cases a with
  | push =>
    cases hhead : s.rest.head? with
    | none =>
      rw [hhead] at hadmits
      exact absurd hadmits (Bool.eq_false_iff.1 (hpush hactions))
    | some c =>
      rw [hhead] at hrefused
      cases hrefused
  | keyword => cases hrefused
  | text => cases hrefused
  | number =>
    rw [Sink.operate] at hrefused
    split at hrefused
    · cases hrefused
    · cases hrefused
      exact ⟨hactions, rfl, by assumption, rfl, rfl⟩

theorem exists_recurs (hs : s.run.accepted = false) (hidle : s.run.idle ≤ 1)
    (h : s.advance = (s', .error fault)) : s'.run = s.run ∧ ∃ s'' fault',
      s'.advance = (s'', .error fault') ∧ fault.Recurs fault' ∧ s''.rest = s'.rest := by
  obtain ⟨run, sink, cause, hfails, rfl, rfl⟩ := exists_fails_of_advance h
  cases hfails with
  | violation disabled =>
    have hadvance := advance_of_failed (s := s.failed s.run s.openSink)
      (Run.step_of_disabled _ _ hs disabled)
    exact ⟨rfl, _, _, hadvance, .violation .., rfl⟩
  | @refused tr before behind a s₁ _ _ enabled actions performed refused =>
    obtain ⟨hnumber, rfl, -, rfl, rfl⟩ := number_of_refused enabled actions refused
    cases performed
    have hperform : Run.perform Sink.operate s.rest.head? tr.actions
        ⟨"", s.sink.ready, s.line⟩ =
          (⟨"", s.sink.ready, s.line⟩, .error (.malformedNumber "" s.line)) := by
      simp only [hnumber, Run.perform, Sink.operate, literal?_empty]
    have hstep := Run.step_of_refused s.line hs enabled hperform
    exact ⟨rfl, _, _, advance_of_failed (s := s.failed s.run _) hstep, .malformedNumber .., rfl⟩
  | stalled _ _ _ idle => exact absurd (idle.trans hidle) (by decide)

/-- Behind a pull that has failed, another one fails with the same and consumes nothing. -/
def Persists (x y : TokenStream wordTable × Except GrammarFault Token) : Prop :=
  ∀ fault, x.2 = .error fault →
    ∃ fault', y.2 = .error fault' ∧ fault.Recurs fault' ∧ y.1.rest = x.1.rest

theorem pullings_of_fault (hs : s.run.accepted = false) (hidle : s.run.idle ≤ 1)
    (h : s.advance = (s', .error fault)) (n : Nat) : ∃ results, s'.pullings n = some results ∧
      (∀ y ∈ results, Persists (s', .error fault) y) ∧ results.Pairwise Persists := by
  induction n generalizing s s' fault with
  | zero => exact ⟨[], rfl, List.forall_mem_nil _, .nil⟩
  | succ n ih =>
    obtain ⟨hrun, s'', fault', hadvance, hrecurs, hrest⟩ := exists_recurs hs hidle h
    have hs' : s'.run.accepted = false := hrun ▸ hs
    have hidle' : s'.run.idle ≤ 1 := hrun ▸ hidle
    obtain ⟨results, hresults, hfirst, hpairwise⟩ := ih hs' hidle' hadvance
    refine ⟨(s'', .error fault') :: results, ?_, ?_, List.pairwise_cons.2 ⟨hfirst, hpairwise⟩⟩
    · simp only [pullings, next_of_fault hs' hadvance, hresults, Option.map_some]
    · intro y hy f hf
      cases hf
      rcases List.mem_cons.1 hy with rfl | hy
      · exact ⟨fault', rfl, hrecurs, hrest⟩
      · obtain ⟨fault'', hy, hrecurs', hrest'⟩ := hfirst y hy fault' rfl
        exact ⟨fault'', hy, hrecurs.trans hrecurs', hrest'.trans hrest⟩

theorem pullings_persist {source : String} (h : (ofText wordTable source).Reaches s) (n : Nat) :
    ∃ results, s.pullings n = some results ∧ results.Pairwise Persists := by
  induction n generalizing s with
  | zero => exact ⟨[], rfl, .nil⟩
  | succ n ih =>
    obtain ⟨⟨s', result⟩, hnext⟩ := exists_next settles_wordTable s
    have htrail := trail_of_pull hnext
    obtain ⟨results, hresults, hfirst, hpairwise⟩ : ∃ results, s'.pullings n = some results ∧
        (∀ y ∈ results, Persists (s', result) y) ∧ results.Pairwise Persists := by
      cases result with
      | error fault =>
        obtain ⟨last, hlast, hs, hadvance⟩ := htrail.exists_last
        have hreached := htrail.reaches_of_mem last (List.mem_of_getLast? hlast)
        have hidle := (Underway.of_reaches (h.trans hreached)).idle_le hs
        exact pullings_of_fault hs hidle hadvance n
      | ok token =>
        obtain ⟨results, hresults, hpairwise⟩ := ih (h.trans (htrail.reaches_token s (by simp)))
        exact ⟨results, hresults, fun _ _ _ hfault => (nomatch hfault), hpairwise⟩
    refine ⟨(s', result) :: results, ?_, List.pairwise_cons.2 ⟨hfirst, hpairwise⟩⟩
    simp only [pullings, hnext, hresults, Option.map_some]

end TokenStream

/-- With the built-in words, whatever is pulled from a text behind a fault fails with the same fault
on the same line, and no character is consumed for it. -/
theorem faults_final : ∃ t : Table CharClass LexAction, Dialect.builtinWords.resolve = .ok t ∧
    ∀ (source : String) (n : Nat), ∃ results,
      (TokenStream.ofText t source).pullings n = some results ∧
        results.Pairwise fun x y => ∀ fault, x.2 = .error fault →
          ∃ fault', y.2 = .error fault' ∧ fault.Recurs fault' ∧ y.1.rest = x.1.rest :=
  ⟨wordTable, resolve_builtinWords, fun _ n => TokenStream.pullings_persist .refl n⟩

end FuzzyRules
