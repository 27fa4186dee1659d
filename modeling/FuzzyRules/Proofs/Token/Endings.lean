import Mathlib.Tactic.Ring
import FuzzyRules.Proofs.Automaton.Circles
import FuzzyRules.Proofs.Token.Yields

/-!
# Pulls come to an end

A pull takes a character, or it passes the end of the text, or it waits. It waits no longer than the
table has states, and if no circle of the table consumes the end of the text, it passes the end no
more often than that either. So a pull has an outcome, whatever state the stream has come to.
-/

namespace FuzzyRules.TokenStream

variable {t : Table CharClass LexAction} {s s' : TokenStream t}

/-- How often the stream can still consume: each character that is left, and then the end of the
text in each state that is left for it. -/
noncomputable def reserve (s : TokenStream t) : Nat :=
  match s.rest with
  | [] => (t.consumers none s.run.state).card
  | _ :: _ => s.rest.length + t.size

/-- Steps that the stream can still take before it accepts or fails. -/
noncomputable def patience (s : TokenStream t) : Nat :=
  if s.run.accepted then 0 else s.run.patience s.reserve

/-- A stream between two pulls that has not failed. -/
structure Steady (s : TokenStream t) : Prop where
  idle : s.run.idle ≤ t.size
  ready : s.sink.ready ≠ some .finish

theorem steady_ofText (t : Table CharClass LexAction) (source : String) :
    (ofText t source).Steady :=
  ⟨Nat.zero_le _, nofun⟩

theorem reserve_le (s : TokenStream t) : s.reserve ≤ s.rest.length + t.size := by
  unfold reserve
  split
  · exact (t.card_consumers_le _).trans (Nat.le_add_left _ _)
  · exact le_rfl

theorem patience_add_two_le (s : TokenStream t) : s.patience + 2 ≤ s.stepBound := by
  have hsize : 0 < t.size := Nat.zero_lt_of_lt t.start.isLt
  have hreserve : s.reserve * (t.size + 1) ≤ (s.rest.length + t.size) * (t.size + 1) :=
    Nat.mul_le_mul_right _ s.reserve_le
  have hpatience : s.patience ≤ s.reserve * (t.size + 1) + (t.size + 1) := by
    unfold patience
    split
    · exact Nat.zero_le _
    · exact Nat.add_le_add_left (Nat.sub_le ..) _
  have hspare : 2 ≤ t.size * (t.size + 1) := Nat.mul_le_mul hsize (Nat.succ_lt_succ hsize)
  calc s.patience + 2
      ≤ (s.rest.length + t.size) * (t.size + 1) + (t.size + 1) + t.size * (t.size + 1) := by omega
    _ = s.stepBound := by
      rw [stepBound]
      ring

theorem advance_cases (hs : s.run.accepted = false) :
    (∃ s' fault, s.advance = (s', .error fault)) ∨
      ∃ tr sink, t.transition? s.rest.head? s.run.state = some tr ∧
        Run.perform Sink.operate s.rest.head? tr.actions s.openSink = (sink, .ok ()) ∧
          s.run.idleAfter tr ≤ t.size ∧ s.advance = (s.follow tr sink, .ok sink.ready) := by
  rcases s.run.step_cases Sink.operate s.rest.head? s.line s.openSink with ⟨fault, hresult⟩ |
    ⟨haccepted, -⟩ | ⟨tr, sink, -, henabled, hperform, hidle, -⟩
  · rw [openSink] at hresult
    rw [advance]
    simp only [hresult]
    exact .inl ⟨_, _, rfl⟩
  · rw [hs] at haccepted
    cases haccepted
  · exact .inr ⟨tr, sink, s.run.enabled?_eq_transition? _ ▸ henabled, hperform, hidle,
      advance_of_performed hs henabled hperform hidle⟩

theorem steady_follow {tr : Transition CharClass LexAction t.size} (sink : Sink)
    (hidle : s.run.idleAfter tr ≤ t.size) : (s.follow tr sink).Steady :=
  ⟨(s.run.idle_moveTo ..).trans_le hidle, nofun⟩

/-- A transition that consumes leaves less to be consumed, and no transition leaves more. -/
theorem reserve_follow (ht : t.Settles none) {tr : Transition CharClass LexAction t.size}
    {sink : Sink} (htr : t.transition? s.rest.head? s.run.state = some tr)
    (hs' : (s.follow tr sink).run.accepted = false) :
    (s.follow tr sink).reserve + (if tr.consumes then 1 else 0) ≤ s.reserve := by
  cases hrest : s.rest with
  | nil =>
    rw [hrest] at htr
    have hrest' : (s.follow tr sink).rest = [] := by simp [follow, hrest]
    cases hnext : tr.next with
    | accept => simp [follow, hnext, Run.moveTo] at hs'
    | state j =>
      have hstate : (s.follow tr sink).run.state = j := by simp [follow, hnext, Run.moveTo]
      simp only [reserve, hrest, hrest', hstate]
      split_ifs with hconsumes
      · exact Finset.card_lt_card (Table.consumers_ssubset ht htr hconsumes hnext)
      · exact Finset.card_le_card (Table.consumers_subset ⟨tr, htr, hnext⟩)
  | cons c rest =>
    have hreserve : s.reserve = rest.length + 1 + t.size := by simp [reserve, hrest]
    have hle := (s.follow tr sink).reserve_le
    rw [hreserve]
    split_ifs with hconsumes
    · have hrest' : (s.follow tr sink).rest = rest := by simp [follow, hrest, hconsumes]
      rw [hrest'] at hle
      omega
    · have hrest' : (s.follow tr sink).rest = c :: rest := by simp [follow, hrest, hconsumes]
      rw [hrest', List.length_cons] at hle
      exact hle

theorem patience_follow (ht : t.Settles none) {tr : Transition CharClass LexAction t.size}
    (sink : Sink) (hs : s.run.accepted = false)
    (htr : t.transition? s.rest.head? s.run.state = some tr)
    (hidle : s.run.idleAfter tr ≤ t.size) :
    (s.follow tr sink).patience ≤ s.patience ∧
      (s.run.idle ≤ t.size → (s.follow tr sink).patience < s.patience) := by
  have hpatience : s.patience = s.run.patience s.reserve := by simp [patience, hs]
  cases hs' : (s.follow tr sink).run.accepted with
  | true =>
    have hpatience' : (s.follow tr sink).patience = 0 := by simp [patience, hs']
    refine ⟨hpatience' ▸ Nat.zero_le _, fun h => ?_⟩
    rw [hpatience', hpatience, Run.patience]
    omega
  | false =>
    have hpatience' : (s.follow tr sink).patience =
        (s.follow tr sink).run.patience (s.follow tr sink).reserve := by simp [patience, hs']
    rw [hpatience, hpatience']
    exact Run.patience_moveTo hidle (reserve_follow ht htr hs')

theorem ready_of_operate {a : LexAction} {item : Option Char} {sink sink' : Sink}
    (hready : sink.ready ≠ some .finish) (h : Sink.operate a item sink = (sink', .ok ())) :
    sink'.ready ≠ some .finish := by
  cases a with
  | push =>
    cases item with
    | none => cases h
    | some c =>
      cases h
      exact hready
  | keyword =>
    cases h
    nofun
  | text =>
    cases h
    nofun
  | number =>
    rw [Sink.operate] at h
    split at h
    · cases h
      nofun
    · cases h

theorem ready_of_perform {actions : List LexAction} {item : Option Char} {sink sink' : Sink}
    (hready : sink.ready ≠ some .finish)
    (h : Run.perform Sink.operate item actions sink = (sink', .ok ())) :
    sink'.ready ≠ some .finish :=
  Run.perform_preserves (P := fun sink => sink.ready ≠ some .finish)
    (fun hop hready => ready_of_operate hready hop) h hready

/-- What a pull of a steady stream has come to. -/
inductive Pulled (s : TokenStream t) : TokenStream t × Except GrammarFault Token → Prop
  | fault (s' : TokenStream t) (fault : GrammarFault) : Pulled s (s', .error fault)
  | finish (s' : TokenStream t) (steady : s'.Steady) (accepted : s'.run.accepted = true)
      (patience : s'.patience ≤ s.patience) : Pulled s (s', .ok .finish)
  | token (s' : TokenStream t) (token : Token) (steady : s'.Steady) (proper : token ≠ .finish)
      (patience : s'.patience < s.patience) : Pulled s (s', .ok token)

theorem exists_pull_of_steady (ht : t.Settles none) (hs : s.Steady) {fuel : Nat}
    (hfuel : s.patience < fuel) : ∃ x, s.pull fuel = some x ∧ s.Pulled x := by
  induction fuel generalizing s with
  | zero => cases hfuel
  | succ fuel ih =>
    cases haccepted : s.run.accepted with
    | true => exact ⟨_, pull_of_accepted haccepted fuel, .finish s hs haccepted le_rfl⟩
    | false =>
      rcases advance_cases haccepted with ⟨s', fault, hadvance⟩ |
        ⟨tr, sink, htr, hperform, hidle, hadvance⟩
      · exact ⟨_, pull_of_fault haccepted hadvance fuel, .fault s' fault⟩
      · have hopen : s.openSink.ready ≠ some .finish := hs.ready
        have hready := ready_of_perform hopen hperform
        have hless := (patience_follow ht sink haccepted htr hidle).2 hs.idle
        have hsteady := steady_follow sink hidle
        cases htoken : sink.ready with
        | none =>
          rw [htoken] at hadvance
          rw [pull_of_silent haccepted hadvance]
          obtain ⟨x, hx, hpulled⟩ := ih hsteady (by omega)
          refine ⟨x, hx, ?_⟩
          cases hpulled with
          | fault s' fault => exact .fault s' fault
          | finish s' steady accepted patience => exact .finish s' steady accepted (by omega)
          | token s' token steady proper patience =>
            exact .token s' token steady proper (by omega)
        | some token =>
          rw [htoken] at hadvance hready
          exact ⟨_, pull_of_token haccepted hadvance fuel,
            .token _ token hsteady (fun h => hready (h ▸ rfl)) hless⟩

theorem exists_next_of_steady (ht : t.Settles none) (hs : s.Steady) :
    ∃ x, s.next = some x ∧ s.Pulled x :=
  exists_pull_of_steady ht hs (by have := s.patience_add_two_le; omega)

/-- A stream that has failed is steady again after its first step that does not fail. -/
theorem exists_next (ht : t.Settles none) (s : TokenStream t) : ∃ x, s.next = some x := by
  obtain ⟨fuel, hfuel⟩ := Nat.exists_eq_add_of_le' (Nat.le_of_lt (one_lt_stepBound s))
  have hpatience : s.patience + 2 ≤ fuel + 1 := hfuel ▸ s.patience_add_two_le
  rw [next, hfuel]
  cases haccepted : s.run.accepted with
  | true => exact ⟨_, pull_of_accepted haccepted fuel⟩
  | false =>
    rcases advance_cases haccepted with ⟨s', fault, hadvance⟩ |
      ⟨tr, sink, htr, -, hidle, hadvance⟩
    · exact ⟨_, pull_of_fault haccepted hadvance fuel⟩
    · have hle := (patience_follow ht sink haccepted htr hidle).1
      cases htoken : sink.ready with
      | none =>
        rw [htoken] at hadvance
        rw [pull_of_silent haccepted hadvance]
        have hfuel : (s.follow tr sink).patience < fuel := by omega
        obtain ⟨x, hx, -⟩ := exists_pull_of_steady ht (steady_follow sink hidle) hfuel
        exact ⟨x, hx⟩
      | some token =>
        rw [htoken] at hadvance
        exact ⟨_, pull_of_token haccepted hadvance fuel⟩

theorem exists_pulls (ht : t.Settles none) (n : Nat) (s : TokenStream t) :
    ∃ results, s.pulls n = some results := by
  induction n generalizing s with
  | zero => exact ⟨[], rfl⟩
  | succ n ih =>
    obtain ⟨⟨s', result⟩, hnext⟩ := exists_next ht s
    obtain ⟨results, hresults⟩ := ih s'
    exact ⟨result :: results, by simp only [pulls, hnext, hresults, Option.map_some]⟩

end FuzzyRules.TokenStream
