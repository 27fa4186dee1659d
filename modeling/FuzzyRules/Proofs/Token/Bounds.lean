import Mathlib.Data.Fintype.Prod
import FuzzyRules.Proofs.Token.Endings

/-!
# Bounds of pulls

A pull that comes to an end at all does so within its bound. While characters are left, it waits no
longer than the table has states before it consumes one. At the end of the text it takes steps
without actions, and if a state came back there with the same idle count, it would come back for
ever.
-/

namespace FuzzyRules.TokenStream

variable {t : Table CharClass LexAction} {s s' : TokenStream t}
  {result result' : TokenStream t × Except GrammarFault Token} {fuel more : Nat}

theorem pull_unique (h : s.pull fuel = some result) (h' : s.pull more = some result') :
    result = result' := by
  have hmax := pull_mono h (Nat.le_max_left fuel more)
  rw [pull_mono h' (Nat.le_max_right fuel more)] at hmax
  exact (Option.some.inj hmax).symm

/-- A stream between two pulls of which none has failed. -/
structure Fresh (s : TokenStream t) : Prop where
  idle : s.run.idle ≤ t.size
  ready : s.sink.ready = none

theorem fresh_ofText (t : Table CharClass LexAction) (source : String) : (ofText t source).Fresh :=
  ⟨Nat.zero_le _, rfl⟩

theorem fresh_follow {tr : Transition CharClass LexAction t.size} (sink : Sink)
    (hidle : s.run.idleAfter tr ≤ t.size) : (s.follow tr sink).Fresh :=
  ⟨(s.run.idle_moveTo ..).trans_le hidle, rfl⟩

/-- A run in a state, with an idle count that is not too high. -/
def runAt (x : Fin t.size × Fin (t.size + 1)) : Run t := ⟨x.1, false, x.2⟩

/-- Where a step without actions leads at the end of the text. -/
def drift? (t : Table CharClass LexAction) (x : Fin t.size × Fin (t.size + 1)) :
    Option (Fin t.size × Fin (t.size + 1)) :=
  match t.transition? (none : Option Char) x.1 with
  | none => none
  | some tr =>
    if h : tr.actions = [] ∧ (runAt x).idleAfter tr < t.size + 1 then
      match tr.next with
      | .state j => some (j, ⟨_, h.2⟩)
      | .accept => none
    else none

section Drift

variable {x y : Fin t.size × Fin (t.size + 1)}

theorem exists_of_drift? (h : drift? t x = some y) : ∃ tr,
    t.transition? (none : Option Char) x.1 = some tr ∧ tr.actions = [] ∧
      (runAt x).idleAfter tr ≤ t.size ∧
        (runAt x).moveTo ((runAt x).idleAfter tr) tr.next = runAt y := by
  unfold drift? at h
  split at h
  next => cases h
  next tr htr =>
    split_ifs at h with hdrifts
    obtain ⟨hactions, hidle⟩ := hdrifts
    refine ⟨tr, htr, hactions, Nat.le_of_lt_succ hidle, ?_⟩
    cases hnext : tr.next with
    | accept => simp [hnext] at h
    | state j =>
      simp only [hnext, Option.some.injEq] at h
      cases h
      rfl

theorem accepts_of_drift? {tr : Transition CharClass LexAction t.size} (h : drift? t x = none)
    (htr : t.transition? (none : Option Char) x.1 = some tr) (hactions : tr.actions = [])
    (hidle : (runAt x).idleAfter tr ≤ t.size) : tr.next = .accept := by
  cases hnext : tr.next with
  | accept => rfl
  | state j =>
    have hdrifts : tr.actions = [] ∧ (runAt x).idleAfter tr < t.size + 1 :=
      ⟨hactions, Nat.lt_succ_of_le hidle⟩
    simp [drift?, htr, hdrifts, hnext] at h

end Drift

/-- The stream has come to the end of the text, with the state and the idle count. -/
structure AtEnd (s : TokenStream t) (x : Fin t.size × Fin (t.size + 1)) : Prop where
  rest : s.rest = []
  run : s.run = runAt x
  ready : s.sink.ready = none

theorem ready_of_operate_none {a : LexAction} {sink sink' : Sink}
    (h : Sink.operate a none sink = (sink', .ok ())) : sink'.ready ≠ none := by
  cases a with
  | push => cases h
  | keyword =>
    cases h
    exact Option.some_ne_none _
  | text =>
    cases h
    exact Option.some_ne_none _
  | number =>
    rw [Sink.operate] at h
    split at h
    · cases h
      exact Option.some_ne_none _
    · cases h

theorem ready_of_perform_none {actions : List LexAction} {sink sink' : Sink}
    (hactions : actions ≠ [])
    (h : Run.perform Sink.operate none actions sink = (sink', .ok ())) : sink'.ready ≠ none := by
  -- behind the text there is no character to push, so the first action makes a token
  obtain ⟨a, rest, rfl⟩ := List.exists_cons_of_ne_nil hactions
  obtain ⟨sink₁, ha, h⟩ := Run.exists_of_perform_cons h
  exact Run.perform_preserves (P := fun sink => sink.ready ≠ none)
    (fun hop _ => ready_of_operate_none hop) h (ready_of_operate_none ha)

namespace AtEnd

variable {x y : Fin t.size × Fin (t.size + 1)}

theorem of_fresh (hs : s.Fresh) (haccepted : s.run.accepted = false) (hrest : s.rest = []) :
    ∃ x, s.AtEnd x := by
  obtain ⟨rest, ⟨state, accepted, idle⟩, sink, line, tokenLine⟩ := s
  cases haccepted
  exact ⟨(state, ⟨idle, Nat.lt_succ_of_le hs.idle⟩), hrest, rfl, hs.ready⟩

theorem accepted_eq_false (h : s.AtEnd x) : s.run.accepted = false := by
  rw [h.run]
  rfl

theorem enabled?_eq (h : s.AtEnd x) : s.run.enabled? s.rest.head? = t.transition? none x.1 := by
  rw [h.rest, h.run]
  rfl

theorem exists_advance_of_drift (h : s.AtEnd x) (hy : drift? t x = some y) :
    ∃ s', s.advance = (s', .ok none) ∧ s'.AtEnd y := by
  obtain ⟨tr, htr, hactions, hidle, hmove⟩ := exists_of_drift? hy
  have hperform : Run.perform Sink.operate s.rest.head? tr.actions s.openSink =
      (s.openSink, .ok ()) := by
    rw [hactions, Run.perform_nil]
  have hadvance := advance_of_performed h.accepted_eq_false (h.enabled?_eq.trans htr) hperform
    (h.run ▸ hidle)
  refine ⟨_, hadvance.trans (by rw [openSink, h.ready]), ?_, ?_, rfl⟩
  · simp [follow, h.rest]
  · rw [follow, h.run, hmove]

/-- Where the stream does not go on so, a pull comes to its end within two steps. -/
theorem exists_pull (h : s.AtEnd x) (hx : drift? t x = none) :
    ∃ result, s.pull 2 = some result := by
  rcases advance_cases h.accepted_eq_false with ⟨s', fault, hadvance⟩ |
    ⟨tr, sink, htr, hperform, hidle, hadvance⟩
  · exact ⟨_, pull_of_fault h.accepted_eq_false hadvance 1⟩
  · cases hready : sink.ready with
    | some token =>
      rw [hready] at hadvance
      exact ⟨_, pull_of_token h.accepted_eq_false hadvance 1⟩
    | none =>
      rw [hready] at hadvance
      rw [h.rest, List.head?_nil] at hperform htr
      rw [h.run] at htr hidle
      have hactions : tr.actions = [] := by
        by_contra hne
        exact ready_of_perform_none hne hperform hready
      have haccepted : (s.follow tr sink).run.accepted = true := by
        simp [follow, accepts_of_drift? hx htr hactions hidle, Run.moveTo]
      have hsilent := pull_of_silent h.accepted_eq_false hadvance 1
      exact ⟨_, hsilent.trans (pull_of_accepted haccepted 0)⟩

theorem exists_iterate_of_pull (h : s.AtEnd x) (hpull : s.pull fuel = some result) :
    ∃ k y, (Option.bind · (drift? t))^[k] (some x) = some y ∧ drift? t y = none ∧
      s.pull (k + 2) = some result := by
  induction fuel generalizing s x with
  | zero => cases hpull
  | succ fuel ih =>
    cases hx : drift? t x with
    | none =>
      obtain ⟨result', hresult'⟩ := h.exists_pull hx
      obtain rfl := pull_unique hpull hresult'
      exact ⟨0, x, rfl, hx, hresult'⟩
    | some y =>
      obtain ⟨s', hadvance, hs'⟩ := h.exists_advance_of_drift hx
      rw [pull_of_silent h.accepted_eq_false hadvance] at hpull
      obtain ⟨k, z, hk, hz, hresult⟩ := ih hs' hpull
      refine ⟨k + 1, z, ?_, hz, (pull_of_silent h.accepted_eq_false hadvance _).trans hresult⟩
      rw [Function.iterate_succ_apply, Option.bind_some, hx]
      exact hk

theorem pull_of_pull (h : s.AtEnd x) (hpull : s.pull fuel = some result) :
    s.pull (t.size * (t.size + 1) + 1) = some result := by
  obtain ⟨k, y, hk, hy, hresult⟩ := h.exists_iterate_of_pull hpull
  have hcard := lt_card_of_end hk hy
  rw [Fintype.card_prod, Fintype.card_fin, Fintype.card_fin] at hcard
  exact pull_mono hresult (by omega)

end AtEnd

/-- Steps within which a pull comes to its end, if it does. -/
def quota (s : TokenStream t) : Nat :=
  match s.rest with
  | [] => t.size * (t.size + 1) + 1
  | _ :: _ => s.rest.length * (t.size + 1) + (t.size + 1 - s.run.idle) + t.size * (t.size + 1) + 1

theorem quota_pos (s : TokenStream t) : 0 < s.quota := by
  unfold quota
  split <;> exact Nat.succ_pos _

theorem quota_le_stepBound (s : TokenStream t) : s.quota ≤ s.stepBound := by
  have hsize : 0 < t.size := Nat.zero_lt_of_lt t.start.isLt
  have hspare : 1 ≤ t.size * (t.size + 1) := Nat.mul_le_mul hsize (Nat.succ_pos _)
  have hquota : s.quota ≤
      s.rest.length * (t.size + 1) + (t.size + 1) + t.size * (t.size + 1) + 1 := by
    unfold quota
    split <;> omega
  calc s.quota
      ≤ s.rest.length * (t.size + 1) + (t.size + 1) + t.size * (t.size + 1) +
          t.size * (t.size + 1) := by omega
    _ = s.stepBound := by
      rw [stepBound]
      ring

/-- While characters are left, a step spends some of the quota. -/
theorem quota_follow {c : Char} {rest : List Char} (hs : s.Fresh) (hrest : s.rest = c :: rest)
    {tr : Transition CharClass LexAction t.size} (sink : Sink)
    (hidle : s.run.idleAfter tr ≤ t.size) : (s.follow tr sink).quota < s.quota := by
  have hidle' : (s.follow tr sink).run.idle = s.run.idleAfter tr := s.run.idle_moveTo ..
  have hspent := hs.idle
  cases hconsumes : tr.consumes with
  | true =>
    have hrest' : (s.follow tr sink).rest = rest := by simp [follow, hrest, hconsumes]
    have hafter : s.run.idleAfter tr = 0 := by simp [Run.idleAfter, hconsumes]
    simp only [quota, hrest, hrest', hidle', hafter, List.length_cons, Nat.add_mul, Nat.one_mul]
    split
    · omega
    · simp only [List.length_cons, Nat.add_mul, Nat.one_mul]
      omega
  | false =>
    have hrest' : (s.follow tr sink).rest = c :: rest := by simp [follow, hrest, hconsumes]
    have hafter : s.run.idleAfter tr = s.run.idle + 1 := by simp [Run.idleAfter, hconsumes]
    simp only [quota, hrest, hrest', hidle', hafter]
    omega

theorem pull_quota (hs : s.Fresh) (h : s.pull fuel = some result) :
    s.pull s.quota = some result := by
  induction fuel generalizing s with
  | zero => cases h
  | succ fuel ih =>
    have hpos := s.quota_pos
    cases haccepted : s.run.accepted with
    | true =>
      rw [pull_of_accepted haccepted] at h
      exact h ▸ pull_mono (pull_of_accepted haccepted 0) hpos
    | false =>
      rcases advance_cases haccepted with ⟨s', fault, hadvance⟩ | ⟨tr, sink, -, -, hidle, hadvance⟩
      · rw [pull_of_fault haccepted hadvance] at h
        exact h ▸ pull_mono (pull_of_fault haccepted hadvance 0) hpos
      · cases hready : sink.ready with
        | some token =>
          rw [hready] at hadvance
          rw [pull_of_token haccepted hadvance] at h
          exact h ▸ pull_mono (pull_of_token haccepted hadvance 0) hpos
        | none =>
          rw [hready] at hadvance
          cases hrest : s.rest with
          | nil =>
            obtain ⟨x, hx⟩ := AtEnd.of_fresh hs haccepted hrest
            rw [quota, hrest]
            exact hx.pull_of_pull h
          | cons c rest =>
            rw [pull_of_silent haccepted hadvance] at h
            have hlater := ih (fresh_follow sink hidle) h
            exact pull_mono ((pull_of_silent haccepted hadvance _).trans hlater)
              (quota_follow hs hrest sink hidle)

/-- What a pull comes to with any number of steps, it comes to within its bound. -/
theorem next_of_pull (hs : s.Fresh) (h : s.pull fuel = some result) : s.next = some result :=
  pull_mono (pull_quota hs h) s.quota_le_stepBound

theorem next_eq_of_silent (hs : s.Fresh) (hs' : s'.Fresh) (haccepted : s.run.accepted = false)
    (h : s.advance = (s', .ok none)) : s.next = s'.next := by
  cases hnext : s'.next with
  | some result => exact next_of_pull hs ((pull_of_silent haccepted h _).trans hnext)
  | none =>
    by_contra hsome
    obtain ⟨result, hresult⟩ := Option.ne_none_iff_exists'.1 hsome
    obtain ⟨fuel, hfuel⟩ := Nat.exists_eq_add_of_le' (Nat.le_of_lt (one_lt_stepBound s))
    rw [next, hfuel, pull_of_silent haccepted h] at hresult
    rw [next_of_pull hs' hresult] at hnext
    cases hnext

end FuzzyRules.TokenStream
