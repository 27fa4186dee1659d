import FuzzyRules.Automaton.Run

/-!
# Steps of a run

A step of a run that has not accepted finds no transition, or has its actions refused, or performs
them and then moves on or is stalled. There is one equation for each of these, and one case analysis
for all of them.
-/

namespace FuzzyRules.Run

variable {κ A ι σ ε : Type} {t : Table κ A} [ItemClass κ ι] [HasExcerpt ι]

theorem step_of_disabled {operate : Operator A ι σ ε} {r : Run t} {item : ι} (line : Nat) (s : σ)
    (hr : r.accepted = false) (h : r.enabled? item = none) :
    r.step operate item line s =
      ⟨r, s, .error (.violation t.name r.stateName (HasExcerpt.excerpt item) line)⟩ := by
  simp [step, hr, h]

theorem step_of_refused {operate : Operator A ι σ ε} {r : Run t} {item : ι} {s s' : σ} {e : ε}
    {tr : Transition κ A t.size} (line : Nat) (hr : r.accepted = false)
    (h : r.enabled? item = some tr) (hs : perform operate item tr.actions s = (s', .error e)) :
    r.step operate item line s = ⟨r, s', .error (.refused e)⟩ := by
  simp [step, hr, h, hs]

/-- Steps without an item consumed, after a transition. -/
def idleAfter (r : Run t) (tr : Transition κ A t.size) : Nat :=
  if tr.consumes then 0 else r.idle + 1

theorem step_of_performed {operate : Operator A ι σ ε} {r : Run t} {item : ι} {s s' : σ}
    {tr : Transition κ A t.size} (line : Nat) (hr : r.accepted = false)
    (h : r.enabled? item = some tr) (hs : perform operate item tr.actions s = (s', .ok ()))
    (hidle : r.idleAfter tr ≤ t.size) :
    r.step operate item line s = ⟨r.moveTo (r.idleAfter tr) tr.next, s',
      .ok ⟨tr.consumes, (r.moveTo (r.idleAfter tr) tr.next).accepted⟩⟩ := by
  have hidle : ¬ t.size < if tr.consumes then 0 else r.idle + 1 := Nat.not_lt.2 hidle
  simp only [step, hr, h, hs]
  simp [idleAfter, hidle]

theorem step_of_stalled {operate : Operator A ι σ ε} {r : Run t} {item : ι} {s s' : σ}
    {tr : Transition κ A t.size} (line : Nat) (hr : r.accepted = false)
    (h : r.enabled? item = some tr) (hs : perform operate item tr.actions s = (s', .ok ()))
    (hidle : t.size < r.idleAfter tr) :
    r.step operate item line s = ⟨{ r with idle := r.idleAfter tr }, s',
      .error (.stalled t.name r.stateName)⟩ := by
  have hidle : t.size < if tr.consumes then 0 else r.idle + 1 := hidle
  simp only [step, hr, h, hs]
  simp [idleAfter, hidle]

/-- A step fails, or the run has accepted before, or the actions of a transition are performed and
the run moves on. -/
theorem step_cases (operate : Operator A ι σ ε) (r : Run t) (item : ι) (line : Nat) (s : σ) :
    (∃ fault, (r.step operate item line s).result = .error fault) ∨
      (r.accepted = true ∧ r.step operate item line s = ⟨r, s, .ok ⟨false, true⟩⟩) ∨
      ∃ tr s', r.accepted = false ∧ r.enabled? item = some tr ∧
        perform operate item tr.actions s = (s', .ok ()) ∧ r.idleAfter tr ≤ t.size ∧
          r.step operate item line s = ⟨r.moveTo (r.idleAfter tr) tr.next, s',
            .ok ⟨tr.consumes, (r.moveTo (r.idleAfter tr) tr.next).accepted⟩⟩ := by
  cases haccepted : r.accepted with
  | true => exact .inr (.inl ⟨rfl, step_of_accepted haccepted⟩)
  | false =>
    cases henabled : r.enabled? item with
    | none => exact .inl ⟨_, by rw [step_of_disabled line s haccepted henabled]⟩
    | some tr =>
      rcases hperform : perform operate item tr.actions s with ⟨s', e | ⟨⟩⟩
      · exact .inl ⟨_, by rw [step_of_refused line haccepted henabled hperform]⟩
      · by_cases hidle : r.idleAfter tr ≤ t.size
        · exact .inr (.inr ⟨tr, s', rfl, rfl, hperform, hidle,
            step_of_performed line haccepted henabled hperform hidle⟩)
        · have hstalled := step_of_stalled line haccepted henabled hperform
            (Nat.lt_of_not_le hidle)
          exact .inl ⟨_, by rw [hstalled]⟩

section Perform

omit [ItemClass κ ι] [HasExcerpt ι]

variable {operate : Operator A ι σ ε} {item : ι} {actions : List A} {s s' : σ}

theorem exists_of_perform_cons {a : A}
    (h : perform operate item (a :: actions) s = (s', .ok ())) : ∃ s₁,
      operate a item s = (s₁, .ok ()) ∧ perform operate item actions s₁ = (s', .ok ()) := by
  rw [perform] at h
  rcases hoperate : operate a item s with ⟨s₁, e | ⟨⟩⟩
  · simp [hoperate] at h
  · simp only [hoperate] at h
    exact ⟨s₁, rfl, h⟩

/-- What each action preserves is preserved by all of them. -/
theorem perform_preserves {P : σ → Prop}
    (hoperate : ∀ {a s s'}, operate a item s = (s', .ok ()) → P s → P s')
    (h : perform operate item actions s = (s', .ok ())) (hs : P s) : P s' := by
  induction actions generalizing s with
  | nil =>
    cases h
    exact hs
  | cons a actions ih =>
    obtain ⟨s₁, ha, h⟩ := exists_of_perform_cons h
    exact ih h (hoperate ha hs)

end Perform

omit [HasExcerpt ι] in
theorem perform_ne_error {operate : Operator A ι σ ε} {item : ι} {e : ε}
    (h : ∀ a s, (operate a item s).2 ≠ .error e) (actions : List A) (s : σ) :
    (perform operate item actions s).2 ≠ .error e := by
  induction actions generalizing s with
  | nil => nofun
  | cons a rest ih =>
    have ha := h a s
    rw [perform]
    rcases hoperate : operate a item s with ⟨s', e' | ⟨⟩⟩
    · rwa [hoperate] at ha
    · exact ih s'

/-- If no action is refused with it, a violation is found where no transition is enabled. -/
theorem disabled_of_violation {operate : Operator A ι σ GrammarFault} {r : Run t} {item : ι}
    {line l : Nat} {s : σ} {fault : StepFault GrammarFault} {grammar state : String}
    {seen : Excerpt}
    (hoperate : ∀ a s, (operate a item s).2 ≠ .error (.violation grammar state seen l))
    (h : (r.step operate item line s).result = .error fault)
    (hfault : GrammarFault.ofStep fault = .violation grammar state seen l) :
    r.accepted = false ∧ r.enabled? item = none ∧ grammar = t.name ∧
      seen = HasExcerpt.excerpt item := by
  cases haccepted : r.accepted with
  | true =>
    rw [step_of_accepted haccepted] at h
    cases h
  | false =>
    cases henabled : r.enabled? item with
    | none =>
      rw [step_of_disabled line s haccepted henabled] at h
      cases h
      cases hfault
      exact ⟨rfl, rfl, rfl, rfl⟩
    | some tr =>
      have hrefusal := perform_ne_error hoperate tr.actions s
      rcases hperform : perform operate item tr.actions s with ⟨s', e | ⟨⟩⟩
      · rw [step_of_refused line haccepted henabled hperform] at h
        cases h
        rw [hperform] at hrefusal
        exact absurd (congrArg Except.error hfault) hrefusal
      · by_cases hidle : r.idleAfter tr ≤ t.size
        · rw [step_of_performed line haccepted henabled hperform hidle] at h
          cases h
        · rw [step_of_stalled line haccepted henabled hperform (Nat.lt_of_not_le hidle)] at h
          cases h
          cases hfault

end FuzzyRules.Run
