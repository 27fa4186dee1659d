import FuzzyRules.Proofs.Automaton.Stalls

/-!
# Failed steps

A step that fails leaves the run in the state that it has stood in, with the actions of one
transition handed to the operator up to the first that is refused. All that can change in the run is
that a stalled run has been idle for one step more. It is stalled by every further idle step in any
case, so whatever is offered to it later, it behaves as if the failed step had not been tried.
-/

namespace FuzzyRules

/-- What a step shows of itself: the actions that are handed to the operator with its answers, what
comes of the step, the state that is reported then and whether the run has accepted. -/
structure Appearance (A ε : Type) where
  requests : List (A × Except ε Unit)
  result : Except (StepFault ε) Transit
  state : String
  accepted : Bool

namespace Run

variable {κ A ι σ τ ε : Type} {t : Table κ A} {r r' : Run t} {operate : Operator A ι σ ε}
  {operate' : Operator A ι τ ε} {item : ι} {s : σ} {s' : τ}

/-- The actions that are handed to the operator, up to the first that is refused, with the
answers. -/
def requests (operate : Operator A ι σ ε) (item : ι) : List A → σ → List (A × Except ε Unit)
  | [], _ => []
  | a :: rest, s =>
    match operate a item s with
    | (s', .ok ()) => (a, .ok ()) :: requests operate item rest s'
    | (_, .error e) => [(a, .error e)]

theorem perform_congr {actions : List A}
    (h : requests operate item actions s = requests operate' item actions s') :
    (perform operate item actions s).2 = (perform operate' item actions s').2 := by
  induction actions generalizing s s' with
  | nil => rfl
  | cons a rest ih =>
    rw [perform, perform]
    rw [requests, requests] at h
    rcases hs : operate a item s with ⟨s₁, e | ⟨⟩⟩ <;>
      rcases hs' : operate' a item s' with ⟨s₁', e' | ⟨⟩⟩ <;> simp only [hs, hs'] at h ⊢
    · cases h
      rfl
    · cases h
    · cases h
    · exact ih (List.cons.inj h).2

theorem requests_of_answers {actions : List A} {later later' : List (Except ε Unit)}
    (h : (requests operate item actions s).map Prod.snd ++ later =
      (requests operate' item actions s').map Prod.snd ++ later') :
    requests operate item actions s = requests operate' item actions s' ∧ later = later' := by
  induction actions generalizing s s' with
  | nil => exact ⟨rfl, h⟩
  | cons a rest ih =>
    rw [requests, requests] at h ⊢
    rcases hs : operate a item s with ⟨s₁, e | ⟨⟩⟩ <;>
      rcases hs' : operate' a item s' with ⟨s₁', e' | ⟨⟩⟩ <;> simp only [hs, hs'] at h ⊢
    · cases h
      exact ⟨rfl, rfl⟩
    · cases h
    · cases h
    · obtain ⟨hrest, hlater⟩ := ih (List.cons.inj h).2
      exact ⟨congrArg _ hrest, hlater⟩

theorem exists_refused {actions : List A} {s₂ : σ} {e : ε}
    (h : perform operate item actions s = (s₂, .error e)) : ∃ before a behind s₁,
      actions = before ++ a :: behind ∧ perform operate item before s = (s₁, .ok ()) ∧
        operate a item s₁ = (s₂, .error e) := by
  induction actions generalizing s with
  | nil => cases h
  | cons a rest ih =>
    rw [perform] at h
    rcases hs : operate a item s with ⟨s₁, e' | ⟨⟩⟩
    · simp only [hs] at h
      cases h
      exact ⟨[], a, rest, s, rfl, rfl, hs⟩
    · simp only [hs] at h
      obtain ⟨before, b, behind, s₁', hrest, hbefore, hb⟩ := ih h
      refine ⟨a :: before, b, behind, s₁', congrArg _ hrest, ?_, hb⟩
      simp only [perform, hs]
      exact hbefore

variable [ItemClass κ ι]

def stepRequests (operate : Operator A ι σ ε) (r : Run t) (item : ι) (s : σ) :
    List (A × Except ε Unit) :=
  if r.accepted then []
  else
    match r.enabled? item with
    | none => []
    | some tr => requests operate item tr.actions s

/-- The runs differ at most in the idle steps behind them, and then any further one is stalled. -/
structure Alike (r r' : Run t) : Prop where
  state : r.state = r'.state
  accepted : r.accepted = r'.accepted
  idle : r.idle = r'.idle ∨ t.size ≤ r.idle ∧ t.size ≤ r'.idle

namespace Alike

omit [ItemClass κ ι] in
theorem stateName_eq (h : r.Alike r') : r.stateName = r'.stateName := by
  rw [stateName, stateName, h.state]

theorem enabled?_eq (h : r.Alike r') (item : ι) : r.enabled? item = r'.enabled? item := by
  rw [enabled?, enabled?, h.state]

theorem stepRequests_eq (h : r.Alike r') (operate : Operator A ι σ ε) (item : ι) (s : σ) :
    r.stepRequests operate item s = r'.stepRequests operate item s := by
  rw [stepRequests, stepRequests, h.accepted, h.enabled?_eq]

theorem stepRequests_of_answers (h : r.Alike r') {later later' : List (Except ε Unit)}
    (hanswers : (r.stepRequests operate item s).map Prod.snd ++ later =
      (r'.stepRequests operate' item s').map Prod.snd ++ later') :
    r.stepRequests operate item s = r'.stepRequests operate' item s' ∧ later = later' := by
  rw [h.stepRequests_eq] at hanswers ⊢
  unfold stepRequests at hanswers ⊢
  split_ifs at hanswers ⊢ with hr
  · exact ⟨rfl, hanswers⟩
  · cases henabled : r'.enabled? item with
    | none =>
      simp only [henabled] at hanswers
      exact ⟨rfl, hanswers⟩
    | some tr =>
      simp only [henabled] at hanswers
      exact requests_of_answers hanswers

omit [ItemClass κ ι] in
theorem idleAfter_eq_or_lt (h : r.Alike r') (tr : Transition κ A t.size) :
    r.idleAfter tr = r'.idleAfter tr ∨ t.size < r.idleAfter tr ∧ t.size < r'.idleAfter tr := by
  rw [Run.idleAfter, Run.idleAfter]
  split
  · exact .inl rfl
  · have := h.idle
    omega

omit [ItemClass κ ι] in
theorem alike_moveTo (h : r.Alike r') (idle : Nat) (next : Next t.size) :
    (r.moveTo idle next).Alike (r'.moveTo idle next) := by
  cases next with
  | state i => exact ⟨rfl, h.accepted, .inl rfl⟩
  | accept => exact ⟨h.state, rfl, .inl rfl⟩

variable [HasExcerpt ι]

theorem alike_step_of_performed (h : r.Alike r') {tr : Transition κ A t.size} {s₁ : σ} {s₁' : τ}
    (hr : r.accepted = false) (henabled : r.enabled? item = some tr)
    (hs : perform operate item tr.actions s = (s₁, .ok ()))
    (hs' : perform operate' item tr.actions s' = (s₁', .ok ())) (line : Nat) :
    (r.step operate item line s).result = (r'.step operate' item line s').result ∧
      (r.step operate item line s).run.Alike (r'.step operate' item line s').run := by
  have hname := h.stateName_eq
  have hr' : r'.accepted = false := h.accepted.symm.trans hr
  have henabled' := (h.enabled?_eq item).symm.trans henabled
  -- the runs are idle for as long as each other, or both of them for too long
  rcases h.idleAfter_eq_or_lt tr with hidle | ⟨hidle, hidle'⟩
  · by_cases hle : r.idleAfter tr ≤ t.size
    · have hmove := h.alike_moveTo (r.idleAfter tr) tr.next
      rw [step_of_performed line hr henabled hs hle,
        step_of_performed line hr' henabled' hs' (hidle ▸ hle), ← hidle, hmove.accepted]
      exact ⟨rfl, hmove⟩
    · have hlt := Nat.lt_of_not_le hle
      rw [step_of_stalled line hr henabled hs hlt,
        step_of_stalled line hr' henabled' hs' (hidle ▸ hlt), hname]
      exact ⟨rfl, h.state, h.accepted, .inl hidle⟩
  · rw [step_of_stalled line hr henabled hs hidle,
      step_of_stalled line hr' henabled' hs' hidle', hname]
    exact ⟨rfl, h.state, h.accepted, .inr ⟨hidle.le, hidle'.le⟩⟩

/-- With the same answers to the same actions, runs that are alike come to the same and are alike
again. -/
theorem alike_step (h : r.Alike r')
    (hrequests : r.stepRequests operate item s = r'.stepRequests operate' item s') (line : Nat) :
    (r.step operate item line s).result = (r'.step operate' item line s').result ∧
      (r.step operate item line s).run.Alike (r'.step operate' item line s').run := by
  cases hr : r.accepted with
  | true =>
    rw [step_of_accepted hr, step_of_accepted (h.accepted.symm.trans hr)]
    exact ⟨rfl, h⟩
  | false =>
    have hr' : r'.accepted = false := h.accepted.symm.trans hr
    cases henabled : r.enabled? item with
    | none =>
      have henabled' := (h.enabled?_eq item).symm.trans henabled
      rw [step_of_disabled line s hr henabled, step_of_disabled line s' hr' henabled',
        h.stateName_eq]
      exact ⟨rfl, h⟩
    | some tr =>
      have henabled' := (h.enabled?_eq item).symm.trans henabled
      simp only [stepRequests, hr, hr', henabled, henabled', Bool.false_eq_true, if_false]
        at hrequests
      have hanswer := perform_congr hrequests
      rcases hs : perform operate item tr.actions s with ⟨s₁, e | ⟨⟩⟩ <;>
        rcases hs' : perform operate' item tr.actions s' with ⟨s₁', e' | ⟨⟩⟩ <;>
        rw [hs, hs'] at hanswer
      · cases hanswer
        rw [step_of_refused line hr henabled hs, step_of_refused line hr' henabled' hs']
        exact ⟨rfl, h⟩
      · cases hanswer
      · cases hanswer
      · exact h.alike_step_of_performed hr henabled hs hs' line

end Alike

variable [HasExcerpt ι]

/-- How a run appears, step by step, that is given the items with their lines. -/
def conduct (operate : Operator A ι σ ε) : Run t → σ → List (ι × Nat) → List (Appearance A ε)
  | _, _, [] => []
  | r, s, (item, line) :: rest =>
    let after := r.step operate item line s
    ⟨r.stepRequests operate item s, after.result, after.run.stateName, after.run.accepted⟩ ::
      conduct operate after.run after.operator rest

def answers (operate : Operator A ι σ ε) (r : Run t) (s : σ) (items : List (ι × Nat)) :
    List (Except ε Unit) :=
  (r.conduct operate s items).flatMap fun x => x.requests.map Prod.snd

theorem Alike.conduct_eq (h : r.Alike r') {items : List (ι × Nat)}
    (hanswers : answers operate r s items = answers operate' r' s' items) :
    r.conduct operate s items = r'.conduct operate' s' items := by
  induction items generalizing r r' s s' with
  | nil => rfl
  | cons entry rest ih =>
    obtain ⟨item, line⟩ := entry
    simp only [answers, conduct, List.flatMap_cons] at hanswers
    obtain ⟨hrequests, hlater⟩ := h.stepRequests_of_answers hanswers
    obtain ⟨hresult, hafter⟩ := h.alike_step hrequests line
    rw [conduct, conduct]
    simp only [hrequests, hresult, hafter.stateName_eq, hafter.accepted, ih hafter hlater]

/-- How a step fails: there is no transition, or the actions of the transition are handed to the
operator in their order until one of them is refused, or all of them are performed and the run has
been idle for too long. -/
inductive Fails (operate : Operator A ι σ ε) (r : Run t) (item : ι) (line : Nat) (s : σ) :
    Stepped t σ ε → Prop
  | violation (disabled : r.enabled? item = none) : Fails operate r item line s
      ⟨r, s, .error (.violation t.name r.stateName (HasExcerpt.excerpt item) line)⟩
  | refused {tr : Transition κ A t.size} {before behind : List A} {a : A} {s₁ s₂ : σ} {e : ε}
      (enabled : r.enabled? item = some tr) (actions : tr.actions = before ++ a :: behind)
      (performed : perform operate item before s = (s₁, .ok ()))
      (refused : operate a item s₁ = (s₂, .error e)) :
      Fails operate r item line s ⟨r, s₂, .error (.refused e)⟩
  | stalled {tr : Transition κ A t.size} {s₁ : σ} (enabled : r.enabled? item = some tr)
      (performed : perform operate item tr.actions s = (s₁, .ok ()))
      (keeps : tr.consumes = false) (idle : t.size ≤ r.idle) : Fails operate r item line s
      ⟨{ r with idle := r.idle + 1 }, s₁, .error (.stalled t.name r.stateName)⟩

theorem fails_of_error {line : Nat} {fault : StepFault ε}
    (h : (r.step operate item line s).result = .error fault) :
    r.accepted = false ∧ r.Fails operate item line s (r.step operate item line s) := by
  cases hr : r.accepted with
  | true =>
    rw [step_of_accepted hr] at h
    cases h
  | false =>
    refine ⟨rfl, ?_⟩
    cases henabled : r.enabled? item with
    | none =>
      rw [step_of_disabled line s hr henabled]
      exact .violation henabled
    | some tr =>
      rcases hs : perform operate item tr.actions s with ⟨s₁, e | ⟨⟩⟩
      · obtain ⟨before, a, behind, s₀, hactions, hbefore, ha⟩ := exists_refused hs
        rw [step_of_refused line hr henabled hs]
        exact .refused henabled hactions hbefore ha
      · by_cases hidle : r.idleAfter tr ≤ t.size
        · rw [step_of_performed line hr henabled hs hidle] at h
          cases h
        · have hlt := Nat.lt_of_not_le hidle
          rw [step_of_stalled line hr henabled hs hlt]
          cases hconsumes : tr.consumes with
          | true =>
            rw [idleAfter, if_pos hconsumes] at hlt
            exact absurd hlt (Nat.not_lt_zero _)
          | false =>
            have hafter : r.idleAfter tr = r.idle + 1 := if_neg (Bool.eq_false_iff.1 hconsumes)
            rw [hafter] at hlt ⊢
            exact .stalled henabled hs hconsumes (Nat.le_of_lt_succ hlt)

theorem Fails.alike {line : Nat} {after : Stepped t σ ε} (h : r.Fails operate item line s after) :
    after.run.Alike r := by
  cases h with
  | violation => exact ⟨rfl, rfl, .inl rfl⟩
  | refused => exact ⟨rfl, rfl, .inl rfl⟩
  | stalled _ _ _ idle => exact ⟨rfl, rfl, .inr ⟨Nat.le_succ_of_le idle, idle⟩⟩

/-- A step that fails changes neither the state nor whether the run has accepted, and hands to the
operator the actions of the transition up to the first that is refused. Whatever the run is offered
later, it appears as it would without that step, as long as the operators give the same answers. -/
theorem step_failed_unnoticed {operate : Operator A ι σ ε} {r : Run t} {item : ι} {line : Nat}
    {s : σ} {fault : StepFault ε} (h : (r.step operate item line s).result = .error fault) :
    (r.step operate item line s).run.stateName = r.stateName ∧
      (r.step operate item line s).run.accepted = r.accepted ∧
      r.Fails operate item line s (r.step operate item line s) ∧
      ∀ (σ₁ σ₂ : Type) (operate₁ : Operator A ι σ₁ ε) (operate₂ : Operator A ι σ₂ ε) (s₁ : σ₁)
        (s₂ : σ₂) (items : List (ι × Nat)),
        answers operate₁ (r.step operate item line s).run s₁ items =
          answers operate₂ r s₂ items →
        (r.step operate item line s).run.conduct operate₁ s₁ items =
          r.conduct operate₂ s₂ items := by
  obtain ⟨-, hfails⟩ := fails_of_error h
  have halike := hfails.alike
  exact ⟨halike.stateName_eq, halike.accepted, hfails,
    fun _ _ _ _ _ _ _ hanswers => halike.conduct_eq hanswers⟩

def faltering : Table CharClass LexAction where
  name := "faltering"
  size := 1
  start := Fin.last 0
  rows := [⟨"only", [⟨.quote, [.push], .state (Fin.last 0), true⟩,
    ⟨.comma, [.push, .text], .state (Fin.last 0), false⟩]⟩]
  rows_length := rfl

/-- The second comma in a row is one too many. Behind it a third comma fails as well, and after a
quote a comma is taken again. -/
theorem step_failed_unnoticed_faltering :
    ((⟨(0 : Fin 1), false, 1⟩ : Run faltering).step note (some ',') 1 []).result =
        .error (.stalled "faltering" "only") ∧
      ((⟨(0 : Fin 1), false, 1⟩ : Run faltering).step note (some ',') 1 []).run.conduct note
          [.push, .text] [(some ',', 1), (some '"', 1), (some ',', 1), (none, 1)] =
        (⟨(0 : Fin 1), false, 1⟩ : Run faltering).conduct note []
          [(some ',', 1), (some '"', 1), (some ',', 1), (none, 1)] := by
  have hstalled : ((⟨(0 : Fin 1), false, 1⟩ : Run faltering).step note (some ',') 1 []).result =
      .error (.stalled "faltering" "only") := rfl
  obtain ⟨-, -, -, hlater⟩ := step_failed_unnoticed hstalled
  exact ⟨hstalled, hlater _ _ note note [.push, .text] [] _ rfl⟩

end Run

end FuzzyRules
