import FuzzyRules.Proofs.Engine.InPlace
import FuzzyRules.Proofs.NameMap.Overlay

/-!
# What a cycle commits

Every rule base of a cycle sees the same inputs: the committed signals with the observations laid
over them. If all of them have a consequence, these consequences are committed and nothing else.
If one of them fails, the first failure in name order is reported and the engine stays as it was,
also if it is changed in place.
-/

namespace FuzzyRules.Engine

variable {α : Type}

/-- An engine in use: an operation that fails leaves it as it was. -/
def attempt (e : Engine α) (operation : Engine α → Except (ModelFault α) (Engine α)) :
    Engine α × Except (ModelFault α) Unit :=
  match operation e with
  | .ok next => (next, .ok ())
  | .error fault => (e, .error fault)

theorem attempt_of_comesTo {e : Engine α} {steps : InPlace (Engine α) (ModelFault α) Unit}
    {operation : Engine α → Except (ModelFault α) (Engine α)}
    (h : InPlace.ComesTo steps e (operation e)) :
    e.attempt operation = (steps.run.run e).swap := by
  unfold InPlace.ComesTo InPlace.Ends at h
  rw [h, attempt]
  cases operation e <;> rfl

variable [Scalar α]

theorem attempt_cycle_of_ok {e : Engine α} {observations : NameMap α}
    {outcomes : List (String × α)}
    (h : e.consequences (e.state.overlay observations) = .ok outcomes) :
    e.attempt (·.cycle observations) =
      ({ e with state := e.state.overlay (.ofList outcomes) }, .ok ()) := by
  rw [attempt, cycle, h]
  rfl

theorem attempt_cycle_of_error {e : Engine α} {observations : NameMap α} {fault : ModelFault α}
    (h : e.consequences (e.state.overlay observations) = .error fault) :
    e.attempt (·.cycle observations) = (e, .error fault) := by
  rw [attempt, cycle, h]
  rfl

/-- The outcomes stand under the names of the rule bases, in their order. -/
theorem consequences_eq_ok_iff {e : Engine α} {inputs : NameMap α}
    {outcomes : List (String × α)} :
    e.consequences inputs = .ok outcomes ↔
      List.Forall₂ (fun b o => b.1 = o.1 ∧ b.2.consequence e.universes inputs = .ok o.2)
        e.ruleBases.entries outcomes := by
  rw [consequences, Traversal.mapM_eq_ok_iff]
  refine ⟨fun h => h.imp ?_, fun h => h.imp ?_⟩
  · intro b o ho
    obtain ⟨x, hx, rfl⟩ := Traversal.map_eq_ok_iff.1 ho
    exact ⟨rfl, hx⟩
  · rintro b ⟨n, x⟩ ⟨rfl, hx⟩
    exact Traversal.map_eq_ok_iff.2 ⟨x, hx, rfl⟩

theorem exists_consequences {e : Engine α} {inputs : NameMap α}
    (h : ∀ b ∈ e.ruleBases.entries, ∃ x, b.2.consequence e.universes inputs = .ok x) :
    ∃ outcomes, e.consequences inputs = .ok outcomes := by
  apply Traversal.exists_mapM_ok
  intro b hb
  obtain ⟨x, hx⟩ := h b hb
  exact ⟨(b.1, x), by rw [hx]; rfl⟩

theorem consequences_error_of_first {e : Engine α} {inputs : NameMap α}
    {before after : List (String × RuleBase)} {b : String × RuleBase} {fault : ModelFault α}
    (hsplit : e.ruleBases.entries = before ++ b :: after)
    (hbefore : ∀ b ∈ before, ∃ x, b.2.consequence e.universes inputs = .ok x)
    (hb : b.2.consequence e.universes inputs = .error fault) :
    e.consequences inputs = .error fault := by
  rw [consequences, hsplit]
  apply Traversal.mapM_error_of_first
  · intro c hc
    obtain ⟨x, hx⟩ := hbefore c hc
    exact ⟨(c.1, x), by rw [hx]; rfl⟩
  · rw [hb]
    rfl

theorem keys_of_consequences {e : Engine α} {inputs : NameMap α} {outcomes : List (String × α)}
    (h : e.consequences inputs = .ok outcomes) : outcomes.map Prod.fst = e.ruleBases.keys := by
  have hall := consequences_eq_ok_iff.1 h
  clear h
  rw [NameMap.keys]
  generalize e.ruleBases.entries = entries at hall
  induction hall with
  | nil => rfl
  | cons ho _ ih => rw [List.map_cons, List.map_cons, ih, ho.1]

theorem pairwise_of_consequences {e : Engine α} {inputs : NameMap α}
    {outcomes : List (String × α)} (h : e.consequences inputs = .ok outcomes) :
    outcomes.Pairwise fun a b => a.1 ≠ b.1 := by
  rw [← List.pairwise_map, keys_of_consequences h, NameMap.keys, List.pairwise_map]
  exact e.ruleBases.pairwise_ne

theorem committed_of_get? {e : Engine α} {inputs : NameMap α} {outcomes : List (String × α)}
    (h : e.consequences inputs = .ok outcomes) {name : String} {rb : RuleBase}
    (hrb : e.ruleBases.get? name = some rb) :
    ∃ x, rb.consequence e.universes inputs = .ok x ∧
      (e.state.overlay (.ofList outcomes)).get? name = some x := by
  obtain ⟨⟨n, x⟩, ho, hname, hx⟩ :=
    Traversal.exists_of_mem_left (consequences_eq_ok_iff.1 h) (NameMap.get?_eq_some_iff.1 hrb)
  subst hname
  refine ⟨x, hx, ?_⟩
  have hpair := pairwise_of_consequences h
  rw [NameMap.get?_overlay, NameMap.get?_ofList hpair, NameMap.lookup_of_mem hpair ho]
  rfl

theorem kept_of_get?_none {e : Engine α} {inputs : NameMap α} {outcomes : List (String × α)}
    (h : e.consequences inputs = .ok outcomes) {name : String}
    (hname : e.ruleBases.get? name = none) :
    (e.state.overlay (.ofList outcomes)).get? name = e.state.get? name := by
  have hnone : NameMap.lookup name outcomes = none := by
    rw [NameMap.lookup_eq_none_iff, keys_of_consequences h]
    exact NameMap.get?_eq_none_iff.1 hname
  rw [NameMap.get?_overlay, NameMap.get?_ofList (pairwise_of_consequences h), hnone]
  rfl

/-- A cycle commits the consequences of all rule bases on one set of inputs, or nothing. So does one
that goes through the rule bases with the engine in place. -/
theorem cycle_simultaneous (e : Engine α) (observations : NameMap α) :
    let inputs := e.state.overlay observations
    (∀ name, inputs.get? name = (observations.get? name).or (e.state.get? name)) ∧
    e.attempt (·.cycle observations) = ((cycleInPlace observations).run.run e).swap ∧
    ((∀ b ∈ e.ruleBases.entries, ∃ x, b.2.consequence e.universes inputs = .ok x) →
      ∃ next, e.attempt (·.cycle observations) = (next, .ok ()) ∧
        (∀ name rb, e.ruleBases.get? name = some rb →
          ∃ x, rb.consequence e.universes inputs = .ok x ∧ next.state.get? name = some x) ∧
        (∀ name, e.ruleBases.get? name = none →
          next.state.get? name = e.state.get? name) ∧
        next.universes = e.universes ∧ next.ruleBases = e.ruleBases ∧
        next.settings = e.settings) ∧
    (∀ b ∈ e.ruleBases.entries, ∀ fault, b.2.consequence e.universes inputs = .error fault →
      ∃ before first after cause, e.ruleBases.entries = before ++ first :: after ∧
        (∀ c ∈ before, ∃ x, c.2.consequence e.universes inputs = .ok x) ∧
        first.2.consequence e.universes inputs = .error cause ∧
        e.attempt (·.cycle observations) = (e, .error cause)) := by
  intro inputs
  refine ⟨NameMap.get?_overlay _ _, attempt_of_comesTo (comesTo_cycleInPlace e _), ?_, ?_⟩
  · intro hall
    obtain ⟨outcomes, h⟩ := exists_consequences hall
    refine ⟨_, attempt_cycle_of_ok h, ?_, ?_, rfl, rfl, rfl⟩
    · intro name rb hrb
      exact committed_of_get? h hrb
    · intro name hname
      exact kept_of_get?_none h hname
  · intro b hb fault hfault
    obtain ⟨before, first, after, cause, hsplit, hbefore, hfirst⟩ :=
      Traversal.exists_first_error (f := fun b => b.2.consequence e.universes inputs) hb hfault
    refine ⟨before, first, after, cause, hsplit, hbefore, hfirst, ?_⟩
    exact attempt_cycle_of_error (consequences_error_of_first hsplit hbefore hfirst)

end FuzzyRules.Engine
