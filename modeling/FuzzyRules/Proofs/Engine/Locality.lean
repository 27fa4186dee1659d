import Mathlib.Logic.Relation
import FuzzyRules.Proofs.Engine.Built
import FuzzyRules.Proofs.RuleBase.Ballot
import FuzzyRules.Proofs.RuleBase.Locality

/-!
# What a cycle depends on

A rule base does not notice that an engine gets more universes or rule bases, nor what becomes of
signals that it does not name: its outcome stays as it is. A cycle sees of the committed signals
only those that some rule base names and that are not observed.
-/

namespace FuzzyRules.Engine

open Relation

variable {α : Type} {e e' : Engine α} {s s' : Engine α × NameMap α} {observations : NameMap α}
  {state : NameMap α} {owner : String} {rb : RuleBase} {x : α}

theorem get?_inputs_of_setSignal {name other : String} (hne : other ≠ name) (value : α) :
    ((e.setSignal name value).state.overlay observations).get? other =
      (e.state.overlay observations).get? other := by
  rw [NameMap.get?_overlay, NameMap.get?_overlay, setSignal, NameMap.get?_insert, if_neg hne]

theorem get?_inputs_of_observe {name other : String} (hne : other ≠ name) (value : α) :
    (state.overlay (observations.insert name value)).get? other =
      (state.overlay observations).get? other := by
  rw [NameMap.get?_overlay, NameMap.get?_overlay, NameMap.get?_insert, if_neg hne]

variable [Scalar α]

/-- A change of an engine and its observations that a rule base does not notice: something is added
to the engine, or a signal that the rule base does not name is set or observed. -/
inductive Unnoticed (rb : RuleBase) : Engine α × NameMap α → Engine α × NameMap α → Prop
  | addUniverse {e e' : Engine α} (u : Universe α) (h : e.addUniverse u = .ok e')
      (observations : NameMap α) : Unnoticed rb (e, observations) (e', observations)
  | addRuleBase {e e' : Engine α} (added : RuleBase) (h : e.addRuleBase added = .ok e')
      (observations : NameMap α) : Unnoticed rb (e, observations) (e', observations)
  | setSignal (name : String) (h : ¬ rb.Names name) (e : Engine α) (observations : NameMap α)
      (value : α) : Unnoticed rb (e, observations) (e.setSignal name value, observations)
  | observe (name : String) (h : ¬ rb.Names name) (e : Engine α) (observations : NameMap α)
      (value : α) : Unnoticed rb (e, observations) (e, observations.insert name value)

/-- Under the name stands the rule base, and this is its outcome in a cycle. -/
structure Gives (owner : String) (rb : RuleBase) (x : α) (s : Engine α × NameMap α) : Prop where
  ruleBase : s.1.ruleBases.get? owner = some rb
  outcome : rb.consequence s.1.universes (s.1.state.overlay s.2) = .ok x

theorem Unnoticed.gives (h : Unnoticed rb s s') (hs : Gives owner rb x s) :
    Gives owner rb x s' := by
  obtain ⟨hrb, hx⟩ := hs
  cases h with
  | addUniverse u h observations =>
    have halike := RuleBase.alike_of_more_universes hx (get?_universes_kept h)
    obtain ⟨-, -, rfl⟩ := addUniverse_eq_ok_iff.1 h
    exact ⟨hrb, (RuleBase.consequence_congr halike).symm.trans hx⟩
  | addRuleBase added h observations =>
    refine ⟨get?_ruleBases_kept h hrb, ?_⟩
    obtain ⟨-, rfl⟩ := addRuleBase_eq_ok_iff.1 h
    exact hx
  | setSignal name hname e observations value =>
    exact ⟨hrb, (RuleBase.consequence_of_unnamed hname fun hne =>
      get?_inputs_of_setSignal hne value).trans hx⟩
  | observe name hname e observations value =>
    exact ⟨hrb, (RuleBase.consequence_of_unnamed hname fun hne =>
      get?_inputs_of_observe hne value).trans hx⟩

/-- What one change does not touch, no sequence of them does. -/
theorem gives_of_unnoticed (h : ReflTransGen (Unnoticed rb) s s') (hs : Gives owner rb x s) :
    Gives owner rb x s' := by
  induction h with
  | refl => exact hs
  | tail _ hstep ih => exact hstep.gives ih

theorem exists_gives (h : e.cycle observations = .ok e')
    (hrb : e.ruleBases.get? owner = some rb) :
    ∃ x, Gives owner rb x (e, observations) ∧ e'.state.get? owner = some x := by
  obtain ⟨outcomes, houtcomes, rfl⟩ := cycle_eq_ok_iff.1 h
  obtain ⟨x, hx, hcommitted⟩ := committed_of_get? houtcomes hrb
  exact ⟨x, ⟨hrb, hx⟩, hcommitted⟩

theorem Gives.get?_state_eq (hs : Gives owner rb x (e, observations))
    (h : e.cycle observations = .ok e') : e'.state.get? owner = some x := by
  obtain ⟨y, hy, hcommitted⟩ := exists_gives h hs.ruleBase
  rw [hcommitted, Except.ok.inj (hy.outcome.symm.trans hs.outcome)]

theorem consequences_eq_of_unobserved
    (hstate : ∀ {owner rb name}, e.ruleBases.get? owner = some rb → rb.Names name →
      observations.get? name = none → state.get? name = e.state.get? name) :
    { e with state := state }.consequences (state.overlay observations) =
      e.consequences (e.state.overlay observations) := by
  unfold consequences
  apply Traversal.mapM_congr
  rintro ⟨owner, rb⟩ hmem
  have hrb := NameMap.get?_eq_some_iff.2 hmem
  refine congrArg (Except.map _) (RuleBase.consequence_congr ⟨rfl, fun _ => rfl, ?_⟩)
  intro name hname
  rw [NameMap.get?_overlay, NameMap.get?_overlay]
  cases hobserved : observations.get? name with
  | some x => rfl
  | none => rw [hstate hrb hname hobserved]

theorem contains_ofList_consequences {inputs : NameMap α} {outcomes : List (String × α)}
    (h : e.consequences inputs = .ok outcomes) (name : String) :
    (NameMap.ofList outcomes).contains name = e.ruleBases.contains name := by
  rw [Bool.eq_iff_iff, NameMap.contains_iff_mem_keys (m := e.ruleBases),
    ← keys_of_consequences h, NameMap.contains, NameMap.get?_ofList (pairwise_of_consequences h),
    Option.isSome_iff_ne_none, ne_eq, NameMap.lookup_eq_none_iff, not_not]

/-- A consequence depends on nothing but what its rule base names. So the outcome of a rule base in
a cycle stays the same whatever is added to the engine and whatever becomes of other signals, and
two states that differ only where no rule base looks, or where there is an observation, make the
same cycle: it fails alike, or it commits the same outcomes. -/
theorem cycle_local (e : Engine α) (observations : NameMap α) :
    (∀ (rb : RuleBase) universes universes' (signals signals' : NameMap α),
      rb.Alike universes universes' signals signals' →
        rb.consequence universes signals = rb.consequence universes' signals') ∧
    (∀ owner rb next, e.ruleBases.get? owner = some rb → e.cycle observations = .ok next →
      ∃ x, next.state.get? owner = some x ∧
        ∀ e' observations', ReflTransGen (Unnoticed rb) (e, observations) (e', observations') →
          e'.ruleBases.get? owner = some rb ∧
          rb.consequence e'.universes (e'.state.overlay observations') = .ok x ∧
          ∀ next', e'.cycle observations' = .ok next' → next'.state.get? owner = some x) ∧
    ∀ state, (∀ owner rb name, e.ruleBases.get? owner = some rb → rb.Names name →
        observations.get? name = none → state.get? name = e.state.get? name) →
      (∃ fault, e.cycle observations = .error fault ∧
        { e with state := state }.cycle observations = .error fault) ∨
      ∃ outcomes, (∀ name, outcomes.contains name = e.ruleBases.contains name) ∧
        e.cycle observations = .ok { e with state := e.state.overlay outcomes } ∧
        { e with state := state }.cycle observations =
          .ok { e with state := state.overlay outcomes } := by
  refine ⟨fun rb _ _ _ _ h => RuleBase.consequence_congr h, ?_, ?_⟩
  · intro owner rb next hrb hcycle
    obtain ⟨x, hgives, hcommitted⟩ := exists_gives hcycle hrb
    refine ⟨x, hcommitted, fun e' observations' hchanges => ?_⟩
    have hgives' := gives_of_unnoticed hchanges hgives
    exact ⟨hgives'.ruleBase, hgives'.outcome, fun next' hcycle' => hgives'.get?_state_eq hcycle'⟩
  · intro state hstate
    have hsame := consequences_eq_of_unobserved fun {owner rb name} => hstate owner rb name
    cases houtcomes : e.consequences (e.state.overlay observations) with
    | error fault =>
      refine .inl ⟨fault, ?_, ?_⟩
      · rw [cycle, houtcomes]
        rfl
      · rw [cycle, hsame, houtcomes]
        rfl
    | ok outcomes =>
      refine .inr ⟨.ofList outcomes, contains_ofList_consequences houtcomes, ?_, ?_⟩
      · exact cycle_eq_ok_iff.2 ⟨outcomes, houtcomes, rfl⟩
      · exact cycle_eq_ok_iff.2 ⟨outcomes, hsame.trans houtcomes, rfl⟩

/-- The signal of the junction that is committed is hidden by an observation. -/
def crossing : Engine ℚ :=
  ⟨{}, RuleBase.ramps, .ofList [("z", RuleBase.junction)], .ofList [("x", 1)]⟩

/-- A rule base that reads the outcome of the junction. -/
def lookout : RuleBase := ⟨"w", none, [⟨"high", none, .ofList [("z", "high")]⟩]⟩

def watched : Engine ℚ :=
  ⟨{}, RuleBase.ramps.insert "w" (RuleBase.ramp "w" 0 1),
    .ofList [("w", lookout), ("z", RuleBase.junction)], .ofList [("w", 5), ("x", 1)]⟩

theorem unnoticed_watched : ReflTransGen (Unnoticed RuleBase.junction)
    (crossing, RuleBase.approach) (watched, RuleBase.approach.insert "z" 3) :=
  .head (.setSignal "w" (by decide) _ _ 5)
    (.head (.addUniverse (RuleBase.ramp "w" 0 1) rfl _)
      (.head (.addRuleBase lookout rfl _)
        (.single (.observe "z" (by decide) _ _ 3))))

theorem cycle_crossing : crossing.cycle RuleBase.approach =
    .ok { crossing with state := .ofList [("x", 1), ("z", 674 / 81)] } := by
  decide +kernel

theorem cycle_watched : watched.cycle (RuleBase.approach.insert "z" 3) =
    .ok { watched with state := .ofList [("w", 1), ("x", 1), ("z", 674 / 81)] } := by
  decide +kernel

theorem observed_of_crossing {owner name : String} {rb : RuleBase}
    (hrb : crossing.ruleBases.get? owner = some rb) (hname : rb.Names name) :
    RuleBase.approach.get? name ≠ none := by
  have hmem : (owner, rb) ∈ [("z", RuleBase.junction)] := NameMap.get?_eq_some_iff.1 hrb
  cases List.mem_singleton.1 hmem
  have hobserved : ∀ r ∈ RuleBase.junction.rules, ∀ p ∈ r.predicates.entries,
      RuleBase.approach.get? p.1 ≠ none := by
    decide
  obtain ⟨r, hr, p, hp, rfl⟩ := hname
  exact hobserved r hr p hp

/-- The outcome of the junction is the same in an engine that has got more, and the cycle does not
see the signals that are observed. -/
theorem cycle_local_crossing :
    ReflTransGen (Unnoticed RuleBase.junction) (crossing, RuleBase.approach)
      (watched, RuleBase.approach.insert "z" 3) ∧
    (∃ next, crossing.cycle RuleBase.approach = .ok next ∧
      next.state.get? "z" = some (674 / 81)) ∧
    (∃ next, watched.cycle (RuleBase.approach.insert "z" 3) = .ok next ∧
      next.state.get? "z" = some (674 / 81)) ∧
    ∃ next, { crossing with state := .ofList [("x", 0)] }.cycle RuleBase.approach = .ok next := by
  obtain ⟨-, hunnoticed, hstate⟩ := cycle_local crossing RuleBase.approach
  obtain ⟨x, hcommitted, hsame⟩ := hunnoticed "z" RuleBase.junction _ rfl cycle_crossing
  obtain rfl : (674 / 81 : ℚ) = x := Option.some.inj hcommitted
  obtain ⟨-, -, hvalue⟩ := hsame _ _ unnoticed_watched
  refine ⟨unnoticed_watched, ⟨_, cycle_crossing, hcommitted⟩,
    ⟨_, cycle_watched, hvalue _ cycle_watched⟩, ?_⟩
  rcases hstate (.ofList [("x", 0)]) fun owner rb name hrb hname hnone =>
      absurd hnone (observed_of_crossing hrb hname) with
    ⟨fault, hfault, -⟩ | ⟨outcomes, -, -, hcycle⟩
  · cases hfault.symm.trans cycle_crossing
  · exact ⟨_, hcycle⟩

end FuzzyRules.Engine
