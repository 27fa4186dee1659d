import FuzzyRules.Proofs.Engine.Built
import FuzzyRules.Proofs.RuleBase.Hull
import FuzzyRules.Proofs.RuleBase.Outcome
import FuzzyRules.Proofs.Universe.Coverage
import FuzzyRules.Proofs.Universe.Sorting

/-!
# Closed engines

An engine is closed if all that its rules refer to is there, and if what a rule base can come to
lies where the rules that read it have a value. Over exact fractions a closed engine that is fed
never fails: the consequence of a rule base stays between the values of its terms, so it can be read
in the next cycle.
-/

namespace FuzzyRules.Engine

variable {e : Engine ℚ} {name owner : String} {rb : RuleBase} {u : Universe ℚ}
  {inputs observations : NameMap ℚ}

/-- Some rule has a predicate about this name. -/
def Antecedent (e : Engine ℚ) (name : String) : Prop :=
  ∃ owner rb, e.ruleBases.get? owner = some rb ∧
    ∃ r ∈ rb.rules, ∃ p ∈ r.predicates.entries, p.1 = name

structure Closed (e : Engine ℚ) : Prop where
  rules {owner : String} {rb : RuleBase} (h : e.ruleBases.get? owner = some rb) : rb.rules ≠ []
  output {owner : String} {rb : RuleBase} (h : e.ruleBases.get? owner = some rb) :
    ∃ u, e.universes.get? rb.name = some u ∧ ∀ r ∈ rb.rules, ∃ t, u.term? r.consequent = some t
  predicates {owner : String} {rb : RuleBase} (h : e.ruleBases.get? owner = some rb) :
    ∀ r ∈ rb.rules, r.predicates.entries ≠ []
  references {owner : String} {rb : RuleBase} (h : e.ruleBases.get? owner = some rb) :
    ∀ r ∈ rb.rules, ∀ p ∈ r.predicates.entries,
      ∃ u t, e.universes.get? p.1 = some u ∧ u.term? p.2 = some t
  agrees {name : String} {u : Universe ℚ} (h : e.Antecedent name)
    (hu : e.universes.get? name = some u) : u.Agrees
  feedback {name : String} {u : Universe ℚ} (h : e.Antecedent name)
    (hrb : e.ruleBases.contains name = true) (hu : e.universes.get? name = some u) :
    ∀ t ∈ u.terms, u.Covers t.value

/-- The signals that rules read lie where their universes have a value. -/
def InDomain (e : Engine ℚ) (signals : NameMap ℚ) : Prop :=
  ∀ name x u, e.Antecedent name → signals.get? name = some x →
    e.universes.get? name = some u → u.Covers x

/-- Nothing that a rule reads is missing or out of its domain. -/
structure Fed (e : Engine ℚ) (inputs : NameMap ℚ) : Prop where
  present (name : String) (h : e.Antecedent name) : ∃ x, inputs.get? name = some x
  inDomain : e.InDomain inputs

theorem Built.pairwise_terms (h : e.Built) (hu : e.universes.get? name = some u) :
    u.terms.Pairwise fun s t => s.center ≤ t.center :=
  (h.built_universe hu).1.ascending Scalar.comparable_rat fun _ _ => trivial

theorem mem_terms_of_term? {t : Term ℚ} (h : u.term? name = some t) : t ∈ u.terms :=
  List.mem_of_find?_eq_some h

theorem exists_reads (hbuilt : e.Built) (hclosed : e.Closed) (hfed : e.Fed inputs)
    (hrb : e.ruleBases.get? owner = some rb) {r : Rule} (hr : r ∈ rb.rules)
    {p : String × String} (hp : p ∈ r.predicates.entries) :
    ∃ values, RuleBase.Reads e.universes inputs p values := by
  have hname : e.Antecedent p.1 := ⟨owner, rb, hrb, r, hr, p, hp, rfl⟩
  obtain ⟨u, t, hu, ht⟩ := hclosed.references hrb r hr p hp
  obtain ⟨x, hx⟩ := hfed.present p.1 hname
  have hpairwise := hbuilt.pairwise_terms hu
  have hagrees := hclosed.agrees hname hu
  obtain ⟨y, hy⟩ := Universe.exists_valueAt hpairwise hagrees (hfed.inDomain p.1 x u hname hx hu)
  obtain ⟨z, hz⟩ := Universe.exists_valueAt hpairwise hagrees
    (Universe.covers_center hpairwise (mem_terms_of_term? ht))
  exact ⟨(y, z), u, x, t, hu, hx, ht, hy, hz⟩

theorem exists_score (hbuilt : e.Built) (hclosed : e.Closed) (hfed : e.Fed inputs)
    (hrb : e.ruleBases.get? owner = some rb) {r : Rule} (hr : r ∈ rb.rules) :
    ∃ s, RuleBase.Scores e.universes inputs rb.name r s := by
  obtain ⟨u, hu, hterms⟩ := hclosed.output hrb
  obtain ⟨t, ht⟩ := hterms r hr
  obtain ⟨readings, hreadings⟩ := Traversal.exists_forall₂
    (R := RuleBase.Reads e.universes inputs) fun p hp => exists_reads hbuilt hclosed hfed hrb hr hp
  refine ⟨⟨t.value, readings⟩, ⟨u, t, hu, ht, rfl⟩, hreadings, ?_⟩
  rintro rfl
  exact hclosed.predicates hrb r hr (List.forall₂_nil_right_iff.1 hreadings)

/-- The value of a score is that of a term of the rule base's own universe. -/
theorem exists_term_of_score (hu : e.universes.get? owner = some u) {r : Rule}
    {s : RuleBase.Score} (h : RuleBase.Scores e.universes inputs owner r s) :
    ∃ t ∈ u.terms, t.value = s.value := by
  obtain ⟨u', t, hu', ht, hvalue⟩ := h.consequent
  cases hu.symm.trans hu'
  exact ⟨t, mem_terms_of_term? ht, hvalue⟩

theorem exists_consequence (hbuilt : e.Built) (hclosed : e.Closed) (hfed : e.Fed inputs)
    (hrb : e.ruleBases.get? owner = some rb) :
    ∃ x, rb.consequence e.universes inputs = .ok x ∧
      (e.Antecedent owner → ∀ u, e.universes.get? owner = some u → u.Covers x) := by
  obtain ⟨scores, hscores⟩ := Traversal.exists_forall₂
    (R := RuleBase.Scores e.universes inputs rb.name)
    fun r hr => exists_score hbuilt hclosed hfed hrb hr
  have hne := hclosed.rules hrb
  refine ⟨_, RuleBase.consequence_iff_scores.2 ⟨hne, scores, hscores, rfl⟩, ?_⟩
  intro hname u hu
  have hcontains : e.ruleBases.contains owner = true := by rw [NameMap.contains, hrb]; rfl
  have hfeedback := hclosed.feedback hname hcontains hu
  by_cases hcount : u.count = 1
  · exact .inl hcount
  · -- every vote has the value of a term, so it lies between the first and the last center
    have hvotes_ne : scores.map RuleBase.Score.vote ≠ [] := by
      rw [Ne, List.map_eq_nil_iff]
      rintro rfl
      exact hne (List.forall₂_nil_right_iff.1 hscores)
    rw [hbuilt.ruleBase_name hrb] at hscores
    have hterm : ∀ s ∈ scores, ∃ t ∈ u.terms, t.value = s.value := by
      intro s hs
      obtain ⟨r, -, hrs⟩ := Traversal.exists_of_mem_right hscores hs
      exact exists_term_of_score hu hrs
    obtain ⟨s, hs⟩ := List.exists_mem_of_ne_nil _ (mt List.map_eq_nil_iff.2 hvotes_ne)
    obtain ⟨t, ht, -⟩ := hterm s hs
    obtain ⟨low, high, hdomain, -, -⟩ := (hfeedback t ht).resolve_left hcount
    have hbounds : ∀ v ∈ scores.map RuleBase.Score.vote, low ≤ v.value ∧ v.value ≤ high := by
      intro v hv
      obtain ⟨s, hs, rfl⟩ := List.mem_map.1 hv
      obtain ⟨t, ht, hvalue⟩ := hterm s hs
      obtain ⟨low', high', hdomain', hlow, hhigh⟩ := (hfeedback t ht).resolve_left hcount
      cases hdomain.symm.trans hdomain'
      have hvote : t.value = s.vote.value := hvalue
      exact hvote ▸ ⟨hlow, hhigh⟩
    exact .inr ⟨low, high, hdomain, RuleBase.weightedMean_bounds hvotes_ne hbounds⟩

/-- A cycle of a closed engine succeeds, and what it commits can be read in the next one. -/
theorem exists_cycle (hbuilt : e.Built) (hclosed : e.Closed) (hstate : e.InDomain e.state)
    (hfed : e.Fed (e.state.overlay observations)) :
    ∃ state, e.cycle observations = .ok { e with state := state } ∧ e.InDomain state ∧
      ∀ name, e.state.contains name = true → state.contains name = true := by
  have hall := fun (b : String × RuleBase) (hb : b ∈ e.ruleBases.entries) =>
    exists_consequence hbuilt hclosed hfed (NameMap.get?_eq_some_iff.2 hb)
  obtain ⟨outcomes, houtcomes⟩ := exists_consequences fun b hb =>
    let ⟨x, hx, _⟩ := hall b hb
    ⟨x, hx⟩
  refine ⟨_, cycle_eq_ok_iff.2 ⟨outcomes, houtcomes, rfl⟩, ?_, ?_⟩
  · intro name x u hname hx hu
    cases hrb : e.ruleBases.get? name with
    | none =>
      rw [kept_of_get?_none houtcomes hrb] at hx
      exact hstate name x u hname hx hu
    | some rb =>
      obtain ⟨y, hy, hcommitted⟩ := committed_of_get? houtcomes hrb
      obtain ⟨z, hz, hcovers⟩ := exists_consequence hbuilt hclosed hfed hrb
      cases hx.symm.trans hcommitted
      cases hy.symm.trans hz
      exact hcovers hname u hu
  · intro name hname
    rw [NameMap.contains, NameMap.get?_overlay, Option.isSome_or]
    exact Bool.or_eq_true _ _ ▸ .inr hname

/-- No cycle of a closed engine fails as long as it is fed: by the committed signals or by every
observation, and inside the domains. -/
theorem cycles_of_closed (hbuilt : e.Built) (hclosed : e.Closed)
    {observations : List (NameMap ℚ)} (hstate : e.InDomain e.state)
    (hobservations : ∀ o ∈ observations, e.InDomain o)
    (hpresent : ∀ name, e.Antecedent name →
      e.state.contains name = true ∨ ∀ o ∈ observations, o.contains name = true) :
    ∃ e', observations.foldlM cycle e = .ok e' := by
  induction observations generalizing e with
  | nil => exact ⟨e, rfl⟩
  | cons o rest ih =>
    obtain ⟨ho, hrest⟩ := List.forall_mem_cons.1 hobservations
    have hfed : e.Fed (e.state.overlay o) := by
      refine ⟨fun name hname => ?_, fun name x u hname hx hu => ?_⟩
      · rw [NameMap.get?_overlay, ← Option.isSome_iff_exists, Option.isSome_or, Bool.or_eq_true]
        rcases hpresent name hname with hstate | hobserved
        · exact .inr hstate
        · exact .inl (hobserved o List.mem_cons_self)
      · rw [NameMap.get?_overlay, Option.or_eq_some_iff] at hx
        rcases hx with hx | ⟨-, hx⟩
        · exact ho name x u hname hx hu
        · exact hstate name x u hname hx hu
    obtain ⟨state, hcycle, hdomain, hkept⟩ := exists_cycle hbuilt hclosed hstate hfed
    have hnext : Closed { e with state := state } :=
      ⟨hclosed.rules, hclosed.output, hclosed.predicates, hclosed.references, hclosed.agrees,
        hclosed.feedback⟩
    have hpresent' : ∀ name, e.Antecedent name →
        state.contains name = true ∨ ∀ o ∈ rest, o.contains name = true := by
      intro name hname
      refine (hpresent name hname).imp (hkept name) ?_
      exact fun h o ho => h o (List.mem_cons_of_mem _ ho)
    obtain ⟨e', he'⟩ := ih (hbuilt.cycled hcycle) hnext hdomain hrest hpresent'
    exact ⟨e', Traversal.foldlM_cons_eq_ok_iff.2 ⟨_, hcycle, he'⟩⟩

/-- Two terms on a straight line. -/
def slope (name : String) : Universe ℚ := ⟨name, none, [⟨"low", 0, 0⟩, ⟨"high", 1, 1⟩]⟩

/-- A rule base that reads what it came to in the cycle before. -/
def seesawRules : RuleBase :=
  ⟨"z", none, [⟨"high", none, .ofList [("x", "high"), ("z", "low")]⟩,
    ⟨"low", none, .ofList [("z", "high")]⟩]⟩

def seesaw : Engine ℚ :=
  ⟨{}, .ofList [("x", slope "x"), ("z", slope "z")], .ofList [("z", seesawRules)],
    .ofList [("z", 1 / 4)]⟩

theorem built_slope (name : String) : (slope name).Built :=
  .of_pairwise Scalar.comparable_rat (fun _ _ => trivial) (by simp) (by simp)

theorem built_seesaw : seesaw.Built := by
  have hx : addUniverse (.new {}) (slope "x") = .ok ⟨{}, .ofList [("x", slope "x")], {}, {}⟩ := rfl
  have hz : addUniverse ⟨{}, .ofList [("x", slope "x")], {}, {}⟩ (slope "z") =
      .ok ⟨{}, seesaw.universes, {}, {}⟩ := rfl
  have hrules : addRuleBase ⟨{}, seesaw.universes, {}, {}⟩ seesawRules =
      .ok ⟨{}, seesaw.universes, seesaw.ruleBases, {}⟩ := rfl
  have hbuilt := Built.withUniverse (.withUniverse (.new {}) (built_slope "x") hx)
    (built_slope "z") hz
  exact (hbuilt.withRuleBase hrules).withSignal "z" (1 / 4)

theorem ruleBase_of_seesaw {owner : String} {rb : RuleBase}
    (h : seesaw.ruleBases.get? owner = some rb) : owner = "z" ∧ rb = seesawRules := by
  have hmem : (owner, rb) ∈ [("z", seesawRules)] := NameMap.get?_eq_some_iff.1 h
  exact Prod.mk.inj (List.mem_singleton.1 hmem)

theorem universe_of_seesaw {name : String} {u : Universe ℚ}
    (h : seesaw.universes.get? name = some u) : u = slope name := by
  have hmem : (name, u) ∈ [("x", slope "x"), ("z", slope "z")] := NameMap.get?_eq_some_iff.1 h
  rcases List.mem_cons.1 hmem with hmem | hmem
  · cases hmem
    rfl
  · cases List.mem_singleton.1 hmem
    rfl

theorem slope_covers (name : String) {x : ℚ} (hlow : 0 ≤ x) (hhigh : x ≤ 1) :
    (slope name).Covers x :=
  .inr ⟨0, 1, rfl, hlow, hhigh⟩

theorem antecedent_of_seesaw {name : String} (h : seesaw.Antecedent name) :
    name = "x" ∨ name = "z" := by
  obtain ⟨owner, rb, hrb, r, hr, p, hp, rfl⟩ := h
  obtain ⟨-, rfl⟩ := ruleBase_of_seesaw hrb
  have hnames : ∀ r ∈ seesawRules.rules, ∀ p ∈ r.predicates.entries, p.1 = "x" ∨ p.1 = "z" := by
    decide
  exact hnames r hr p hp

theorem closed_seesaw : seesaw.Closed where
  rules h := by
    obtain ⟨-, rfl⟩ := ruleBase_of_seesaw h
    exact List.cons_ne_nil _ _
  output h := by
    obtain ⟨-, rfl⟩ := ruleBase_of_seesaw h
    have hterms : ∀ r ∈ seesawRules.rules, ((slope "z").term? r.consequent).isSome = true := by
      decide
    exact ⟨slope "z", rfl, fun r hr => Option.isSome_iff_exists.1 (hterms r hr)⟩
  predicates h := by
    obtain ⟨-, rfl⟩ := ruleBase_of_seesaw h
    decide
  references h := by
    obtain ⟨-, rfl⟩ := ruleBase_of_seesaw h
    have hfound : ∀ r ∈ seesawRules.rules, ∀ p ∈ r.predicates.entries,
        ((seesaw.universes.get? p.1).bind fun u => u.term? p.2).isSome = true := by
      decide
    intro r hr p hp
    obtain ⟨t, ht⟩ := Option.isSome_iff_exists.1 (hfound r hr p hp)
    obtain ⟨u, hu, ht⟩ := Option.bind_eq_some_iff.1 ht
    exact ⟨u, t, hu, ht⟩
  agrees _ hu := by
    obtain rfl := universe_of_seesaw hu
    simp [Universe.Agrees, slope]
  feedback _ _ hu := by
    obtain rfl := universe_of_seesaw hu
    simp only [slope, List.forall_mem_cons]
    exact ⟨slope_covers _ le_rfl zero_le_one, slope_covers _ zero_le_one le_rfl, by simp⟩

theorem inDomain_seesaw {signals : NameMap ℚ} (h : ∀ s ∈ signals.entries, 0 ≤ s.2 ∧ s.2 ≤ 1) :
    seesaw.InDomain signals := by
  intro name x u _ hx hu
  obtain rfl := universe_of_seesaw hu
  obtain ⟨hlow, hhigh⟩ := h (name, x) (NameMap.get?_eq_some_iff.1 hx)
  exact slope_covers name hlow hhigh

def sightings : List (NameMap ℚ) := [.ofList [("x", 1 / 2)], .ofList [("x", 1)]]

/-- A rule base that reads its own outcome, under two observations of the other universe. -/
theorem cycles_of_closed_seesaw :
    (seesaw.Built ∧ seesaw.Closed ∧ seesaw.InDomain seesaw.state ∧
      (∀ o ∈ sightings, seesaw.InDomain o) ∧
      ∀ name, seesaw.Antecedent name →
        seesaw.state.contains name = true ∨ ∀ o ∈ sightings, o.contains name = true) ∧
    ∃ e', sightings.foldlM cycle seesaw = .ok e' := by
  have hstate : seesaw.InDomain seesaw.state := inDomain_seesaw (by decide +kernel)
  have hobservations : ∀ o ∈ sightings, seesaw.InDomain o := by
    have hunit : ∀ o ∈ sightings, ∀ s ∈ o.entries, 0 ≤ s.2 ∧ s.2 ≤ 1 := by decide +kernel
    exact fun o ho => inDomain_seesaw (hunit o ho)
  have hpresent : ∀ name, seesaw.Antecedent name →
      seesaw.state.contains name = true ∨ ∀ o ∈ sightings, o.contains name = true := by
    intro name hname
    rcases antecedent_of_seesaw hname with rfl | rfl <;> decide
  exact ⟨⟨built_seesaw, closed_seesaw, hstate, hobservations, hpresent⟩,
    cycles_of_closed built_seesaw closed_seesaw hstate hobservations hpresent⟩

end FuzzyRules.Engine
