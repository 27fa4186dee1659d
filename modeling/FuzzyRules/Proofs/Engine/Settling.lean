import FuzzyRules.Proofs.Engine.Closed
import FuzzyRules.Proofs.RuleBase.Feeding

/-!
# Engines that settle

The outcome of a rule base depends on the rule bases that feed it and on nothing else that changes
from cycle to cycle. So under one observation map every further cycle fixes one more level, and an
engine without feedback settles after as many cycles as its longest chain has rule bases.
-/

namespace FuzzyRules.Engine

open RuleBase

variable {α : Type} {e e₁ e₁' e₂ e₂' prev settled : Engine α} {observations : NameMap α}
  {n k : Nat} {name : String} {rb : RuleBase}

/-- Engines that differ in committed outcomes above the level only. -/
structure Agree (observations : NameMap α) (n : Nat) (e e' : Engine α) : Prop where
  universes : e'.universes = e.universes
  ruleBases : e'.ruleBases = e.ruleBases
  signal {name : String}
    (h : e.ruleBases.contains name = true → Within e.ruleBases observations n name) :
    e'.state.get? name = e.state.get? name

variable [Scalar α]

theorem frame_of_cycle (h : e₁.cycle observations = .ok e₂) :
    e₂.universes = e₁.universes ∧ e₂.ruleBases = e₁.ruleBases := by
  obtain ⟨outcomes, -, rfl⟩ := cycle_eq_ok_iff.1 h
  exact ⟨rfl, rfl⟩

theorem cycles_succ_eq_ok_iff : cycles observations (n + 1) e₁ = .ok e₂ ↔
    ∃ prev, cycles observations n e₁ = .ok prev ∧ prev.cycle observations = .ok e₂ := by
  induction n generalizing e₁ with
  | zero => cases h : e₁.cycle observations <;> simp [cycles, h]
  | succ n ih =>
    cases h : e₁.cycle observations with
    | error fault => simp [cycles, h]
    | ok next =>
      have hunfold (m : Nat) : cycles observations (m + 1) e₁ = cycles observations m next := by
        rw [cycles, h]
      rw [hunfold, hunfold, ih]

theorem frame_of_cycles (h : cycles observations n e₁ = .ok e₂) :
    e₂.universes = e₁.universes ∧ e₂.ruleBases = e₁.ruleBases := by
  induction n generalizing e₂ with
  | zero =>
    cases h
    exact ⟨rfl, rfl⟩
  | succ n ih =>
    obtain ⟨prev, hprev, hcycle⟩ := cycles_succ_eq_ok_iff.1 h
    obtain ⟨huniverses, hruleBases⟩ := frame_of_cycle hcycle
    exact ⟨huniverses.trans (ih hprev).1, hruleBases.trans (ih hprev).2⟩

theorem Agree.consequence_eq (h : Agree observations n e₁ e₂)
    (hrb : e₁.ruleBases.get? name = some rb)
    (hwithin : Within e₁.ruleBases observations (n + 1) name) :
    rb.consequence e₂.universes (e₂.state.overlay observations) =
      rb.consequence e₁.universes (e₁.state.overlay observations) := by
  rw [h.universes]
  refine consequence_congr ⟨rfl, fun _ => rfl, fun {source} hsource => ?_⟩
  rw [NameMap.get?_overlay, NameMap.get?_overlay]
  cases hobserved : observations.get? source with
  | some x => rfl
  | none =>
    -- the signal is the outcome of a rule base one level below, or no outcome at all
    rw [h.signal]
    intro hcontains
    exact hwithin source ⟨hcontains, by simp [NameMap.contains, hobserved], rb, hrb, hsource⟩

/-- A cycle carries the agreement one level further. -/
theorem Agree.agree_cycle (h : Agree observations n e₁ e₂) (h₁ : e₁.cycle observations = .ok e₁')
    (h₂ : e₂.cycle observations = .ok e₂') : Agree observations (n + 1) e₁' e₂' := by
  obtain ⟨outcomes₁, houtcomes₁, rfl⟩ := cycle_eq_ok_iff.1 h₁
  obtain ⟨outcomes₂, houtcomes₂, rfl⟩ := cycle_eq_ok_iff.1 h₂
  refine ⟨h.universes, h.ruleBases, fun {name} hwithin => ?_⟩
  cases hrb : e₁.ruleBases.get? name with
  | none =>
    have hrb₂ : e₂.ruleBases.get? name = none := by rw [h.ruleBases, hrb]
    rw [kept_of_get?_none houtcomes₁ hrb, kept_of_get?_none houtcomes₂ hrb₂]
    apply h.signal
    simp [NameMap.contains, hrb]
  | some rb =>
    have hrb₂ : e₂.ruleBases.get? name = some rb := by rw [h.ruleBases, hrb]
    obtain ⟨x, hx, hcommitted₁⟩ := committed_of_get? houtcomes₁ hrb
    obtain ⟨y, hy, hcommitted₂⟩ := committed_of_get? houtcomes₂ hrb₂
    rw [h.consequence_eq hrb (hwithin (NameMap.contains_of_get? hrb)), hx] at hy
    cases hy
    rw [hcommitted₁, hcommitted₂]

theorem agree_of_cycle (h : e₁.cycle observations = .ok e₂) : Agree observations 0 e₁ e₂ := by
  obtain ⟨outcomes, houtcomes, rfl⟩ := cycle_eq_ok_iff.1 h
  refine ⟨rfl, rfl, fun {name} hwithin => ?_⟩
  cases hrb : e₁.ruleBases.get? name with
  | none => exact kept_of_get?_none houtcomes hrb
  | some rb => exact (hwithin (NameMap.contains_of_get? hrb)).elim

theorem agree_of_cycles (h : cycles observations (n + 1) e₁ = .ok e₂) :
    ∃ prev, cycles observations n e₁ = .ok prev ∧ prev.cycle observations = .ok e₂ ∧
      Agree observations n prev e₂ := by
  induction n generalizing e₂ with
  | zero =>
    obtain ⟨prev, hprev, hcycle⟩ := cycles_succ_eq_ok_iff.1 h
    exact ⟨prev, hprev, hcycle, agree_of_cycle hcycle⟩
  | succ n ih =>
    obtain ⟨e₁', hrun, hcycle⟩ := cycles_succ_eq_ok_iff.1 h
    obtain ⟨prev, -, hprev, hagree⟩ := ih hrun
    exact ⟨e₁', hrun, hcycle, hagree.agree_cycle hprev hcycle⟩

theorem Agree.cycle_eq_self (h : Agree observations n prev settled)
    (hcycle : prev.cycle observations = .ok settled)
    (hwithin : ∀ name, prev.ruleBases.contains name = true →
      Within prev.ruleBases observations (n + 1) name) :
    settled.cycle observations = .ok settled := by
  have hconsequences : settled.consequences (settled.state.overlay observations) =
      prev.consequences (prev.state.overlay observations) := by
    -- no rule base names a signal in which the engines differ
    rw [consequences, consequences, h.ruleBases]
    apply Traversal.mapM_congr
    rintro ⟨name, rb⟩ hmem
    have hrb := NameMap.get?_eq_some_iff.2 hmem
    rw [h.consequence_eq hrb (hwithin name (NameMap.contains_of_get? hrb))]
  obtain ⟨outcomes, houtcomes, rfl⟩ := cycle_eq_ok_iff.1 hcycle
  refine cycle_eq_ok_iff.2 ⟨outcomes, hconsequences.trans houtcomes, ?_⟩
  rw [NameMap.overlay_overlay_self]

theorem cycle_of_no_ruleBases (h : e.ruleBases.entries = []) :
    e.cycle observations = .ok e := by
  have hconsequences : e.consequences (e.state.overlay observations) = .ok [] := by
    rw [consequences, h]
    rfl
  exact cycle_eq_ok_iff.2 ⟨[], hconsequences, rfl⟩

theorem cycle_of_isGreatest (hk : IsGreatest (chainLengths e.ruleBases observations) k)
    (hrun : cycles observations k e = .ok settled) : settled.cycle observations = .ok settled := by
  cases k with
  | zero =>
    cases hrun
    exact cycle_of_no_ruleBases (entries_eq_nil_of_isGreatest hk)
  | succ n =>
    obtain ⟨prev, hprev, hcycle, hagree⟩ := agree_of_cycles hrun
    refine hagree.cycle_eq_self hcycle fun name hname => ?_
    rw [(frame_of_cycles hprev).2] at hname ⊢
    exact within_of_isGreatest hk hname

/-- An engine without feedback stays as it is after as many cycles as its longest chain has rule
bases, whatever the signals were at first. -/
theorem settles_of_acyclic (e : Engine α) (observations : NameMap α)
    (hacyclic : Acyclic e.ruleBases observations) :
    ∃ k, IsGreatest (chainLengths e.ruleBases observations) k ∧
      ∀ state settled, cycles observations k { e with state := state } = .ok settled →
        ∀ n, k ≤ n → cycles observations n { e with state := state } = .ok settled := by
  obtain ⟨k, hk⟩ := exists_isGreatest_chainLengths hacyclic
  refine ⟨k, hk, fun state settled hrun n hn => ?_⟩
  have hstays := cycle_of_isGreatest (e := { e with state := state }) hk hrun
  induction n, hn using Nat.le_induction with
  | base => exact hrun
  | succ n _ ih => exact cycles_succ_eq_ok_iff.2 ⟨settled, ih, hstays⟩

/-- The second rule base reads the first one and is read by it. -/
def cascade : Engine ℚ :=
  ⟨{}, .ofList [("x", slope "x"), ("y", slope "y"), ("z", slope "z")],
    .ofList [
      ("y", ⟨"y", none, [⟨"high", none, .ofList [("x", "high"), ("z", "low")]⟩,
        ⟨"low", none, .ofList [("x", "low")]⟩]⟩),
      ("z", ⟨"z", none, [⟨"high", none, .ofList [("y", "high")]⟩,
        ⟨"low", none, .ofList [("y", "low")]⟩]⟩)],
    .ofList [("y", 0)]⟩

/-- An observation of the second outcome, which breaks the circle. -/
def glimpse : NameMap ℚ := .ofList [("x", 1 / 2), ("z", 1)]

theorem feeds_of_cascade {source target : String}
    (h : Feeds cascade.ruleBases glimpse source target) : source = "y" ∧ target = "z" := by
  have hall : ∀ source ∈ cascade.ruleBases.keys, ∀ target ∈ cascade.ruleBases.keys,
      Feeds cascade.ruleBases glimpse source target → source = "y" ∧ target = "z" := by
    decide
  exact hall source (NameMap.contains_iff_mem_keys.1 h.1) target h.target_mem h

theorem acyclic_cascade : Acyclic cascade.ruleBases glimpse := by
  have hends {source target : String}
      (h : Relation.TransGen (Feeds cascade.ruleBases glimpse) source target) :
      source = "y" ∧ target = "z" := by
    induction h with
    | single h => exact feeds_of_cascade h
    | tail _ h ih => exact ⟨ih.1, (feeds_of_cascade h).2⟩
  intro name h
  obtain ⟨rfl, heq⟩ := hends h
  exact absurd heq (by decide)

theorem isGreatest_chainLengths_cascade :
    IsGreatest (chainLengths cascade.ruleBases glimpse) 2 := by
  refine ⟨⟨["y", "z"], ⟨by decide, .cons_cons (by decide) (.singleton "z")⟩, rfl⟩, ?_⟩
  rintro _ ⟨chain, hchain, rfl⟩
  exact hchain.length_le_size acyclic_cascade

def cascaded : Engine ℚ :=
  { cascade with state := .ofList [("y", 4 / 29), ("z", 256 / 390881)] }

theorem cycles_cascade : cycles glimpse 2 cascade = .ok cascaded := by
  decide +kernel

/-- An observation breaks the circle, and a chain of two rule bases settles in two cycles. -/
theorem settles_of_acyclic_cascade :
    Acyclic cascade.ruleBases glimpse ∧ ∀ n, 2 ≤ n → cycles glimpse n cascade = .ok cascaded := by
  obtain ⟨k, hk, hsettles⟩ := settles_of_acyclic cascade glimpse acyclic_cascade
  obtain rfl := hk.unique isGreatest_chainLengths_cascade
  exact ⟨acyclic_cascade, hsettles cascade.state cascaded cycles_cascade⟩

end FuzzyRules.Engine
