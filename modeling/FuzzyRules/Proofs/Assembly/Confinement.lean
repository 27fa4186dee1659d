import FuzzyRules.Proofs.Assembly.Effects
import FuzzyRules.Proofs.Assembly.InPlace
import FuzzyRules.Proofs.Engine.Additions
import FuzzyRules.Proofs.Universe.Terms

/-!
# What an action is confined to

An action that is carried out opens a draft on top of the others, fills in the innermost one, or
closes it; then the draft below it, or the engine, gains the entity, and nothing else changes. A
refused action leaves the engine and all drafts as they were, save that an action which closes a
draft has dropped the innermost one. The steps that an action is made of leave nothing else behind.
-/

namespace FuzzyRules

theorem Universe.exists_insertion {α : Type} [Scalar α] {u u' : Universe α} {t : Term α}
    (h : u.add t = .ok u') :
    (∀ s ∈ u.terms, s.name ≠ t.name) ∧ ∃ before after, u.terms = before ++ after ∧
      u' = { u with terms := before ++ t :: after } := by
  have hnew := exists_add_iff.1 ⟨u', h⟩
  rw [isSome_term?_iff] at hnew
  refine ⟨fun s hs hname => hnew ⟨s, hs, hname⟩, ?_⟩
  exact ⟨_, _, (List.take_append_drop _ u.terms).symm, add_eq_ok h⟩

theorem Rule.addPredicate_eq_ok {α : Type} {r r' : Rule} {antecedent term : String}
    (h : (r.addPredicate antecedent term : Except (ModelFault α) Rule) = .ok r') :
    ¬ r.predicates.contains antecedent = true ∧
      r' = { r with predicates := r.predicates.insert antecedent term } := by
  unfold addPredicate at h
  split at h
  · cases h
  · cases h
    exact ⟨by assumption, rfl⟩

/-- A draft before and after it gains the entity of the one above it. -/
inductive Draft.Gains : Draft → Draft → Draft → Prop
  | term {name : String} {center value : Float} {u : Universe Float}
      {before after : List (Term Float)} (new : ∀ s ∈ u.terms, s.name ≠ name)
      (terms : u.terms = before ++ after) :
      Gains (.ofTerm ⟨name, some center, some value⟩) (.ofUniverse u)
        (.ofUniverse { u with terms := before ++ ⟨name, center, value⟩ :: after })
  | predicate {antecedent term : String} {r : Rule}
      (new : ¬ r.predicates.contains antecedent = true) :
      Gains (.ofPredicate ⟨some antecedent, some term⟩) (.ofRule r)
        (.ofRule { r with predicates := r.predicates.insert antecedent term })
  | rule {r : Rule} {rb : RuleBase} (named : r.consequent ≠ "") :
      Gains (.ofRule r) (.ofRuleBase rb) (.ofRuleBase { rb with rules := rb.rules ++ [r] })

/-- An engine before and after it gains the entity of a draft. -/
inductive Engine.Gains : Draft → Engine Float → Engine Float → Prop
  | universe {u : Universe Float} {e : Engine Float} (named : u.name ≠ "")
      (new : ¬ e.universes.contains u.name = true) :
      Gains (.ofUniverse u) e { e with universes := e.universes.insert u.name u }
  | ruleBase {rb : RuleBase} {e : Engine Float} (named : rb.name ≠ "")
      (new : ¬ e.ruleBases.contains rb.name = true) :
      Gains (.ofRuleBase rb) e { e with ruleBases := e.ruleBases.insert rb.name rb }

namespace Assembly

/-- What an action that is carried out changes, by whether it opens, fills in or closes a draft. -/
structure Confined (a : AssemblyAction) (s s' : Assembly) : Prop where
  opens {k : DraftKind} (h : a.opens? = some k) :
    ∃ draft, draft.Fresh k ∧ s' = ⟨s.engine, draft :: s.drafts⟩
  fillsIn (hopens : a.opens? = none) (hcloses : a.closes? = none) :
    ∃ draft draft' below, s.drafts = draft :: below ∧ draft.Edited draft' ∧
      s' = ⟨s.engine, draft' :: below⟩
  addsBelow {k parent : DraftKind} (h : a.closes? = some k) (hparent : k.parent? = some parent) :
    ∃ draft owner owner' below, s.drafts = draft :: owner :: below ∧ draft.kind = k ∧
      owner.kind = parent ∧ draft.Gains owner owner' ∧ s' = ⟨s.engine, owner' :: below⟩
  addsToEngine {k : DraftKind} (h : a.closes? = some k) (hparent : k.parent? = none) :
    ∃ draft below engine', s.drafts = draft :: below ∧ draft.kind = k ∧
      Engine.Gains draft s.engine engine' ∧ s' = ⟨engine', below⟩

variable {s s' : Assembly} {a : AssemblyAction} {t : Token} {engine engine' : Engine Float}
  {draft draft' owner owner' : Draft} {below : List Draft}

theorem confined_of_fresh {k : DraftKind} (opens : a.opens? = some k) (fresh : draft.Fresh k) :
    Confined a s ⟨s.engine, draft :: s.drafts⟩ where
  opens h := by
    cases opens.symm.trans h
    exact ⟨draft, fresh, rfl⟩
  fillsIn hopens := nomatch opens.symm.trans hopens
  addsBelow h := by cases a <;> cases opens <;> cases h
  addsToEngine h := by cases a <;> cases opens <;> cases h

theorem confined_of_edited (opens : a.opens? = none) (closes : a.closes? = none)
    (edited : draft.Edited draft') :
    Confined a ⟨engine, draft :: below⟩ ⟨engine, draft' :: below⟩ where
  opens h := nomatch opens.symm.trans h
  fillsIn _ _ := ⟨draft, draft', below, rfl, edited, rfl⟩
  addsBelow h := nomatch closes.symm.trans h
  addsToEngine h := nomatch closes.symm.trans h

theorem confined_of_gains (opens : a.opens? = none) (closes : a.closes? = some draft.kind)
    (parent : draft.kind.parent? = some owner.kind) (gains : draft.Gains owner owner') :
    Confined a ⟨engine, draft :: owner :: below⟩ ⟨engine, owner' :: below⟩ where
  opens h := nomatch opens.symm.trans h
  fillsIn _ hcloses := nomatch closes.symm.trans hcloses
  addsBelow h hparent := by
    cases closes.symm.trans h
    cases parent.symm.trans hparent
    exact ⟨draft, owner, owner', below, rfl, rfl, rfl, gains, rfl⟩
  addsToEngine h hparent := by
    cases closes.symm.trans h
    cases parent.symm.trans hparent

theorem confined_of_engine_gains (opens : a.opens? = none) (closes : a.closes? = some draft.kind)
    (parent : draft.kind.parent? = none) (gains : Engine.Gains draft engine engine') :
    Confined a ⟨engine, draft :: below⟩ ⟨engine', below⟩ where
  opens h := nomatch opens.symm.trans h
  fillsIn _ hcloses := nomatch closes.symm.trans hcloses
  addsBelow h hparent := by
    cases closes.symm.trans h
    cases parent.symm.trans hparent
  addsToEngine h _ := by
    cases closes.symm.trans h
    exact ⟨draft, below, engine', rfl, rfl, gains, rfl⟩

theorem Effect.confined (h : Effect a s s') : Confined a s s' := by
  cases h with
  | create opens parent fresh => exact confined_of_fresh opens fresh
  | set opens closes edited => exact confined_of_edited opens closes edited
  | addTerm added =>
    obtain ⟨hnew, before, after, hterms, rfl⟩ := Universe.exists_insertion added
    exact confined_of_gains rfl rfl rfl (.term hnew hterms)
  | addUniverse named added =>
    obtain ⟨hnew, -, rfl⟩ := Engine.addUniverse_eq_ok_iff.1 added
    exact confined_of_engine_gains rfl rfl rfl (.universe named hnew)
  | addPredicate added =>
    obtain ⟨hnew, rfl⟩ := Rule.addPredicate_eq_ok added
    exact confined_of_gains rfl rfl rfl (.predicate hnew)
  | addRule named => exact confined_of_gains rfl rfl rfl (.rule named)
  | addRuleBase named added =>
    obtain ⟨hnew, rfl⟩ := Engine.addRuleBase_eq_ok_iff.1 added
    exact confined_of_engine_gains rfl rfl rfl (.ruleBase named hnew)

/-- An operation is confined to what its action is about, and a failed one has dropped a draft at
most; so it is with the steps that change the assembly in place. -/
theorem operate_confined (s : Assembly) (a : AssemblyAction) (t : Token) :
    operate a t s = operateInPlace a t s ∧
    match operate a t s with
    | (s', .ok ()) => Confined a s s'
    | (s', .error _) =>
      s'.engine = s.engine ∧ (a.closes? = none → s'.drafts = s.drafts) ∧
        ∀ k, a.closes? = some k → s'.drafts = s.drafts.tail := by
  refine ⟨by rw [operate_eq_operateInPlace], ?_⟩
  unfold operate
  cases hattempt : s.attempt a t with
  | ok s' => exact (effect_of_attempt hattempt).confined
  | error fault =>
    unfold refused
    cases hcloses : a.closes? with
    | none => exact ⟨rfl, fun _ => rfl, nofun⟩
    | some k => exact ⟨rfl, nofun, fun _ _ => rfl⟩

end Assembly

end FuzzyRules
