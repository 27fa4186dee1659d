import FuzzyRules.Assembly.Basic

/-!
# Closing drafts

When an action that closes a draft is not refused, it has added the draft to what it belongs to, and
the draft was complete.
-/

namespace FuzzyRules.Assembly

variable {engine : Engine Float} {below : List Draft} {t : Token} {s s' : Assembly}

theorem perform_cons_iff {a : AssemblyAction} {as : List AssemblyAction} :
    Run.perform operate t (a :: as) s = (s', .ok ()) ↔
      ∃ s₁, s.attempt a t = .ok s₁ ∧ Run.perform operate t as s₁ = (s', .ok ()) := by
  cases h : s.attempt a t <;> simp [Run.perform, operate, h]

theorem perform_of_attempt {a : AssemblyAction} {as : List AssemblyAction} {s₁ : Assembly}
    (h : s.attempt a t = .ok s₁) :
    Run.perform operate t (a :: as) s = (s', .ok ()) ↔
      Run.perform operate t as s₁ = (s', .ok ()) := by
  simp [perform_cons_iff, h]

theorem perform_singleton_iff {a : AssemblyAction} :
    Run.perform operate t [a] s = (s', .ok ()) ↔ s.attempt a t = .ok s' := by
  simp [perform_cons_iff]

theorem perform_addTerm_iff {u : Universe Float} {name : String} {center value : Float} :
    Run.perform operate (.number value) [.setValue, .addTerm]
        ⟨engine, .ofTerm ⟨name, some center, none⟩ :: .ofUniverse u :: below⟩ = (s', .ok ()) ↔
      ∃ u', u.add ⟨name, center, value⟩ = .ok u' ∧ s' = ⟨engine, .ofUniverse u' :: below⟩ := by
  rw [perform_of_attempt rfl, perform_singleton_iff]
  cases h : u.add ⟨name, center, value⟩ <;>
    simp [attempt, Slot.top, addTerm, Slot.ofTerm, Slot.ofUniverse, orModelFault, h, bind,
      Except.bind, pure, Except.pure, eq_comm]

theorem perform_addUniverse_iff {u : Universe Float} :
    Run.perform operate t [.addUniverse] ⟨engine, .ofUniverse u :: below⟩ = (s', .ok ()) ↔
      u.name ≠ "" ∧ ∃ engine', engine.addUniverse u = .ok engine' ∧ s' = ⟨engine', below⟩ := by
  rw [perform_singleton_iff]
  by_cases hname : u.name = ""
  · simp [attempt, Slot.top, addUniverse, Slot.ofUniverse, hname, bind, Except.bind]
  · cases h : engine.addUniverse u <;>
      simp [attempt, Slot.top, addUniverse, Slot.ofUniverse, orModelFault, hname, h, bind,
        Except.bind, pure, Except.pure, eq_comm]

theorem perform_addPredicate_iff {r : Rule} {antecedent term : String} :
    Run.perform operate (.text term) [.setPredicateValue, .addPredicate]
        ⟨engine, .ofPredicate ⟨some antecedent, none⟩ :: .ofRule r :: below⟩ = (s', .ok ()) ↔
      ∃ r', (r.addPredicate antecedent term : Except (ModelFault Float) Rule) = .ok r' ∧
        s' = ⟨engine, .ofRule r' :: below⟩ := by
  rw [perform_of_attempt rfl, perform_singleton_iff]
  cases h : (r.addPredicate antecedent term : Except (ModelFault Float) Rule) <;>
    simp [attempt, Slot.top, addPredicate, Slot.ofPredicate, Slot.ofRule, orModelFault, h, bind,
      Except.bind, pure, Except.pure, eq_comm]

theorem perform_addRule_iff {r : Rule} {rb : RuleBase} :
    Run.perform operate t [.addRule] ⟨engine, .ofRule r :: .ofRuleBase rb :: below⟩ =
        (s', .ok ()) ↔
      r.consequent ≠ "" ∧ s' = ⟨engine, .ofRuleBase (rb.addRule r) :: below⟩ := by
  rw [perform_singleton_iff]
  by_cases hname : r.consequent = "" <;>
    simp [attempt, Slot.top, addRule, Slot.ofRule, Slot.ofRuleBase, hname, bind, Except.bind, pure,
      Except.pure, eq_comm]

theorem perform_addRuleBase_iff {rb : RuleBase} :
    Run.perform operate t [.addRuleBase] ⟨engine, .ofRuleBase rb :: below⟩ = (s', .ok ()) ↔
      rb.name ≠ "" ∧ ∃ engine', engine.addRuleBase rb = .ok engine' ∧ s' = ⟨engine', below⟩ := by
  rw [perform_singleton_iff]
  by_cases hname : rb.name = ""
  · simp [attempt, Slot.top, addRuleBase, Slot.ofRuleBase, hname, bind, Except.bind]
  · cases h : engine.addRuleBase rb <;>
      simp [attempt, Slot.top, addRuleBase, Slot.ofRuleBase, orModelFault, hname, h, bind,
        Except.bind, pure, Except.pure, eq_comm]

theorem finish_eq_ok {e : Engine Float} (h : s.finish t = .ok e) : s = ⟨e, []⟩ := by
  obtain ⟨engine, drafts⟩ := s
  cases drafts with
  | nil =>
    cases h
    rfl
  | cons draft below => cases h

end FuzzyRules.Assembly
