import FuzzyRules.Proofs.Assembly.Effects

/-!
# Nesting of drafts

A draft stands inside one of the kind that it belongs to, however an assembly is operated: in any
order, on any tokens, and with refused actions in between. So there are six ways in which drafts
can be stacked, none of them higher than three, and an action that closes a draft of its own kind
finds the one below it that it adds the entity to.
-/

namespace FuzzyRules

namespace Draft

variable {draft draft' : Draft} {k : DraftKind}

theorem Fresh.kind_eq (h : draft.Fresh k) : draft.kind = k := by
  cases h <;> rfl

theorem Edited.kind_eq (h : draft.Edited draft') : draft'.kind = draft.kind := by
  cases h <;> rfl

end Draft

namespace DraftKind

/-- Kinds, the innermost first, each of which belongs inside the next one. -/
def Nested : List DraftKind → Prop
  | [] => True
  | k :: below => below.head? = k.parent? ∧ Nested below

def nestings : List (List DraftKind) :=
  [[], [.ofUniverse], [.ofTerm, .ofUniverse], [.ofRuleBase], [.ofRule, .ofRuleBase],
    [.ofPredicate, .ofRule, .ofRuleBase]]

theorem Nested.tail {kinds : List DraftKind} (h : Nested kinds) : Nested kinds.tail := by
  cases kinds with
  | nil => trivial
  | cons k below => exact h.2

theorem cons_mem_nestings (k : DraftKind) :
    ∀ below ∈ nestings, below.head? = k.parent? → k :: below ∈ nestings := by
  cases k <;> decide

theorem Nested.mem_nestings {kinds : List DraftKind} (h : Nested kinds) : kinds ∈ nestings := by
  induction kinds with
  | nil => exact List.mem_cons_self
  | cons k below ih => exact cons_mem_nestings k below (ih h.2) h.1

theorem length_le_of_mem_nestings : ∀ kinds ∈ nestings, kinds.length ≤ 3 := by decide

end DraftKind

namespace Assembly

/-- Every draft stands inside one of the kind that it belongs to. -/
def Nested (s : Assembly) : Prop := DraftKind.Nested (s.drafts.map Draft.kind)

variable {s s' : Assembly} {a : AssemblyAction} {draft : Draft} {drafts : List Draft}

theorem head?_map_kind (drafts : List Draft) :
    (drafts.map Draft.kind).head? = topKind? drafts := List.head?_map

theorem nested_start (settings : EngineSettings) : (start settings).Nested := trivial

theorem Effect.nested (h : Effect a s s') (hs : s.Nested) : s'.Nested := by
  cases h with
  | create opens parent fresh =>
    refine ⟨?_, hs⟩
    rw [head?_map_kind, fresh.kind_eq, parent]
  | set opens closes edited =>
    refine ⟨?_, hs.2⟩
    rw [edited.kind_eq]
    exact hs.1
  | addTerm added => exact hs.2
  | addUniverse named added => exact hs.2
  | addPredicate added => exact hs.2
  | addRule named => exact hs.2
  | addRuleBase named added => exact hs.2

theorem nested_refused (hs : s.Nested) (a : AssemblyAction) : (s.refused a).Nested := by
  unfold refused
  split
  · rw [Nested, List.map_tail]
    exact DraftKind.Nested.tail hs
  · exact hs

theorem nested_operate (hs : s.Nested) (a : AssemblyAction) (t : Token) :
    (operate a t s).1.Nested := by
  unfold operate
  cases h : s.attempt a t with
  | ok s' => exact (effect_of_attempt h).nested hs
  | error fault => exact nested_refused hs a

/-- The assembly after some actions, each on its token, the refused ones among them included. -/
def operateAll (s : Assembly) (steps : List (AssemblyAction × Token)) : Assembly :=
  steps.foldl (fun s step => (operate step.1 step.2 s).1) s

theorem nested_operateAll (hs : s.Nested) (steps : List (AssemblyAction × Token)) :
    (s.operateAll steps).Nested := by
  induction steps generalizing s with
  | nil => exact hs
  | cons step rest ih => exact ih (nested_operate hs step.1 step.2)

theorem Nested.topKind?_below (h : s.Nested) (hdrafts : s.drafts = draft :: drafts) :
    topKind? drafts = draft.kind.parent? := by
  rw [Nested, hdrafts] at h
  rw [← head?_map_kind]
  exact h.1

/-- Whatever is done with an assembly, its drafts are nested in one of six ways, and what a draft of
the right kind is to be added to is open below it. -/
theorem drafts_nested (settings : EngineSettings) (steps : List (AssemblyAction × Token)) :
    let s := (start settings).operateAll steps
    s.drafts.map Draft.kind ∈ DraftKind.nestings ∧ s.depth ≤ 3 ∧
      (∀ d below, topTerm .addTerm s.drafts = .ok (d, below) →
        ∃ u rest, topUniverse .addTerm below = .ok (u, rest)) ∧
      (∀ r below, topRule .addRule s.drafts = .ok (r, below) →
        ∃ rb rest, topRuleBase .addRule below = .ok (rb, rest)) ∧
      ∀ d below, topPredicate .addPredicate s.drafts = .ok (d, below) →
        ∃ r rest, topRule .addPredicate below = .ok (r, rest) := by
  intro s
  have hnested : s.Nested := nested_operateAll (nested_start settings) steps
  have hmem := DraftKind.Nested.mem_nestings hnested
  refine ⟨hmem, ?_, ?_, ?_, ?_⟩
  · have hlength := DraftKind.length_le_of_mem_nestings _ hmem
    rwa [List.length_map] at hlength
  · intro d below htop
    exact Slot.exists_top (hnested.topKind?_below (Slot.eq_of_top htop))
  · intro r below htop
    exact Slot.exists_top (hnested.topKind?_below (Slot.eq_of_top htop))
  · intro d below htop
    exact Slot.exists_top (hnested.topKind?_below (Slot.eq_of_top htop))

end Assembly

end FuzzyRules
