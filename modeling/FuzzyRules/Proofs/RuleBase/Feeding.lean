import Mathlib.Algebra.Order.Group.Nat
import Mathlib.Data.List.Chain
import Mathlib.Data.List.Perm.Subperm
import Mathlib.Logic.Relation
import Mathlib.Order.ConditionallyCompleteLattice.Basic
import Mathlib.Order.Lattice.Nat
import FuzzyRules.Proofs.NameMap.Overlay
import FuzzyRules.Proofs.RuleBase.Locality

/-!
# Chains of rule bases

A rule base feeds another one that reads its outcome, unless the outcome is hidden by an
observation. If no rule base feeds itself on a detour there is a longest chain, and the level of
every rule base is at most the length of it.
-/

namespace FuzzyRules.RuleBase

variable {α : Type} {ruleBases : NameMap RuleBase} {observations : NameMap α} {name : String}
  {chain : List String} {n k : Nat}

/-- One rule base names another one, and no observation stands in the place of its outcome. -/
def Feeds (ruleBases : NameMap RuleBase) (observations : NameMap α) (source target : String) :
    Prop :=
  ruleBases.contains source = true ∧ observations.contains source = false ∧
    ∃ rb, ruleBases.get? target = some rb ∧ rb.Names source

instance (source target : String) : Decidable (Feeds ruleBases observations source target) :=
  have : Decidable (∃ rb ∈ ruleBases.get? target, rb.Names source) := inferInstance
  inferInstanceAs (Decidable (_ ∧ _ ∧ ∃ rb ∈ ruleBases.get? target, rb.Names source))

theorem Feeds.target_mem {source target : String}
    (h : Feeds ruleBases observations source target) : target ∈ ruleBases.keys := by
  obtain ⟨-, -, rb, hrb, -⟩ := h
  exact NameMap.contains_iff_mem_keys.1 (NameMap.contains_of_get? hrb)

/-- Rule bases each of which feeds the next one. -/
structure FeedChain (ruleBases : NameMap RuleBase) (observations : NameMap α)
    (chain : List String) : Prop where
  members : ∀ name ∈ chain, ruleBases.contains name = true
  feeds : chain.IsChain (Feeds ruleBases observations)

def chainLengths (ruleBases : NameMap RuleBase) (observations : NameMap α) : Set Nat :=
  {n | ∃ chain, FeedChain ruleBases observations chain ∧ chain.length = n}

/-- No rule base feeds itself, neither directly nor through others. -/
def Acyclic (ruleBases : NameMap RuleBase) (observations : NameMap α) : Prop :=
  ∀ name, ¬ Relation.TransGen (Feeds ruleBases observations) name name

/-- All chains that end in the rule base have at most this length. -/
def Within (ruleBases : NameMap RuleBase) (observations : NameMap α) : Nat → String → Prop
  | 0, _ => False
  | n + 1, target => ∀ source, Feeds ruleBases observations source target →
      Within ruleBases observations n source

theorem FeedChain.nodup (h : FeedChain ruleBases observations chain)
    (hacyclic : Acyclic ruleBases observations) : chain.Nodup := by
  have hpairwise := (h.feeds.imp fun _ _ => Relation.TransGen.single).pairwise
  refine hpairwise.imp ?_
  rintro a _ hab rfl
  exact hacyclic a hab

theorem FeedChain.length_le_size (h : FeedChain ruleBases observations chain)
    (hacyclic : Acyclic ruleBases observations) : chain.length ≤ ruleBases.size := by
  have hsubset : chain ⊆ ruleBases.keys := by
    intro name hname
    exact NameMap.contains_iff_mem_keys.1 (h.members name hname)
  rw [← NameMap.length_keys]
  exact (List.subperm_of_subset (h.nodup hacyclic) hsubset).length_le

/-- Without a circle there is a longest chain. -/
theorem exists_isGreatest_chainLengths (hacyclic : Acyclic ruleBases observations) :
    ∃ k, IsGreatest (chainLengths ruleBases observations) k := by
  have hempty : FeedChain ruleBases observations [] := ⟨by simp, .nil⟩
  have hnonempty : (chainLengths ruleBases observations).Nonempty := ⟨0, [], hempty, rfl⟩
  have hbounded : BddAbove (chainLengths ruleBases observations) := by
    refine ⟨ruleBases.size, ?_⟩
    rintro _ ⟨chain, hchain, rfl⟩
    exact hchain.length_le_size hacyclic
  exact ⟨_, Nat.sSup_mem hnonempty hbounded, fun n hn => le_csSup hbounded hn⟩

theorem exists_chain_of_not_within (hname : ruleBases.contains name = true)
    (h : ¬ Within ruleBases observations n name) :
    ∃ chain, FeedChain ruleBases observations (chain ++ [name]) ∧ chain.length = n := by
  induction n generalizing name with
  | zero => exact ⟨[], ⟨by simpa using hname, .singleton name⟩, rfl⟩
  | succ n ih =>
    -- something that feeds it is above the level below, and ends a chain of its own
    simp only [Within, not_forall] at h
    obtain ⟨source, hfeeds, hsource⟩ := h
    obtain ⟨chain, hchain, rfl⟩ := ih hfeeds.1 hsource
    refine ⟨chain ++ [source], ⟨?_, ?_⟩, by simp⟩
    · intro other hother
      rcases List.mem_append.1 hother with hother | hother
      · exact hchain.members other hother
      · rwa [List.mem_singleton.1 hother]
    · refine hchain.feeds.append (.singleton name) ?_
      simpa using hfeeds

theorem within_of_isGreatest (hk : IsGreatest (chainLengths ruleBases observations) k)
    (hname : ruleBases.contains name = true) : Within ruleBases observations k name := by
  by_contra h
  obtain ⟨chain, hchain, rfl⟩ := exists_chain_of_not_within hname h
  have hle := hk.2 ⟨_, hchain, rfl⟩
  simp at hle

theorem entries_eq_nil_of_isGreatest (h : IsGreatest (chainLengths ruleBases observations) 0) :
    ruleBases.entries = [] := by
  rw [List.eq_nil_iff_forall_not_mem]
  rintro ⟨name, rb⟩ hmem
  exact within_of_isGreatest h (NameMap.contains_of_get? (NameMap.get?_eq_some_iff.2 hmem))

end FuzzyRules.RuleBase
