import Mathlib.Data.List.Nodup
import FuzzyRules.Proofs.Engine.Additions
import FuzzyRules.Proofs.NameMap.Overlay
import FuzzyRules.Proofs.Phrases.Syntax

/-!
# Admissible models

Blocks build an engine exactly if no two of them take the same name, no universe has two terms and
no rule two predicates of one name, and, where this is asked for, every universe has one trend.
-/

namespace FuzzyRules

open Traversal

namespace UniverseBlock

theorem exists_build_iff {b : UniverseBlock} :
    (∃ u, b.build = .ok u) ↔ (b.terms.map Term.name).Nodup := by
  rw [build, Universe.exists_foldlM_add_iff]
  simp [Universe.isSome_term?_iff, Universe.new]

end UniverseBlock

namespace RulePhrase

variable {r r' : Rule} {p : Predicate}

theorem exists_add_iff :
    (∃ r', add r p = .ok r') ↔ ¬ r.predicates.contains p.antecedent = true := by
  unfold add Rule.addPredicate
  split_ifs with h <;> simp [h]

theorem contains_of_add (h : add r p = .ok r') (name : String) :
    r'.predicates.contains name = true ↔
      name = p.antecedent ∨ r.predicates.contains name = true := by
  unfold add Rule.addPredicate at h
  split_ifs at h
  cases h
  exact NameMap.contains_insert

theorem takes_add : Takes add Predicate.antecedent (fun _ => True)
    (fun r name => r.predicates.contains name = true) (fun _ => True) where
  succeeds _ := by rw [exists_add_iff, true_and]
  keeps _ _ := trivial
  names _ h _ := contains_of_add h _

theorem exists_build_iff {r : RulePhrase} :
    (∃ r', r.build = .ok r') ↔ (r.predicates.map Predicate.antecedent).Nodup := by
  rw [build, takes_add.exists_foldlM_iff trivial]
  simp [NameMap.contains, Rule.new]

end RulePhrase

namespace RuleBaseBlock

theorem exists_foldlM_add_iff {rules : List RulePhrase} {rb : RuleBase} :
    (∃ rb', rules.foldlM add rb = .ok rb') ↔ ∀ r ∈ rules, ∃ r', r.build = .ok r' := by
  induction rules generalizing rb with
  | nil => simpa using ⟨rb, rfl⟩
  | cons r rules ih =>
    simp only [foldlM_cons_eq_ok_iff, List.forall_mem_cons]
    constructor
    · rintro ⟨rb', rb₁, hadd, hrest⟩
      obtain ⟨r', hbuild, -⟩ := map_eq_ok_iff.1 hadd
      exact ⟨⟨r', hbuild⟩, ih.1 ⟨rb', hrest⟩⟩
    · rintro ⟨⟨r', hbuild⟩, hrules⟩
      obtain ⟨rb', hrest⟩ := ih.2 hrules
      exact ⟨rb', _, map_eq_ok_iff.2 ⟨r', hbuild, rfl⟩, hrest⟩

theorem exists_build_iff {b : RuleBaseBlock} :
    (∃ rb, b.build = .ok rb) ↔
      ∀ r ∈ b.rules, (r.predicates.map Predicate.antecedent).Nodup := by
  simp only [build, exists_foldlM_add_iff, RulePhrase.exists_build_iff]

end RuleBaseBlock

namespace Block

/-- The kind and the name of what a block defines. -/
def key : Block → String ⊕ String
  | .ofUniverse b => .inl b.name
  | .ofRuleBase b => .inr b.name

/-- The names are taken that an engine has a universe or a rule base for. -/
def Taken (e : Engine Float) : String ⊕ String → Prop
  | .inl name => e.universes.contains name = true
  | .inr name => e.ruleBases.contains name = true

/-- The block can be built and added where its name is not taken. -/
def Sound (settings : EngineSettings) : Block → Prop
  | .ofUniverse b => (b.terms.map Term.name).Nodup ∧
      (settings.strictMonotonic = true → ∀ u, b.build = .ok u → u.checkTrend = .ok ())
  | .ofRuleBase b => ∀ r ∈ b.rules, (r.predicates.map Predicate.antecedent).Nodup

variable {settings : EngineSettings} {e e' : Engine Float} {b : Block}

theorem exists_add_iff (he : e.settings = settings) :
    (∃ e', add e b = .ok e') ↔ b.Sound settings ∧ ¬ Taken e b.key := by
  cases b with
  | ofUniverse b =>
    simp only [add, bind_eq_ok_iff, Engine.addUniverse_eq_ok_iff, Sound, key, Taken, he,
      ← UniverseBlock.exists_build_iff]
    constructor
    · rintro ⟨_, u, hbuild, hnew, htrend, -⟩
      rw [UniverseBlock.name_of_build hbuild] at hnew
      refine ⟨⟨⟨u, hbuild⟩, fun hstrict u' hbuild' => ?_⟩, hnew⟩
      cases hbuild.symm.trans hbuild'
      exact htrend hstrict
    · rintro ⟨⟨⟨u, hbuild⟩, htrend⟩, hnew⟩
      rw [← UniverseBlock.name_of_build hbuild] at hnew
      exact ⟨_, u, hbuild, hnew, fun hstrict => htrend hstrict u hbuild, rfl⟩
  | ofRuleBase b =>
    simp only [add, bind_eq_ok_iff, Engine.addRuleBase_eq_ok_iff, Sound, key, Taken,
      ← RuleBaseBlock.exists_build_iff]
    constructor
    · rintro ⟨_, rb, hbuild, hnew, -⟩
      rw [RuleBaseBlock.name_of_build hbuild] at hnew
      exact ⟨⟨rb, hbuild⟩, hnew⟩
    · rintro ⟨⟨rb, hbuild⟩, hnew⟩
      rw [← RuleBaseBlock.name_of_build hbuild] at hnew
      exact ⟨_, rb, hbuild, hnew, rfl⟩

theorem settings_of_add (h : add e b = .ok e') : e'.settings = e.settings := by
  cases b with
  | ofUniverse b =>
    obtain ⟨u, -, hadd⟩ := bind_eq_ok_iff.1 h
    obtain ⟨-, -, rfl⟩ := Engine.addUniverse_eq_ok_iff.1 hadd
    rfl
  | ofRuleBase b =>
    obtain ⟨rb, -, hadd⟩ := bind_eq_ok_iff.1 h
    obtain ⟨-, rfl⟩ := Engine.addRuleBase_eq_ok_iff.1 hadd
    rfl

theorem state_of_add (h : add e b = .ok e') : e'.state = e.state := by
  cases b with
  | ofUniverse b =>
    obtain ⟨u, -, hadd⟩ := bind_eq_ok_iff.1 h
    obtain ⟨-, -, rfl⟩ := Engine.addUniverse_eq_ok_iff.1 hadd
    rfl
  | ofRuleBase b =>
    obtain ⟨rb, -, hadd⟩ := bind_eq_ok_iff.1 h
    obtain ⟨-, rfl⟩ := Engine.addRuleBase_eq_ok_iff.1 hadd
    rfl

theorem taken_of_add (h : add e b = .ok e') (k : String ⊕ String) :
    Taken e' k ↔ k = b.key ∨ Taken e k := by
  cases b with
  | ofUniverse b =>
    obtain ⟨u, hbuild, hadd⟩ := bind_eq_ok_iff.1 h
    obtain ⟨-, -, rfl⟩ := Engine.addUniverse_eq_ok_iff.1 hadd
    have hname := UniverseBlock.name_of_build hbuild
    cases k <;> simp [Taken, key, NameMap.contains_insert, hname]
  | ofRuleBase b =>
    obtain ⟨rb, hbuild, hadd⟩ := bind_eq_ok_iff.1 h
    obtain ⟨-, rfl⟩ := Engine.addRuleBase_eq_ok_iff.1 hadd
    have hname := RuleBaseBlock.name_of_build hbuild
    cases k <;> simp [Taken, key, NameMap.contains_insert, hname]

theorem takes_add (settings : EngineSettings) :
    Takes add key (fun e => e.settings = settings) Taken (Sound settings) where
  succeeds := exists_add_iff
  keeps he h := (settings_of_add h).trans he
  names _ h := taken_of_add h

end Block

def universeBlocks (blocks : List Block) : List UniverseBlock :=
  blocks.filterMap fun
    | .ofUniverse b => some b
    | .ofRuleBase _ => none

def ruleBaseBlocks (blocks : List Block) : List RuleBaseBlock :=
  blocks.filterMap fun
    | .ofUniverse _ => none
    | .ofRuleBase b => some b

theorem mem_universeBlocks {blocks : List Block} {b : UniverseBlock} :
    b ∈ universeBlocks blocks ↔ .ofUniverse b ∈ blocks := by
  rw [universeBlocks, List.mem_filterMap]
  constructor
  · rintro ⟨_ | _, hmem, h⟩ <;> cases h
    exact hmem
  · exact fun hmem => ⟨_, hmem, rfl⟩

theorem mem_ruleBaseBlocks {blocks : List Block} {b : RuleBaseBlock} :
    b ∈ ruleBaseBlocks blocks ↔ .ofRuleBase b ∈ blocks := by
  rw [ruleBaseBlocks, List.mem_filterMap]
  constructor
  · rintro ⟨_ | _, hmem, h⟩ <;> cases h
    exact hmem
  · exact fun hmem => ⟨_, hmem, rfl⟩

theorem forall_block_iff {P : Block → Prop} {blocks : List Block} :
    (∀ b ∈ blocks, P b) ↔ (∀ b ∈ universeBlocks blocks, P (.ofUniverse b)) ∧
      ∀ b ∈ ruleBaseBlocks blocks, P (.ofRuleBase b) := by
  simp only [mem_universeBlocks, mem_ruleBaseBlocks]
  constructor
  · exact fun h => ⟨fun b hb => h _ hb, fun b hb => h _ hb⟩
  · rintro ⟨huniverse, hruleBase⟩ (b | b) hb
    · exact huniverse b hb
    · exact hruleBase b hb

theorem nodup_sum_iff {α β : Type} {l : List (α ⊕ β)} :
    l.Nodup ↔ (l.filterMap Sum.getLeft?).Nodup ∧ (l.filterMap Sum.getRight?).Nodup := by
  induction l with
  | nil => simp
  | cons a l ih => cases a <;> simp [List.filterMap_cons, ih, and_assoc, and_left_comm]

theorem nodup_key_iff {blocks : List Block} : (blocks.map Block.key).Nodup ↔
    ((universeBlocks blocks).map UniverseBlock.name).Nodup ∧
      ((ruleBaseBlocks blocks).map RuleBaseBlock.name).Nodup := by
  have hleft : (blocks.map Block.key).filterMap Sum.getLeft? =
      (universeBlocks blocks).map UniverseBlock.name := by
    rw [List.filterMap_map, universeBlocks, List.map_filterMap]
    exact List.filterMap_congr fun b _ => by cases b <;> rfl
  have hright : (blocks.map Block.key).filterMap Sum.getRight? =
      (ruleBaseBlocks blocks).map RuleBaseBlock.name := by
    rw [List.filterMap_map, ruleBaseBlocks, List.map_filterMap]
    exact List.filterMap_congr fun b _ => by cases b <;> rfl
  rw [nodup_sum_iff, hleft, hright]

/-- What blocks must satisfy beyond their syntax. -/
structure Admissible (settings : EngineSettings) (blocks : List Block) : Prop where
  universe_named : ∀ b ∈ universeBlocks blocks, b.name ≠ ""
  ruleBase_named : ∀ b ∈ ruleBaseBlocks blocks, b.name ≠ ""
  rule_named : ∀ b ∈ ruleBaseBlocks blocks, ∀ r ∈ b.rules, r.consequent ≠ ""
  universes_distinct : ((universeBlocks blocks).map UniverseBlock.name).Nodup
  ruleBases_distinct : ((ruleBaseBlocks blocks).map RuleBaseBlock.name).Nodup
  terms_distinct : ∀ b ∈ universeBlocks blocks, (b.terms.map Term.name).Nodup
  antecedents_distinct : ∀ b ∈ ruleBaseBlocks blocks, ∀ r ∈ b.rules,
    (r.predicates.map Predicate.antecedent).Nodup
  trend : settings.strictMonotonic = true →
    ∀ b ∈ universeBlocks blocks, ∀ u, b.build = .ok u → u.checkTrend = .ok ()

/-- Blocks with all their names build an engine exactly if they are admissible. -/
theorem admissible_iff {settings : EngineSettings} {blocks : List Block} :
    Admissible settings blocks ↔
      (∀ b ∈ blocks, b.Named) ∧ ∃ e, buildBlocks settings blocks = .ok e := by
  have hnew : ∀ b ∈ blocks, ¬ Block.Taken (Engine.new settings) b.key := by
    intro b _
    cases b <;> exact Bool.false_ne_true
  rw [buildBlocks, (Block.takes_add settings).exists_foldlM_iff rfl, nodup_key_iff,
    forall_block_iff, forall_block_iff]
  constructor
  · intro h
    exact ⟨⟨h.universe_named, fun b hb => ⟨h.ruleBase_named b hb, h.rule_named b hb⟩⟩,
      ⟨fun b hb => ⟨h.terms_distinct b hb, fun hstrict => h.trend hstrict b hb⟩,
        h.antecedents_distinct⟩, ⟨h.universes_distinct, h.ruleBases_distinct⟩, hnew⟩
  · rintro ⟨⟨huniverse, hruleBase⟩, ⟨hterms, hantecedents⟩, ⟨huniverses, hruleBases⟩, -⟩
    exact {
      universe_named := huniverse
      ruleBase_named := fun b hb => (hruleBase b hb).1
      rule_named := fun b hb => (hruleBase b hb).2
      universes_distinct := huniverses
      ruleBases_distinct := hruleBases
      terms_distinct := fun b hb => (hterms b hb).1
      antecedents_distinct := hantecedents
      trend := fun hstrict b hb => (hterms b hb).2 hstrict }

end FuzzyRules
