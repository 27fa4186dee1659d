import FuzzyRules.Proofs.Assembly.Soundness
import FuzzyRules.Proofs.Engine.Built
import FuzzyRules.Proofs.Engine.Union
import FuzzyRules.Proofs.Phrases.Admissible

/-!
# Engines written as blocks

A universe is written with its terms in their order, a rule base with its rules in theirs and the
predicates of each rule in any order, and the blocks of an engine in any order. The blocks build
what they were written for.
-/

namespace FuzzyRules

open Traversal

/-- A description behind its keyword. -/
def Remark.written : Option String → Remark
  | none => .absent
  | some text => .marked text

@[simp] theorem Remark.text?_written (d : Option String) : (written d).text? = d := by
  cases d <;> rfl

def Predicate.entry (p : Predicate) : String × String := (p.antecedent, p.term)

structure RulePhrase.Writes (p : RulePhrase) (r : Rule) : Prop where
  consequent : p.consequent = r.consequent
  remark : p.remark = .written r.description
  predicates : (p.predicates.map Predicate.entry).Perm r.predicates.entries

structure RuleBaseBlock.Writes (b : RuleBaseBlock) (rb : RuleBase) : Prop where
  name : b.name = rb.name
  remark : b.remark = .written rb.description
  rules : List.Forall₂ RulePhrase.Writes b.rules rb.rules

def Universe.block (u : Universe Float) : UniverseBlock := ⟨u.name, u.description, u.terms⟩

/-- What a block defines. -/
abbrev Definition := Universe Float ⊕ RuleBase

inductive Block.Writes : Block → Definition → Prop
  | ofUniverse (u : Universe Float) : Writes (.ofUniverse u.block) (.inl u)
  | ofRuleBase {b : RuleBaseBlock} {rb : RuleBase} (h : b.Writes rb) :
      Writes (.ofRuleBase b) (.inr rb)

theorem Universe.Built.tidy {u : Universe Float} (h : u.Built) : u.Tidy := by
  induction h with
  | new name => exact ⟨List.nodup_nil, fun _ => .nil⟩
  | renamed _ _ ih => exact ⟨ih.distinct, ih.ascending⟩
  | described _ _ ih => exact ⟨ih.distinct, ih.ascending⟩
  | added _ hadd ih => exact ih.of_add hadd

section Universes

variable {u : Universe Float} {before after : List (Term Float)}

/-- Terms that are in order are taken in one behind the other. -/
theorem Universe.foldlM_add_of_pairwise
    (hdistinct : ((before ++ after).map Term.name).Nodup)
    (hascending : (before ++ after).Pairwise fun s t => s.center ≤ t.center) :
    after.foldlM Universe.add { u with terms := before } =
      .ok { u with terms := before ++ after } := by
  induction after generalizing before with
  | nil =>
    rw [List.append_nil]
    rfl
  | cons t after ih =>
    have hnew : ¬ (({ u with terms := before } : Universe Float).term? t.name).isSome = true := by
      rw [isSome_term?_iff]
      rintro ⟨s, hs, hname⟩
      rw [List.map_append, List.nodup_append] at hdistinct
      exact hdistinct.2.2 s.name (List.mem_map_of_mem hs) t.name (by simp) hname
    have hle : ∀ s ∈ before, s.center ≤ t.center := fun s hs =>
      (List.pairwise_append.1 hascending).2.2 s hs t List.mem_cons_self
    have hplace : place t (before ++ []) = before ++ [t] := place_append hle nofun
    rw [List.append_nil] at hplace
    have hadd : ({ u with terms := before } : Universe Float).add t =
        .ok { u with terms := before ++ [t] } := by
      rw [add, if_neg hnew, hplace]
    rw [List.append_cons] at hdistinct hascending ⊢
    exact foldlM_cons_eq_ok_iff.2 ⟨_, hadd, ih hdistinct hascending⟩

theorem Universe.build_block (hu : u.Tidy) (hnumbers : ∀ t ∈ u.terms, t.center.isNaN = false) :
    u.block.build = .ok u := by
  have hdistinct : (([] ++ u.terms).map Term.name).Nodup := hu.distinct
  exact foldlM_add_of_pairwise (u := u) hdistinct (hu.ascending hnumbers)

end Universes

section Rules

variable {p : RulePhrase} {r : Rule} {b : RuleBaseBlock} {rb : RuleBase}

theorem RulePhrase.foldlM_add_of_pairwise {ps : List Predicate}
    (hdistinct : (ps.map Predicate.antecedent).Nodup)
    (hnew : ∀ q ∈ ps, ¬ r.predicates.contains q.antecedent = true) :
    ps.foldlM RulePhrase.add r = .ok { r with
      predicates :=
        (ps.map Predicate.entry).foldl (fun m e => m.insert e.1 e.2) r.predicates } := by
  induction ps generalizing r with
  | nil => rfl
  | cons q ps ih =>
    obtain ⟨hq, hnew⟩ := List.forall_mem_cons.1 hnew
    obtain ⟨hfresh, hdistinct⟩ := List.nodup_cons.1 hdistinct
    have hadd : RulePhrase.add r q =
        .ok { r with predicates := r.predicates.insert q.antecedent q.term } := if_neg hq
    refine foldlM_cons_eq_ok_iff.2 ⟨_, hadd, ih hdistinct fun q' hq' => ?_⟩
    rw [NameMap.contains_insert, not_or]
    exact ⟨fun heq => hfresh (heq ▸ List.mem_map_of_mem hq'), hnew q' hq'⟩

theorem RulePhrase.build_of_writes (h : p.Writes r) : p.build = .ok r := by
  have hdistinct : (p.predicates.map Predicate.antecedent).Nodup := by
    have hperm := h.predicates.map Prod.fst
    rw [List.map_map] at hperm
    exact hperm.nodup_iff.2 r.predicates.nodup_keys
  have hnew : ∀ q ∈ p.predicates, ¬ ({ Rule.new p.consequent with
      description := p.remark.text? } : Rule).predicates.contains q.antecedent = true :=
    fun _ _ => Bool.false_ne_true
  have hpredicates := NameMap.ofList_of_perm h.predicates
  rw [NameMap.ofList] at hpredicates
  rw [build, foldlM_add_of_pairwise hdistinct hnew, h.consequent, h.remark, Remark.text?_written]
  change Except.ok (Rule.mk _ _ ((p.predicates.map Predicate.entry).foldl _ NameMap.empty)) = _
  rw [hpredicates]
  rfl

theorem RuleBaseBlock.foldlM_add_of_writes {ps : List RulePhrase} {rules : List Rule}
    (h : List.Forall₂ RulePhrase.Writes ps rules) :
    ps.foldlM RuleBaseBlock.add rb = .ok { rb with rules := rb.rules ++ rules } := by
  induction h generalizing rb with
  | nil =>
    rw [List.append_nil]
    rfl
  | @cons p r ps rules hp _ ih =>
    have hadd : RuleBaseBlock.add rb p = .ok (rb.addRule r) := by
      rw [RuleBaseBlock.add, RulePhrase.build_of_writes hp]
      rfl
    rw [List.append_cons]
    exact foldlM_cons_eq_ok_iff.2 ⟨_, hadd, ih⟩

theorem RuleBaseBlock.build_of_writes (h : b.Writes rb) : b.build = .ok rb := by
  rw [build, foldlM_add_of_writes h.rules, h.name, h.remark, Remark.text?_written]
  rfl

end Rules

/-- The engine with what is defined. -/
def Engine.define (e : Engine Float) : Definition → Except (ModelFault Float) (Engine Float)
  | .inl u => e.addUniverse u
  | .inr rb => e.addRuleBase rb

/-- The engine has this definition under the name. -/
def Engine.Holds (e : Engine Float) (name : String) : Definition → Prop
  | .inl u => e.universes.get? name = some u
  | .inr rb => e.ruleBases.get? name = some rb

namespace Definition

def kind : Definition → NameKind
  | .inl _ => .universeName
  | .inr _ => .ruleBaseName

def name : Definition → String
  | .inl u => u.name
  | .inr rb => rb.name

def key (d : Definition) : NameKind × String := (d.kind, d.name)

/-- A universe can be built again: its terms are in order, and they can be compared. -/
def Proper : Definition → Prop
  | .inl u => u.Tidy ∧ ∀ t ∈ u.terms, t.center.isNaN = false
  | .inr _ => True

end Definition

section Engines

variable {b : Block} {d d' : Definition} {blocks : List Block} {defs : List Definition}
  {e e' : Engine Float} {name : String}

theorem Block.Writes.add_eq (h : b.Writes d) (hd : d.Proper) : b.add e = e.define d := by
  cases h with
  | ofUniverse u =>
    rw [Block.add, u.build_block hd.1 hd.2]
    rfl
  | ofRuleBase h =>
    rw [Block.add, RuleBaseBlock.build_of_writes h]
    rfl

theorem foldlM_add_of_writes (h : List.Forall₂ Block.Writes blocks defs)
    (hdefs : ∀ d ∈ defs, d.Proper) : blocks.foldlM Block.add e = defs.foldlM Engine.define e := by
  induction h generalizing e with
  | nil => rfl
  | cons h _ ih =>
    obtain ⟨hd, hdefs⟩ := List.forall_mem_cons.1 hdefs
    rw [List.foldlM_cons, List.foldlM_cons, h.add_eq hd]
    exact bind_congr fun _ => ih hdefs

namespace Engine

theorem exists_define (hsettings : e.settings.strictMonotonic = false)
    (hnew : ¬ e.Defines d.kind d.name) : ∃ e', e.define d = .ok e' := by
  cases d with
  | inl u => exact ⟨_, addUniverse_eq_ok_iff.2 ⟨hnew, by simp [hsettings], rfl⟩⟩
  | inr rb => exact ⟨_, addRuleBase_eq_ok_iff.2 ⟨hnew, rfl⟩⟩

theorem settings_of_define (h : e.define d = .ok e') : e'.settings = e.settings := by
  cases d with
  | inl u =>
    obtain ⟨-, -, rfl⟩ := addUniverse_eq_ok_iff.1 h
    rfl
  | inr rb =>
    obtain ⟨-, rfl⟩ := addRuleBase_eq_ok_iff.1 h
    rfl

theorem defines_of_define (h : e.define d = .ok e') {kind : NameKind} :
    e'.Defines kind name ↔ e.Defines kind name ∨ kind = d.kind ∧ name = d.name := by
  cases d with
  | inl u => exact defines_of_addUniverse h
  | inr rb => exact defines_of_addRuleBase h

theorem holds_of_define (h : e.define d = .ok e') :
    e'.Holds name d' ↔ e.Holds name d' ∨ d' = d ∧ d.name = name := by
  cases d with
  | inl u =>
    cases d' with
    | inl v =>
      have hnone : e.universes.get? u.name = none :=
        Option.not_isSome_iff_eq_none.1 (addUniverse_eq_ok_iff.1 h).1
      rw [Holds, Holds, get?_universes_of_add h]
      split_ifs with hname
      · simp [hname, hnone, Definition.name, eq_comm]
      · simp [Definition.name, Ne.symm hname]
    | inr rb =>
      obtain ⟨-, -, rfl⟩ := addUniverse_eq_ok_iff.1 h
      simp [Holds]
  | inr rb =>
    cases d' with
    | inl v =>
      obtain ⟨-, rfl⟩ := addRuleBase_eq_ok_iff.1 h
      simp [Holds]
    | inr rb' =>
      have hnone : e.ruleBases.get? rb.name = none :=
        Option.not_isSome_iff_eq_none.1 (addRuleBase_eq_ok_iff.1 h).1
      rw [Holds, Holds, get?_ruleBases_of_add h]
      split_ifs with hname
      · simp [hname, hnone, Definition.name, eq_comm]
      · simp [Definition.name, Ne.symm hname]

/-- Definitions whose names are new and distinct are all taken in, and nothing else is. -/
theorem exists_foldlM_define (hsettings : e.settings.strictMonotonic = false)
    (hdistinct : (defs.map Definition.key).Nodup)
    (hnew : ∀ d ∈ defs, ¬ e.Defines d.kind d.name) :
    ∃ e', defs.foldlM define e = .ok e' ∧
      ∀ name d, e'.Holds name d ↔ e.Holds name d ∨ d ∈ defs ∧ d.name = name := by
  induction defs generalizing e with
  | nil => exact ⟨e, rfl, by simp⟩
  | cons d defs ih =>
    obtain ⟨hd, hnew⟩ := List.forall_mem_cons.1 hnew
    obtain ⟨hfresh, hdistinct⟩ := List.nodup_cons.1 hdistinct
    obtain ⟨e₁, he₁⟩ := exists_define hsettings hd
    have hnew₁ : ∀ d' ∈ defs, ¬ e₁.Defines d'.kind d'.name := by
      intro d' hd'
      rw [defines_of_define he₁, not_or]
      refine ⟨hnew d' hd', ?_⟩
      rintro ⟨hkind, hname⟩
      exact hfresh (List.mem_map.2 ⟨d', hd', Prod.ext hkind hname⟩)
    obtain ⟨e', he', hholds⟩ := ih ((settings_of_define he₁).symm ▸ hsettings) hdistinct hnew₁
    refine ⟨e', foldlM_cons_eq_ok_iff.2 ⟨e₁, he₁, he'⟩, fun name d' => ?_⟩
    rw [hholds, holds_of_define he₁, List.mem_cons]
    constructor
    · rintro ((h | ⟨rfl, hname⟩) | ⟨hd', hname⟩)
      exacts [.inl h, .inr ⟨.inl rfl, hname⟩, .inr ⟨.inr hd', hname⟩]
    · rintro (h | ⟨rfl | hd', hname⟩)
      exacts [.inl (.inl h), .inl (.inr ⟨rfl, hname⟩), .inr ⟨hd', hname⟩]

/-- All that the engine defines. -/
def definitions (e : Engine Float) : List Definition :=
  e.universes.values.map .inl ++ e.ruleBases.values.map .inr

theorem Built.name_of_holds (h : e.Built) (hd : e.Holds name d) : d.name = name := by
  cases d with
  | inl u => exact (h.built_universe hd).2
  | inr rb => exact h.ruleBase_name hd

theorem Built.holds_iff (h : e.Built) : e.Holds name d ↔ d ∈ e.definitions ∧ d.name = name := by
  have hmem : d ∈ e.definitions ↔ ∃ key, e.Holds key d := by
    cases d <;> simp [definitions, NameMap.mem_values, Holds]
  rw [hmem]
  constructor
  · exact fun hd => ⟨⟨name, hd⟩, h.name_of_holds hd⟩
  · rintro ⟨⟨key, hd⟩, rfl⟩
    rwa [h.name_of_holds hd]

theorem Built.nodup_key (h : e.Built) : (e.definitions.map Definition.key).Nodup := by
  have huniverses : e.universes.values.map Universe.name = e.universes.keys := by
    rw [NameMap.values, List.map_map]
    exact List.map_congr_left fun b hb => (h.built_universe (NameMap.get?_eq_some_iff.2 hb)).2
  have hruleBases : e.ruleBases.values.map RuleBase.name = e.ruleBases.keys := by
    rw [NameMap.values, List.map_map]
    exact List.map_congr_left fun b hb => h.ruleBase_name (NameMap.get?_eq_some_iff.2 hb)
  have hkeys : e.definitions.map Definition.key =
      e.universes.keys.map (Prod.mk NameKind.universeName) ++
        e.ruleBases.keys.map (Prod.mk NameKind.ruleBaseName) := by
    rw [← huniverses, ← hruleBases, definitions]
    simp [Function.comp_def, Definition.key, Definition.kind, Definition.name]
  rw [hkeys, List.nodup_append]
  have hinjective (kind : NameKind) : Function.Injective fun name : String => (kind, name) :=
    fun _ _ heq => (Prod.mk.inj heq).2
  refine ⟨e.universes.nodup_keys.map (hinjective _), e.ruleBases.nodup_keys.map (hinjective _), ?_⟩
  intro a ha b hb
  obtain ⟨name, -, rfl⟩ := List.mem_map.1 ha
  obtain ⟨name', -, rfl⟩ := List.mem_map.1 hb
  simp

theorem Built.proper (h : e.Built)
    (hnumbers : ∀ u ∈ e.universes.values, ∀ t ∈ u.terms, t.center.isNaN = false) :
    ∀ d ∈ e.definitions, d.Proper := by
  intro d hd
  cases d with
  | inr rb => trivial
  | inl u =>
    have hu : u ∈ e.universes.values := by simpa [definitions] using hd
    obtain ⟨name, hname⟩ := NameMap.mem_values.1 hu
    exact ⟨(h.built_universe hname).1.tidy, hnumbers u hu⟩

theorem buildBlocks_of_writes (h : e.Built)
    (hnumbers : ∀ u ∈ e.universes.values, ∀ t ∈ u.terms, t.center.isNaN = false)
    {settings : EngineSettings} (hsettings : settings.strictMonotonic = false)
    (horder : defs.Perm e.definitions) (hblocks : List.Forall₂ Block.Writes blocks defs) :
    ∃ e', buildBlocks settings blocks = .ok e' ∧ e'.universes = e.universes ∧
      e'.ruleBases = e.ruleBases := by
  have hdefs : ∀ d ∈ defs, d.Proper := fun d hd => h.proper hnumbers d (horder.mem_iff.1 hd)
  have hdistinct : (defs.map Definition.key).Nodup :=
    (horder.map Definition.key).nodup_iff.2 h.nodup_key
  have hnew : ∀ d ∈ defs, ¬ (Engine.new settings : Engine Float).Defines d.kind d.name := by
    intro d _
    cases d <;> exact Bool.false_ne_true
  obtain ⟨e', he', hholds⟩ := exists_foldlM_define hsettings hdistinct hnew
  have hsame (name : String) (d : Definition) : e'.Holds name d ↔ e.Holds name d := by
    have hempty : ¬ (Engine.new settings : Engine Float).Holds name d := by
      cases d <;> exact nofun
    rw [hholds, h.holds_iff, horder.mem_iff]
    exact or_iff_right hempty
  refine ⟨e', (foldlM_add_of_writes hblocks hdefs).trans he', ?_, ?_⟩
  · exact NameMap.ext_get? fun name => Option.ext fun u => hsame name (.inl u)
  · exact NameMap.ext_get? fun name => Option.ext fun rb => hsame name (.inr rb)

end Engine

end Engines

end FuzzyRules
