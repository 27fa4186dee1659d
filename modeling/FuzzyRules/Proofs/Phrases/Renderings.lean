import FuzzyRules.Proofs.Phrases.Models
import FuzzyRules.Proofs.Phrases.Writing
import FuzzyRules.Proofs.Words.Layout
import FuzzyRules.Proofs.Words.Literals

/-!
# Renderings of engines

An engine is rendered as blocks whose tokens are laid out as a text. If all names that the language
asks for are there and all numbers are finite, the engine has a rendering, and every one of its
renderings compiles to the same universes and rule bases.
-/

namespace FuzzyRules

namespace Engine

/-- The text writes the universes and the rule bases of the engine, in some order. -/
def Renders (e : Engine Float) (source : String) : Prop :=
  ∃ defs blocks, defs.Perm e.definitions ∧ List.Forall₂ Block.Writes blocks defs ∧
    Laid (blocks.flatMap Block.tokens) source.toList

/-- What the language needs of an engine. -/
structure Expressible (e : Engine Float) : Prop where
  universe_named : ∀ u ∈ e.universes.values, u.name ≠ ""
  ruleBase_named : ∀ rb ∈ e.ruleBases.values, rb.name ≠ ""
  consequent_named : ∀ rb ∈ e.ruleBases.values, ∀ r ∈ rb.rules, r.consequent ≠ ""
  predicates : ∀ rb ∈ e.ruleBases.values, ∀ r ∈ rb.rules, r.predicates.entries ≠ []
  finite : ∀ u ∈ e.universes.values, ∀ t ∈ u.terms,
    t.center.isFinite = true ∧ t.value.isFinite = true

end Engine

section Tokens

/-- The words of the language. -/
def keywords : List String :=
  ["universe", "rulebase", "description", "rule", "when", "is", "and", "end"]

/-- The numbers that a block is written with. -/
def Block.numbers : Block → List Float
  | .ofUniverse b => b.terms.flatMap fun t => [t.center, t.value]
  | .ofRuleBase _ => []

variable {P : Token → Prop} (hkeyword : ∀ word ∈ keywords, P (.keyword word))
  (htext : ∀ content, P (.text content))

include hkeyword htext

theorem forall_mem_describing (d : Option String) : ∀ t ∈ describing d, P t := by
  cases d <;> simp [describing, htext, hkeyword "description" (by decide)]

theorem Remark.forall_mem_tokens (r : Remark) : ∀ t ∈ r.tokens, P t := by
  cases r <;> simp [tokens, htext, hkeyword "description" (by decide)]

theorem Predicate.forall_mem_tokens (p : Predicate) : ∀ t ∈ p.tokens, P t := by
  simp [tokens, htext, hkeyword "is" (by decide)]

theorem RulePhrase.forall_mem_tokens (r : RulePhrase) : ∀ t ∈ r.tokens, P t := by
  have hothers : ∀ t ∈ r.others.flatMap fun p => .keyword "and" :: p.tokens, P t := by
    intro t ht
    obtain ⟨p, -, ht⟩ := List.mem_flatMap.1 ht
    rcases List.mem_cons.1 ht with rfl | ht
    · exact hkeyword "and" (by decide)
    · exact p.forall_mem_tokens hkeyword htext t ht
  simp only [tokens, body, List.cons_append, List.forall_mem_cons, List.forall_mem_append]
  exact ⟨hkeyword "rule" (by decide), htext _,
    ⟨⟨r.remark.forall_mem_tokens hkeyword htext, hkeyword "when" (by decide),
      r.first.forall_mem_tokens hkeyword htext⟩, hothers⟩, hkeyword "end" (by decide),
    List.forall_mem_nil _⟩

/-- A property of all tokens that a block is written with. -/
theorem Block.forall_mem_tokens (b : Block) (hnumber : ∀ x ∈ b.numbers, P (.number x)) :
    ∀ t ∈ b.tokens, P t := by
  cases b with
  | ofUniverse b =>
    have hterms : ∀ t ∈ b.terms.flatMap Term.tokens, P t := by
      intro t ht
      obtain ⟨s, hs, ht⟩ := List.mem_flatMap.1 ht
      have hcenter := hnumber s.center (List.mem_flatMap.2 ⟨s, hs, by simp⟩)
      have hvalue := hnumber s.value (List.mem_flatMap.2 ⟨s, hs, by simp⟩)
      simp only [Term.tokens, List.mem_cons, List.not_mem_nil, or_false] at ht
      rcases ht with rfl | rfl | rfl
      exacts [htext _, hcenter, hvalue]
    simp only [tokens, UniverseBlock.body, List.cons_append, List.forall_mem_cons,
      List.forall_mem_append]
    exact ⟨hkeyword "universe" (by decide), htext _,
      ⟨forall_mem_describing hkeyword htext _, hterms⟩, hkeyword "end" (by decide),
      List.forall_mem_nil _⟩
  | ofRuleBase b =>
    have hrules : ∀ t ∈ b.rules.flatMap RulePhrase.tokens, P t := by
      intro t ht
      obtain ⟨r, -, ht⟩ := List.mem_flatMap.1 ht
      exact r.forall_mem_tokens hkeyword htext t ht
    simp only [tokens, RuleBaseBlock.body, List.cons_append, List.forall_mem_cons,
      List.forall_mem_append]
    exact ⟨hkeyword "rulebase" (by decide), htext _,
      ⟨b.remark.forall_mem_tokens hkeyword htext, hrules⟩, hkeyword "end" (by decide),
      List.forall_mem_nil _⟩

end Tokens

variable {e : Engine Float}

theorem literate_of_mem_tokens (b : Block) : ∀ t ∈ b.tokens, t.Literate :=
  b.forall_mem_tokens (by decide +kernel) (fun _ => trivial) fun _ _ => trivial

theorem named_of_writes (he : e.Expressible) {b : Block} {d : Definition} (h : b.Writes d)
    (hd : d ∈ e.definitions) : b.Named := by
  cases h with
  | ofUniverse u => exact he.universe_named u (by simpa [Engine.definitions] using hd)
  | @ofRuleBase b rb h =>
    have hrb : rb ∈ e.ruleBases.values := by simpa [Engine.definitions] using hd
    refine ⟨h.name ▸ he.ruleBase_named rb hrb, fun p hp => ?_⟩
    obtain ⟨r, hr, hwrites⟩ := Traversal.exists_of_mem_left h.rules hp
    exact hwrites.consequent ▸ he.consequent_named rb hrb r hr

theorem exists_writes_rule {r : Rule} (h : r.predicates.entries ≠ []) :
    ∃ p : RulePhrase, p.Writes r := by
  obtain ⟨first, others, hentries⟩ := List.exists_cons_of_ne_nil h
  refine ⟨⟨r.consequent, .written r.description, ⟨first.1, first.2⟩,
    others.map fun e => ⟨e.1, e.2⟩⟩, rfl, rfl, ?_⟩
  simp [RulePhrase.predicates, Function.comp_def, Predicate.entry, hentries]

theorem exists_writes (he : e.Expressible) {d : Definition} (hd : d ∈ e.definitions) :
    ∃ b : Block, b.Writes d ∧ ∀ x ∈ b.numbers, x.isFinite = true := by
  cases d with
  | inl u =>
    have hu : u ∈ e.universes.values := by simpa [Engine.definitions] using hd
    refine ⟨_, .ofUniverse u, fun x hx => ?_⟩
    obtain ⟨t, ht, hx⟩ := List.mem_flatMap.1 hx
    have hfinite := he.finite u hu t ht
    simp only [List.mem_cons, List.not_mem_nil, or_false] at hx
    rcases hx with rfl | rfl
    exacts [hfinite.1, hfinite.2]
  | inr rb =>
    have hrb : rb ∈ e.ruleBases.values := by simpa [Engine.definitions] using hd
    obtain ⟨rules, hrules⟩ := Traversal.exists_forall₂ (R := fun r (p : RulePhrase) => p.Writes r)
      fun r hr => exists_writes_rule (he.predicates rb hrb r hr)
    exact ⟨.ofRuleBase ⟨rb.name, .written rb.description, rules⟩,
      .ofRuleBase ⟨rfl, rfl, hrules.flip⟩, List.forall_mem_nil _⟩

theorem exists_rendering (he : e.Expressible) : ∃ source, e.Renders source := by
  obtain ⟨blocks, hblocks⟩ := Traversal.exists_forall₂ fun d hd => exists_writes he hd
  have hspelled : ∀ t ∈ blocks.flatMap Block.tokens, ∃ cs, t.Spelled cs := by
    intro t ht
    obtain ⟨b, hb, ht⟩ := List.mem_flatMap.1 ht
    obtain ⟨d, -, -, hfinite⟩ := Traversal.exists_of_mem_right hblocks hb
    have hnumber : ∀ x ∈ b.numbers, ∃ cs, (Token.number x).Spelled cs := by
      intro x hx
      obtain ⟨n, hvalid, hvalue⟩ := exists_literal (hfinite x hx)
      exact ⟨_, .number hvalid hvalue⟩
    exact Block.forall_mem_tokens (P := fun t => ∃ cs, t.Spelled cs)
      (fun word _ => ⟨_, .keyword word⟩) (fun content => ⟨_, .text content⟩) b hnumber t ht
  obtain ⟨cs, hlaid⟩ := exists_laid hspelled
  refine ⟨String.ofList cs, _, blocks, .refl _, (hblocks.imp fun _ _ h => h.1).flip, ?_⟩
  rwa [String.toList_ofList]

theorem isNaN_of_isFinite {x : Float} (h : x.isFinite = true) : x.isNaN = false := by
  simp only [Float.isFinite, Float.isNaN, Float.Model.isFinite, Float.Model.isNaN] at h ⊢
  cases hx : x.toModel.unpack <;> rw [hx] at h <;> first | rfl | cases h

/-- An engine that the language can express has renderings, and all of them compile to it. -/
theorem compile_renders (hbuilt : e.Built) (he : e.Expressible) {settings : EngineSettings}
    (hsettings : settings.strictMonotonic = false) :
    (∃ source, e.Renders source) ∧ ∀ source, e.Renders source →
      ∃ e', compileWith none none settings source = .ok e' ∧ e'.universes = e.universes ∧
        e'.ruleBases = e.ruleBases := by
  refine ⟨exists_rendering he, ?_⟩
  rintro source ⟨defs, blocks, hperm, hblocks, hlaid⟩
  have hnumbers : ∀ u ∈ e.universes.values, ∀ t ∈ u.terms, t.center.isNaN = false :=
    fun u hu t ht => isNaN_of_isFinite (he.finite u hu t ht).1
  obtain ⟨e', hbuild, huniverses, hruleBases⟩ :=
    Engine.buildBlocks_of_writes hbuilt hnumbers hsettings hperm hblocks
  have hliterate : ∀ t ∈ blocks.flatMap Block.tokens, t.Literate := by
    intro t ht
    obtain ⟨b, -, hb⟩ := List.mem_flatMap.1 ht
    exact literate_of_mem_tokens b t hb
  have hnamed : ∀ b ∈ blocks, b.Named := by
    intro b hb
    obtain ⟨d, hd, hwrites⟩ := Traversal.exists_of_mem_left hblocks hb
    exact named_of_writes he hwrites (hperm.mem_iff.1 hd)
  exact ⟨e', compile_eq_ok_iff.2 ⟨blocks, tokens_of_laid hlaid hliterate, hnamed, hbuild⟩,
    huniverses, hruleBases⟩

/-- A name with a line break, a quote and a backslash in it, and two terms at one center. -/
def oddities : Universe Float :=
  ⟨"\n\"\\", some "", [⟨"low", 0, 1⟩, ⟨"", 0, 2⟩, ⟨"high", 1.5, -1⟩]⟩

def oddRules : RuleBase :=
  ⟨"end", none, [⟨"up", some "and", .ofList [("\n\"\\", ""), ("end", "up")]⟩]⟩

def oddEngine : Engine Float :=
  ⟨{}, .ofList [(oddities.name, oddities)], .ofList [(oddRules.name, oddRules)], {}⟩

theorem built_oddities : oddities.Built := by
  have hlow : ({ oddities with terms := [] } : Universe Float).add ⟨"low", 0, 1⟩ =
      .ok { oddities with terms := [⟨"low", 0, 1⟩] } := by decide +kernel
  have hempty : ({ oddities with terms := [⟨"low", 0, 1⟩] } : Universe Float).add ⟨"", 0, 2⟩ =
      .ok { oddities with terms := [⟨"low", 0, 1⟩, ⟨"", 0, 2⟩] } := by decide +kernel
  have hhigh : ({ oddities with terms := [⟨"low", 0, 1⟩, ⟨"", 0, 2⟩] } : Universe Float).add
      ⟨"high", 1.5, -1⟩ = .ok oddities := by decide +kernel
  exact .added (.added (.added (.described (.new _) "") hlow) hempty) hhigh

theorem built_oddEngine : oddEngine.Built := by
  have huniverse : (Engine.new {}).addUniverse oddities =
      .ok ⟨{}, .ofList [(oddities.name, oddities)], {}, {}⟩ := rfl
  have hruleBase : Engine.addRuleBase ⟨{}, .ofList [(oddities.name, oddities)], {}, {}⟩ oddRules =
      .ok oddEngine := rfl
  exact .withRuleBase (.withUniverse (.new {}) built_oddities huniverse) hruleBase

theorem expressible_oddEngine : oddEngine.Expressible where
  universe_named := by decide
  ruleBase_named := by decide
  consequent_named := by decide
  predicates := by decide
  finite := by decide +kernel

theorem compile_renders_oddEngine :
    (oddEngine.Built ∧ oddEngine.Expressible ∧
      ({} : EngineSettings).strictMonotonic = false) ∧
    ∃ source e', oddEngine.Renders source ∧ compileWith none none {} source = .ok e' ∧
      e'.universes = oddEngine.universes ∧ e'.ruleBases = oddEngine.ruleBases := by
  have hsettings : ({} : EngineSettings).strictMonotonic = false := rfl
  obtain ⟨⟨source, hsource⟩, hcompile⟩ :=
    compile_renders built_oddEngine expressible_oddEngine hsettings
  obtain ⟨e', he', hsame⟩ := hcompile source hsource
  exact ⟨⟨built_oddEngine, expressible_oddEngine, hsettings⟩, source, e', hsource, he', hsame⟩

end FuzzyRules
