import FuzzyRules.Engine.Basic
import FuzzyRules.Proofs.Traversal
import FuzzyRules.Proofs.Universe.Terms
import FuzzyRules.Token.Basic

/-!
# Blocks of the description language

A model is written as a sequence of blocks, each for a universe or for a rule base. A block has its
tokens, and it has the universe or the rule base that it builds. The engine of a model takes in its
blocks in order.
-/

namespace FuzzyRules

open Traversal

def Term.tokens (t : Term Float) : List Token := [.text t.name, .number t.center, .number t.value]

/-- The tokens of an optional description. -/
def describing : Option String → List Token
  | none => []
  | some text => [.keyword "description", .text text]

structure UniverseBlock where
  name : String
  description : Option String
  terms : List (Term Float)

/-- The description of a rule base or of a rule, which may go without the word for it. -/
inductive Remark where
  | absent
  | marked (text : String)
  | bare (text : String)

namespace Remark

def text? : Remark → Option String
  | absent => none
  | marked text => some text
  | bare text => some text

def tokens : Remark → List Token
  | absent => []
  | marked text => [.keyword "description", .text text]
  | bare text => [.text text]

end Remark

structure Predicate where
  antecedent : String
  term : String

def Predicate.tokens (p : Predicate) : List Token :=
  [.text p.antecedent, .keyword "is", .text p.term]

structure RulePhrase where
  consequent : String
  remark : Remark
  first : Predicate
  others : List Predicate

structure RuleBaseBlock where
  name : String
  remark : Remark
  rules : List RulePhrase

inductive Block where
  | ofUniverse (b : UniverseBlock)
  | ofRuleBase (b : RuleBaseBlock)

namespace UniverseBlock

/-- The tokens behind the opening keyword. -/
def body (b : UniverseBlock) : List Token :=
  .text b.name :: describing b.description ++ b.terms.flatMap Term.tokens ++ [.keyword "end"]

def build (b : UniverseBlock) : Except (ModelFault Float) (Universe Float) :=
  b.terms.foldlM Universe.add { Universe.new b.name with description := b.description }

theorem name_of_build {b : UniverseBlock} {u : Universe Float} (h : b.build = .ok u) :
    u.name = b.name :=
  foldlM_preserves (g := Universe.name) Universe.name_of_add h

end UniverseBlock

namespace RulePhrase

def predicates (r : RulePhrase) : List Predicate := r.first :: r.others

/-- The tokens behind the opening keyword. -/
def body (r : RulePhrase) : List Token :=
  .text r.consequent :: r.remark.tokens ++ .keyword "when" :: r.first.tokens ++
    r.others.flatMap (fun p => .keyword "and" :: p.tokens) ++ [.keyword "end"]

def tokens (r : RulePhrase) : List Token := .keyword "rule" :: r.body

def add (r : Rule) (p : Predicate) : Except (ModelFault Float) Rule :=
  r.addPredicate p.antecedent p.term

def build (r : RulePhrase) : Except (ModelFault Float) Rule :=
  r.predicates.foldlM add { Rule.new r.consequent with description := r.remark.text? }

theorem consequent_of_add {r r' : Rule} {p : Predicate} (h : add r p = .ok r') :
    r'.consequent = r.consequent := by
  unfold add Rule.addPredicate at h
  split_ifs at h
  cases h
  rfl

theorem consequent_of_build {r : RulePhrase} {r' : Rule} (h : r.build = .ok r') :
    r'.consequent = r.consequent :=
  foldlM_preserves (g := Rule.consequent) consequent_of_add h

end RulePhrase

namespace RuleBaseBlock

/-- The tokens behind the opening keyword. -/
def body (b : RuleBaseBlock) : List Token :=
  .text b.name :: b.remark.tokens ++ b.rules.flatMap RulePhrase.tokens ++ [.keyword "end"]

def add (rb : RuleBase) (r : RulePhrase) : Except (ModelFault Float) RuleBase :=
  r.build.map rb.addRule

def build (b : RuleBaseBlock) : Except (ModelFault Float) RuleBase :=
  b.rules.foldlM add { RuleBase.new b.name with description := b.remark.text? }

theorem name_of_add {rb rb' : RuleBase} {r : RulePhrase} (h : add rb r = .ok rb') :
    rb'.name = rb.name := by
  obtain ⟨r', -, rfl⟩ := map_eq_ok_iff.1 h
  rfl

theorem name_of_build {b : RuleBaseBlock} {rb : RuleBase} (h : b.build = .ok rb) :
    rb.name = b.name :=
  foldlM_preserves (g := RuleBase.name) name_of_add h

end RuleBaseBlock

namespace Block

def tokens : Block → List Token
  | .ofUniverse b => .keyword "universe" :: b.body
  | .ofRuleBase b => .keyword "rulebase" :: b.body

/-- Nothing in the block goes without a name that needs one. -/
def Named : Block → Prop
  | .ofUniverse b => b.name ≠ ""
  | .ofRuleBase b => b.name ≠ "" ∧ ∀ r ∈ b.rules, r.consequent ≠ ""

/-- The engine with what a block builds. -/
def add (e : Engine Float) : Block → Except (ModelFault Float) (Engine Float)
  | .ofUniverse b => b.build >>= e.addUniverse
  | .ofRuleBase b => b.build >>= e.addRuleBase

end Block

/-- The engine that blocks build in their order. -/
def buildBlocks (settings : EngineSettings) (blocks : List Block) :
    Except (ModelFault Float) (Engine Float) :=
  blocks.foldlM Block.add (Engine.new settings)

end FuzzyRules
