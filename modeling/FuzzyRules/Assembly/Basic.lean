import FuzzyRules.Assembly.Draft
import FuzzyRules.Token.Basic

/-!
# Assemblies

An assembly is an engine under construction with a stack of open drafts, the innermost one first.
A refused action leaves everything as it was, except that an action which closes a draft has
dropped the innermost one.
-/

namespace FuzzyRules

structure Assembly where
  engine : Engine Float
  drafts : List Draft
  deriving DecidableEq

namespace Assembly

def start (settings : EngineSettings) : Assembly := ⟨Engine.new settings, []⟩

def depth (s : Assembly) : Nat := s.drafts.length

def needText (a : AssemblyAction) : Token → Except GrammarFault String
  | .text content => .ok content
  | t => .error (.unexpectedItem a.name .text t.excerpt)

def needNumber (a : AssemblyAction) : Token → Except GrammarFault Float
  | .number value => .ok value
  | t => .error (.unexpectedItem a.name .number t.excerpt)

abbrev topUniverse := Slot.ofUniverse.top

abbrev topTerm := Slot.ofTerm.top

abbrev topRuleBase := Slot.ofRuleBase.top

abbrev topRule := Slot.ofRule.top

abbrev topPredicate := Slot.ofPredicate.top

/-- Opens a draft inside one of kind `parent`; `none` stands for the top level. -/
def openDraft (s : Assembly) (a : AssemblyAction) (parent : Option DraftKind) (draft : Draft) :
    Except GrammarFault Assembly :=
  if topKind? s.drafts = parent then .ok { s with drafts := draft :: s.drafts }
  else .error (.misplaced a.name parent (topKind? s.drafts))

/-- Fills in a field of the innermost draft with the item that its token holds. -/
def fill {β γ : Type} (s : Assembly) (a : AssemblyAction) (slot : Slot γ)
    (item : Except GrammarFault β) (edit : β → γ → γ) : Except GrammarFault Assembly := do
  let b ← item
  let (d, below) ← slot.top a s.drafts
  return { s with drafts := slot.draft (edit b d) :: below }

def orModelFault {β : Type} (t : Token) : Except (ModelFault Float) β → Except GrammarFault β
  | .ok b => .ok b
  | .error fault => .error (.model t.excerpt fault)

def addTerm (s : Assembly) (t : Token) : Except GrammarFault Assembly := do
  let (d, below) ← topTerm .addTerm s.drafts
  match d.center, d.value with
  | some center, some value =>
    let (u, rest) ← topUniverse .addTerm below
    let u ← orModelFault t (u.add ⟨d.name, center, value⟩)
    return { s with drafts := .ofUniverse u :: rest }
  | _, _ => .error (.incomplete (.term d.name) t.excerpt)

def addUniverse (s : Assembly) (t : Token) : Except GrammarFault Assembly := do
  let (u, below) ← topUniverse .addUniverse s.drafts
  if u.name = "" then .error (.incomplete .namelessUniverse t.excerpt)
  else
    let engine ← orModelFault t (s.engine.addUniverse u)
    return ⟨engine, below⟩

def addPredicate (s : Assembly) (t : Token) : Except GrammarFault Assembly := do
  let (d, below) ← topPredicate .addPredicate s.drafts
  match d.antecedent, d.term with
  | some antecedent, some term =>
    let (r, rest) ← topRule .addPredicate below
    let r ← orModelFault t (r.addPredicate antecedent term)
    return { s with drafts := .ofRule r :: rest }
  | _, _ => .error (.incomplete .predicate t.excerpt)

def addRule (s : Assembly) (t : Token) : Except GrammarFault Assembly := do
  let (r, below) ← topRule .addRule s.drafts
  if r.consequent = "" then .error (.incomplete .ruleWithoutConsequent t.excerpt)
  else
    let (rb, rest) ← topRuleBase .addRule below
    return { s with drafts := .ofRuleBase (rb.addRule r) :: rest }

def addRuleBase (s : Assembly) (t : Token) : Except GrammarFault Assembly := do
  let (rb, below) ← topRuleBase .addRuleBase s.drafts
  if rb.name = "" then .error (.incomplete .namelessRuleBase t.excerpt)
  else
    let engine ← orModelFault t (s.engine.addRuleBase rb)
    return ⟨engine, below⟩

/-- The assembly after an action that is not refused. -/
def attempt (s : Assembly) (a : AssemblyAction) (t : Token) : Except GrammarFault Assembly :=
  match a with
  | .createUniverse => s.openDraft a none (.ofUniverse (Universe.new ""))
  | .setUniverseName => s.fill a .ofUniverse (needText a t) fun name u => { u with name := name }
  | .setUniverseDescription =>
    s.fill a .ofUniverse (needText a t) fun description u =>
      { u with description := some description }
  | .createTerm => do
    let name ← needText a t
    s.openDraft a (some .ofUniverse) (.ofTerm ⟨name, none, none⟩)
  | .setCenter =>
    s.fill a .ofTerm (needNumber a t) fun center d => { d with center := some center }
  | .setValue => s.fill a .ofTerm (needNumber a t) fun value d => { d with value := some value }
  | .addTerm => s.addTerm t
  | .addUniverse => s.addUniverse t
  | .createRuleBase => s.openDraft a none (.ofRuleBase (RuleBase.new ""))
  | .setRuleBaseName =>
    s.fill a .ofRuleBase (needText a t) fun name rb => { rb with name := name }
  | .setRuleBaseDescription =>
    s.fill a .ofRuleBase (needText a t) fun description rb =>
      { rb with description := some description }
  | .createRule => s.openDraft a (some .ofRuleBase) (.ofRule (Rule.new ""))
  | .setRuleDescription =>
    s.fill a .ofRule (needText a t) fun description r => { r with description := some description }
  | .setConsequence =>
    s.fill a .ofRule (needText a t) fun consequent r => { r with consequent := consequent }
  | .createPredicate => s.openDraft a (some .ofRule) (.ofPredicate ⟨none, none⟩)
  | .setPredicateName =>
    s.fill a .ofPredicate (needText a t) fun antecedent d =>
      { d with antecedent := some antecedent }
  | .setPredicateValue =>
    s.fill a .ofPredicate (needText a t) fun term d => { d with term := some term }
  | .addPredicate => s.addPredicate t
  | .addRule => s.addRule t
  | .addRuleBase => s.addRuleBase t

/-- The assembly after an action that is refused. -/
def refused (s : Assembly) (a : AssemblyAction) : Assembly :=
  match a.closes? with
  | some _ => { s with drafts := s.drafts.tail }
  | none => s

def operate : Operator AssemblyAction Token Assembly GrammarFault := fun a t s =>
  match s.attempt a t with
  | .ok s' => (s', .ok ())
  | .error fault => (s.refused a, .error fault)

/-- The engine, once every draft is closed. -/
def finish (s : Assembly) (t : Token) : Except GrammarFault (Engine Float) :=
  match s.drafts with
  | [] => .ok s.engine
  | draft :: _ => .error (.incomplete (.stillOpen draft.kind) t.excerpt)

end Assembly

end FuzzyRules
