import FuzzyRules.Automaton.Run
import FuzzyRules.Dialect.Phrases
import FuzzyRules.Assembly.Action
import FuzzyRules.Token.Classes

/-!
# The phrase table

The states of the built-in phrases and the moves out of each of them. All moves consume their
token; the end of the text is left where it is, and it is accepted between two blocks only.
-/

namespace FuzzyRules

/-- The states in name order. -/
inductive PhraseState where
  | predicateIs
  | predicateNext
  | predicateStart
  | predicateValue
  | ruleConsequence
  | ruleDescription
  | ruleHead
  | ruleWhen
  | ruleBaseBody
  | ruleBaseDescription
  | ruleBaseHead
  | ruleBaseName
  | start
  | termCenter
  | termValue
  | universeBody
  | universeDescription
  | universeHead
  | universeName
  deriving DecidableEq

/-- What a move asks of its token, what it does and where it leads. -/
structure PhraseMove where
  tokenClass : TokenClass
  actions : List AssemblyAction
  next : PhraseState

namespace PhraseState

def all : List PhraseState :=
  [predicateIs, predicateNext, predicateStart, predicateValue, ruleConsequence, ruleDescription,
    ruleHead, ruleWhen, ruleBaseBody, ruleBaseDescription, ruleBaseHead, ruleBaseName, start,
    termCenter, termValue, universeBody, universeDescription, universeHead, universeName]

def index (q : PhraseState) : Fin 19 := ⟨q.ctorIdx, by cases q <;> decide⟩

def name : PhraseState → String
  | predicateIs => "predicate_is"
  | predicateNext => "predicate_next"
  | predicateStart => "predicate_start"
  | predicateValue => "predicate_value"
  | ruleConsequence => "rule_consequence"
  | ruleDescription => "rule_description"
  | ruleHead => "rule_head"
  | ruleWhen => "rule_when"
  | ruleBaseBody => "rulebase_body"
  | ruleBaseDescription => "rulebase_description"
  | ruleBaseHead => "rulebase_head"
  | ruleBaseName => "rulebase_name"
  | start => "start"
  | termCenter => "term_center"
  | termValue => "term_value"
  | universeBody => "universe_body"
  | universeDescription => "universe_description"
  | universeHead => "universe_head"
  | universeName => "universe_name"

def moves : PhraseState → List PhraseMove
  | predicateIs => [⟨.keyword "is", [], predicateValue⟩]
  | predicateNext =>
    [⟨.keyword "and", [], predicateStart⟩, ⟨.keyword "end", [.addRule], ruleBaseBody⟩]
  | predicateStart => [⟨.text, [.createPredicate, .setPredicateName], predicateIs⟩]
  | predicateValue => [⟨.text, [.setPredicateValue, .addPredicate], predicateNext⟩]
  | ruleConsequence => [⟨.text, [.setConsequence], ruleHead⟩]
  | ruleDescription => [⟨.text, [.setRuleDescription], ruleWhen⟩]
  | ruleHead =>
    [⟨.keyword "description", [], ruleDescription⟩, ⟨.text, [.setRuleDescription], ruleWhen⟩,
      ⟨.keyword "when", [], predicateStart⟩]
  | ruleWhen => [⟨.keyword "when", [], predicateStart⟩]
  | ruleBaseBody =>
    [⟨.keyword "rule", [.createRule], ruleConsequence⟩, ⟨.keyword "end", [.addRuleBase], start⟩]
  | ruleBaseDescription => [⟨.text, [.setRuleBaseDescription], ruleBaseBody⟩]
  | ruleBaseHead =>
    [⟨.keyword "description", [], ruleBaseDescription⟩,
      ⟨.text, [.setRuleBaseDescription], ruleBaseBody⟩,
      ⟨.keyword "rule", [.createRule], ruleConsequence⟩,
      ⟨.keyword "end", [.addRuleBase], start⟩]
  | ruleBaseName => [⟨.text, [.setRuleBaseName], ruleBaseHead⟩]
  | start =>
    [⟨.keyword "universe", [.createUniverse], universeName⟩,
      ⟨.keyword "rulebase", [.createRuleBase], ruleBaseName⟩]
  | termCenter => [⟨.number, [.setCenter], termValue⟩]
  | termValue => [⟨.number, [.setValue, .addTerm], universeBody⟩]
  | universeBody =>
    [⟨.text, [.createTerm], termCenter⟩, ⟨.keyword "end", [.addUniverse], start⟩]
  | universeDescription => [⟨.text, [.setUniverseDescription], universeBody⟩]
  | universeHead =>
    [⟨.keyword "description", [], universeDescription⟩, ⟨.text, [.createTerm], termCenter⟩,
      ⟨.keyword "end", [.addUniverse], start⟩]
  | universeName => [⟨.text, [.setUniverseName], universeHead⟩]

/-- The first move that a token allows. -/
def move? (q : PhraseState) (t : Token) : Option PhraseMove :=
  q.moves.find? fun m => m.tokenClass.admits t

/-- How the end of the text is taken. -/
def ending : PhraseState → List (Transition TokenClass AssemblyAction 19)
  | start => [⟨.empty, [], .accept, false⟩]
  | _ => []

end PhraseState

def PhraseMove.transition (m : PhraseMove) : Transition TokenClass AssemblyAction 19 :=
  ⟨m.tokenClass, m.actions, .state m.next.index, true⟩

/-- The built-in phrases with every name resolved. -/
def phraseTable : Table TokenClass AssemblyAction where
  name := "syntax"
  size := 19
  start := PhraseState.start.index
  rows := PhraseState.all.map fun q => ⟨q.name, q.moves.map PhraseMove.transition ++ q.ending⟩
  rows_length := rfl

set_option maxRecDepth 20000 in
theorem resolve_builtinPhrases : Dialect.builtinPhrases.resolve = .ok phraseTable := rfl

namespace PhraseState

theorem row_index (q : PhraseState) : phraseTable.row q.index =
    ⟨q.name, q.moves.map PhraseMove.transition ++ q.ending⟩ := by
  cases q <;> rfl

variable {r : Run phraseTable} {q : PhraseState}

theorem enabled?_eq (hr : r.state = q.index) (t : Token) :
    r.enabled? t = ((q.move? t).map PhraseMove.transition).or
      (q.ending.find? fun tr => tr.itemClass.admits t) := by
  rw [Run.enabled?, hr, row_index]
  change List.find? (fun tr : Transition TokenClass AssemblyAction 19 => tr.itemClass.admits t)
    (q.moves.map PhraseMove.transition ++ q.ending) = _
  rw [List.find?_append, List.find?_map]
  rfl

theorem enabled?_of_move {t : Token} {m : PhraseMove} (hr : r.state = q.index)
    (h : q.move? t = some m) : r.enabled? t = some m.transition := by
  rw [enabled?_eq hr, h]
  rfl

theorem enabled?_of_stuck {t : Token} (hr : r.state = q.index) (ht : t ≠ .finish)
    (h : q.move? t = none) : r.enabled? t = none := by
  rw [enabled?_eq hr, h]
  cases t with
  | finish => exact absurd rfl ht
  | _ => cases q <;> rfl

theorem enabled?_finish (hr : r.state = q.index) :
    r.enabled? .finish = if q = start then some ⟨.empty, [], .accept, false⟩ else none := by
  rw [enabled?_eq hr]
  cases q <;> rfl

theorem stateName_eq (hr : r.state = q.index) : r.stateName = q.name := by
  rw [Run.stateName, hr, row_index]

end PhraseState

end FuzzyRules
