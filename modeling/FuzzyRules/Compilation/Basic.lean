import FuzzyRules.Assembly.Basic
import FuzzyRules.Dialect.Basic
import FuzzyRules.Token.Stream

/-!
# Compilation

A compilation runs a phrase table over a token stream and puts the model together. It looks one
token ahead: a token that a step does not consume is offered to the next step. A compilation that
goes on beyond `stepBound` steps is in a loop that it cannot leave, and has no outcome.
-/

namespace FuzzyRules

structure Compilation (d : Dialect) where
  stream : TokenStream d.words
  run : Run d.phrases
  assembly : Assembly
  lookahead : Option Token

namespace Compilation

variable {d : Dialect}

def start (d : Dialect) (settings : EngineSettings) (source : String) : Compilation d :=
  ⟨.ofText d.words source, Run.start d.phrases, Assembly.start settings, none⟩

/-- What a compilation has come to. -/
inductive Progress (d : Dialect) where
  | running (c : Compilation d)
  | done (outcome : Except GrammarFault (Engine Float))
  | endless

/-- Offers a token to the phrase table. -/
def offer (c : Compilation d) (t : Token) : Progress d :=
  let after := c.run.step Assembly.operate t c.stream.tokenLine c.assembly
  match after.result with
  | .error fault => .done (.error (.ofStep fault))
  | .ok transit =>
    if transit.accepted then .done (after.operator.finish t)
    else .running
      ⟨c.stream, after.run, after.operator, if transit.consumed then none else some t⟩

def advance (c : Compilation d) : Progress d :=
  match c.lookahead with
  | some t => c.offer t
  | none =>
    match c.stream.next with
    | none => .endless
    | some (_, .error fault) => .done (.error fault)
    | some (stream, .ok t) => { c with stream := stream }.offer t

def runFor : Nat → Compilation d → Option (Except GrammarFault (Engine Float))
  | 0, _ => none
  | fuel + 1, c =>
    match c.advance with
    | .done outcome => some outcome
    | .endless => none
    | .running c' => runFor fuel c'

/-- While characters are left, each of them yields few tokens, and each token takes few steps. At
the end of the text the two runs, the number of open drafts and the token ahead can combine in few
ways before they repeat. -/
def stepBound (c : Compilation d) : Nat :=
  64 * (c.stream.rest.length + (d.words.size + 1) * (d.words.size + 1)) * (d.words.size + 1)
    * ((d.phrases.size + 1) * (d.phrases.size + 1))

def outcome (c : Compilation d) : Option (Except GrammarFault (Engine Float)) :=
  c.runFor c.stepBound

end Compilation

/-- The engine that a text describes, unless the dialect loops on it forever. -/
def Dialect.compile (d : Dialect) (settings : EngineSettings) (source : String) :
    Option (Except GrammarFault (Engine Float)) :=
  (Compilation.start d settings source).outcome

end FuzzyRules
