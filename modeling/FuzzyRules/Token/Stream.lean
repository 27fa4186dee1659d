import FuzzyRules.Decimal.Literal
import FuzzyRules.Token.Classes

/-!
# Token streams

A stream runs a lexical table over the characters of a text. Each pull takes steps until a
transition has put a token into the sink, the run accepts, or a step fails; the text is read no
further than that. After acceptance every pull yields the end of the text. A pull that has taken
`stepBound` steps without any of these is in a loop that it cannot leave, and has no outcome.
-/

namespace FuzzyRules

inductive LexAction where
  | push
  | keyword
  | text
  | number
  deriving DecidableEq, Repr

namespace LexAction

def ofName? : String → Option LexAction
  | "push" => some .push
  | "keyword" => some .keyword
  | "text" => some .text
  | "number" => some .number
  | _ => none

def name : LexAction → String
  | .push => "push"
  | .keyword => "keyword"
  | .text => "text"
  | .number => "number"

instance : NamedAction LexAction := ⟨ofName?⟩

end LexAction

/-- Characters that are no token yet, and the token that is ready to be taken. -/
structure Sink where
  buffer : String
  ready : Option Token
  line : Nat
  deriving DecidableEq, Repr

namespace Sink

def empty : Sink := ⟨"", none, 0⟩

/-- A later token takes the place of one that is still ready. A number empties the buffer even if it
is malformed. -/
def operate : Operator LexAction (Option Char) Sink GrammarFault
  | .push, some c, s => ({ s with buffer := s.buffer.push c }, .ok ())
  | .push, none, s =>
    let seen := HasExcerpt.excerpt (none : Option Char)
    (s, .error (.unexpectedItem LexAction.push.name .character seen))
  | .keyword, _, s => ({ s with buffer := "", ready := some (.keyword s.buffer) }, .ok ())
  | .text, _, s => ({ s with buffer := "", ready := some (.text s.buffer) }, .ok ())
  | .number, _, s =>
    match Decimal.literal? s.buffer with
    | some x => ({ s with buffer := "", ready := some (.number x) }, .ok ())
    | none => ({ s with buffer := "" }, .error (.malformedNumber s.buffer s.line))

end Sink

structure TokenStream (t : Table CharClass LexAction) where
  rest : List Char
  run : Run t
  sink : Sink
  line : Nat
  /-- The line on which the last token began. -/
  tokenLine : Nat

namespace TokenStream

variable {t : Table CharClass LexAction}

def ofText (t : Table CharClass LexAction) (source : String) : TokenStream t :=
  ⟨source.toList, Run.start t, Sink.empty, 1, 1⟩

/-- A token begins at the first character that is not blank while the buffer is empty. -/
def beginsToken (s : TokenStream t) : Bool :=
  s.sink.buffer == "" && match s.rest with
    | [] => false
    | c :: _ => !Text.isBlank c

/-- The stream behind its first character. -/
def skip (s : TokenStream t) : TokenStream t :=
  match s.rest with
  | [] => s
  | c :: rest => { s with rest := rest, line := if c = '\n' then s.line + 1 else s.line }

def takeReady (s : TokenStream t) : TokenStream t × Option Token :=
  ({ s with sink := { s.sink with ready := none } }, s.sink.ready)

/-- One step of the run, and the token that it has made ready. -/
def advance (s : TokenStream t) : TokenStream t × Except GrammarFault (Option Token) :=
  let s := { s with
    tokenLine := if s.beginsToken then s.line else s.tokenLine
    sink := { s.sink with line := s.line } }
  let after := s.run.step Sink.operate s.rest.head? s.line s.sink
  let s := { s with run := after.run, sink := after.operator }
  match after.result with
  | .error fault => (s, .error (.ofStep fault))
  | .ok transit =>
    let (s, token) := (if transit.consumed then s.skip else s).takeReady
    (s, .ok token)

def pull : Nat → TokenStream t → Option (TokenStream t × Except GrammarFault Token)
  | 0, _ => none
  | fuel + 1, s =>
    if s.run.accepted then some (s, .ok .finish)
    else
      match s.advance with
      | (s', .error fault) => some (s', .error fault)
      | (s', .ok (some token)) => some (s', .ok token)
      | (s', .ok none) => pull fuel s'

/-- On one character the run takes at most one step more than the table has states. At the end of
the text it repeats itself as soon as a state comes back with the same idle count. -/
def stepBound (s : TokenStream t) : Nat := (s.rest.length + 2 * t.size + 1) * (t.size + 1)

/-- The next token, unless the run would go on forever. -/
def next (s : TokenStream t) : Option (TokenStream t × Except GrammarFault Token) :=
  s.pull s.stepBound

def collect : Nat → TokenStream t → Option (Except GrammarFault (List Token))
  | 0, _ => none
  | fuel + 1, s =>
    match s.next with
    | none => none
    | some (_, .error fault) => some (.error fault)
    | some (_, .ok .finish) => some (.ok [])
    | some (s', .ok token) => (collect fuel s').map (Except.map (token :: ·))

/-- All tokens before the end of the text. -/
def tokens (s : TokenStream t) : Option (Except GrammarFault (List Token)) :=
  s.collect s.stepBound

end TokenStream

end FuzzyRules
