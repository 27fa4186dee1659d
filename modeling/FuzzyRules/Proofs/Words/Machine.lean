import FuzzyRules.Dialect.Words
import FuzzyRules.Proofs.Token.Yields
import FuzzyRules.Proofs.Words.Numerals
import FuzzyRules.Proofs.Words.Reading

/-!
# The word table

The built-in word table with every name resolved. While it stands in a state, the sink holds what
the piece under way will make of its token; a transition either adds to it or makes the token ready.
-/

namespace FuzzyRules

def numberEnding : List (Transition CharClass LexAction 7) :=
  [⟨.blank, [.number], .state 5, true⟩, ⟨.comma, [.number], .state 5, true⟩,
    ⟨.empty, [.number], .state 5, false⟩]

/-- The built-in words with every name resolved. -/
def wordTable : Table CharClass LexAction where
  name := "lexical"
  size := 7
  start := 5
  rows := [
    ⟨"escape", [⟨.quote, [.push], .state 6, true⟩, ⟨.backslash, [.push], .state 6, true⟩]⟩,
    ⟨"fraction", ⟨.digit, [.push], .state 1, true⟩ :: numberEnding⟩,
    ⟨"integer",
      ⟨.digit, [.push], .state 2, true⟩ :: ⟨.dot, [.push], .state 1, true⟩ :: numberEnding⟩,
    ⟨"keyword",
      [⟨.letter, [.push], .state 3, true⟩, ⟨.blank, [.keyword], .state 5, true⟩,
        ⟨.comma, [.keyword], .state 5, true⟩, ⟨.quote, [.keyword], .state 5, false⟩,
        ⟨.empty, [.keyword], .state 5, false⟩]⟩,
    ⟨"sign",
      ⟨.digit, [.push], .state 2, true⟩ :: ⟨.dot, [.push], .state 1, true⟩ :: numberEnding⟩,
    ⟨"start",
      [⟨.blank, [], .state 5, true⟩, ⟨.comma, [], .state 5, true⟩,
        ⟨.letter, [.push], .state 3, true⟩, ⟨.quote, [], .state 6, true⟩,
        ⟨.hyphen, [.push], .state 4, true⟩, ⟨.digit, [.push], .state 2, true⟩,
        ⟨.dot, [.push], .state 1, true⟩, ⟨.empty, [], .accept, false⟩]⟩,
    ⟨"text",
      [⟨.backslash, [], .state 0, true⟩, ⟨.quote, [.text], .state 5, true⟩,
        ⟨.any, [.push], .state 6, true⟩]⟩]
  rows_length := rfl

set_option maxRecDepth 10000 in
theorem resolve_builtinWords : Dialect.builtinWords.resolve = .ok wordTable := rfl

namespace Reading

/-- The state that the table stands in. -/
def index : Reading → Fin 7
  | escape _ => 0
  | number ⟨_, _, some _⟩ => 1
  | number ⟨_, _ :: _, none⟩ => 2
  | word _ => 3
  | number ⟨_, [], none⟩ => 4
  | between => 5
  | text _ => 6

/-- The characters that the sink holds. -/
def buffer : Reading → List Char
  | between => []
  | word letters => letters
  | text units => units.map TextUnit.content
  | escape units => units.map TextUnit.content
  | number n => n.chars

/-- Steps that may have passed since a character was consumed. -/
def patience : Reading → Nat
  | between => 1
  | _ => 0

end Reading

/-- A stream that reads on from a reading. -/
structure TokenStream.Holds (s : TokenStream wordTable) (r : Reading) (cs : List Char) : Prop where
  rest : s.rest = cs
  accepted : s.run.accepted = false
  state : s.run.state = r.index
  idle : s.run.idle ≤ r.patience
  buffer : s.sink.buffer = String.ofList r.buffer
  ready : s.sink.ready = none
  valid : r.Valid

theorem TokenStream.holds_ofText (source : String) :
    (ofText wordTable source).Holds .between source.toList :=
  ⟨rfl, rfl, rfl, Nat.zero_le _, rfl, rfl, trivial⟩

namespace TokenStream.Holds

variable {s : TokenStream wordTable} {r next : Reading} {c : Char} {cs : List Char}

def onKind (i : Fin 7) (k : CharKind) : Option (Transition CharClass LexAction 7) :=
  (wordTable.row i).transitions.find? fun tr => tr.itemClass.admitsKind k

def atEnd (i : Fin 7) : Option (Transition CharClass LexAction 7) :=
  (wordTable.row i).transitions.find? fun tr => tr.itemClass.admits none

theorem enabled?_cons (h : s.Holds r (c :: cs)) :
    s.run.enabled? s.rest.head? = onKind r.index (.of c) := by
  simp only [Run.enabled?, h.rest, h.state, List.head?_cons, ItemClass.admits, onKind,
    CharClass.admits_some]
  rfl

theorem enabled?_nil (h : s.Holds r []) : s.run.enabled? s.rest.head? = atEnd r.index := by
  simp only [Run.enabled?, h.rest, h.state, List.head?_nil, ItemClass.admits, atEnd]
  rfl

theorem sink_eq (h : s.Holds r cs) : s.openSink = ⟨String.ofList r.buffer, none, s.line⟩ := by
  rw [openSink, h.buffer, h.ready]

theorem holds_follow (h : s.Holds r (c :: cs)) (next : Reading) {k : CharClass}
    {actions : List LexAction} {sink : Sink} (hbuffer : sink.buffer = String.ofList next.buffer)
    (hvalid : next.Valid) :
    (s.follow ⟨k, actions, .state next.index, true⟩ sink).Holds next cs where
  rest := congrArg List.tail h.rest
  accepted := h.accepted
  state := rfl
  idle := Nat.zero_le _
  buffer := hbuffer
  ready := rfl
  valid := hvalid

theorem exists_advance_of_silent (h : s.Holds r (c :: cs)) {k : CharClass}
    (htr : onKind r.index (.of c) = some ⟨k, [], .state next.index, true⟩)
    (hbuffer : next.buffer = r.buffer) (hvalid : next.Valid) :
    ∃ s', s.advance = (s', .ok none) ∧ s'.Holds next cs := by
  have hadvance := advance_of_performed h.accepted (h.enabled?_cons.trans htr)
    (Run.perform_nil ..) (Nat.zero_le _)
  rw [h.sink_eq] at hadvance
  exact ⟨_, hadvance, h.holds_follow next (by rw [hbuffer]) hvalid⟩

theorem exists_advance_of_push (h : s.Holds r (c :: cs)) {k : CharClass}
    (htr : onKind r.index (.of c) = some ⟨k, [.push], .state next.index, true⟩)
    (hbuffer : next.buffer = r.buffer ++ [c]) (hvalid : next.Valid) :
    ∃ s', s.advance = (s', .ok none) ∧ s'.Holds next cs := by
  have hperform : Run.perform Sink.operate s.rest.head? [.push] s.openSink =
      (⟨String.ofList next.buffer, none, s.line⟩, .ok ()) := by
    rw [h.sink_eq, h.rest, hbuffer, String.ofList_append]
    rfl
  have hadvance := advance_of_performed h.accepted (h.enabled?_cons.trans htr) hperform
    (Nat.zero_le _)
  exact ⟨_, hadvance, h.holds_follow next rfl hvalid⟩

theorem exists_advance_of_emit (h : s.Holds r (c :: cs)) {k : CharClass} {a : LexAction}
    {token : Token}
    (htr : onKind r.index (.of c) = some ⟨k, [a], .state 5, true⟩)
    (hop : Sink.operate a (some c) ⟨String.ofList r.buffer, none, s.line⟩ =
      (⟨"", some token, s.line⟩, .ok ())) :
    ∃ s', s.advance = (s', .ok (some token)) ∧ s'.Holds .between cs := by
  have hperform : Run.perform Sink.operate s.rest.head? [a] s.openSink =
      (⟨"", some token, s.line⟩, .ok ()) := by
    simp only [h.sink_eq, h.rest, List.head?_cons, Run.perform, hop]
  have hadvance := advance_of_performed h.accepted (h.enabled?_cons.trans htr) hperform
    (Nat.zero_le _)
  exact ⟨_, hadvance, h.holds_follow .between rfl trivial⟩

/-- A token that leaves the next character, or the end of the text, where it is. -/
theorem exists_advance_of_keeping (h : s.Holds r cs) (hpatience : r.patience = 0) {k : CharClass}
    {a : LexAction} {token : Token}
    (htr : s.run.enabled? s.rest.head? = some ⟨k, [a], .state (5 : Fin 7), false⟩)
    (hop : Sink.operate a s.rest.head? ⟨String.ofList r.buffer, none, s.line⟩ =
      (⟨"", some token, s.line⟩, .ok ())) :
    ∃ s', s.advance = (s', .ok (some token)) ∧ s'.Holds .between cs := by
  have hperform : Run.perform Sink.operate s.rest.head? [a] s.openSink =
      (⟨"", some token, s.line⟩, .ok ()) := by
    simp only [h.sink_eq, Run.perform, hop]
  have hidle : s.run.idle + 1 ≤ 1 := by
    have := h.idle
    omega
  have hadvance := advance_of_performed h.accepted htr hperform
    (show s.run.idle + 1 ≤ 7 by omega)
  exact ⟨_, hadvance, h.rest, h.accepted, rfl, hidle, rfl, rfl, trivial⟩

end TokenStream.Holds

end FuzzyRules
