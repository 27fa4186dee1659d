import FuzzyRules.Proofs.Words.Machine

/-!
# The word table as a reader

The built-in word table goes through a text as a reader does: each token leaves the stream with the
character that completes its piece, or with the end of the text.
-/

namespace FuzzyRules

/-- What can be wrong with the characters of a text: one is out of place, or a number has no
digits. -/
inductive GrammarFault.Lexical : GrammarFault → Prop
  | violation (grammar state : String) (seen : Excerpt) (line : Nat) :
      Lexical (.violation grammar state seen line)
  | malformedNumber (literal : String) (line : Nat) : Lexical (.malformedNumber literal line)

namespace TokenStream

/-- The stream yields the tokens of the pieces, or ends with a fault if there are none. -/
def Agrees (s : TokenStream wordTable) (bound : Nat) (scanned : Option (List Piece)) : Prop :=
  ∃ l ending, s.Yields l ending ∧ l.length ≤ bound ∧
    match scanned with
    | some ps => (∃ line, ending = .ok line) ∧ l.map Prod.fst = ps.filterMap Piece.token?
    | none => ∃ fault, ending = .error fault ∧ fault.Lexical

namespace Agrees

variable {s s' : TokenStream wordTable} {bound : Nat} {scanned : Option (List Piece)}
  {ps : List Piece}

theorem of_fault {f : GrammarFault} (hs : s.run.accepted = false) (h : s.advance = (s', .error f))
    (hf : f.Lexical) : s.Agrees bound none :=
  ⟨[], _, .fault (next_of_fault hs h), Nat.zero_le _, f, rfl, hf⟩

theorem of_finished (hs : s.run.accepted = false) (h : s.advance = (s', .ok none))
    (hs' : s'.run.accepted = true) : s.Agrees bound (some []) :=
  ⟨[], _, .finish (next_of_accepting hs h hs') hs', Nat.zero_le _, ⟨_, rfl⟩, rfl⟩

theorem of_silent (hs : s.run.accepted = false) (h : s.advance = (s', .ok none))
    (hrest : s'.rest.length < s.rest.length) (hps : ps.filterMap Piece.token? = [])
    (hagrees : s'.Agrees bound scanned) : s.Agrees bound (scanned.map (ps ++ ·)) := by
  obtain ⟨l, ending, hyields, hbound, hscanned⟩ := hagrees
  refine ⟨l, ending, hyields.of_silent hs h hrest, hbound, ?_⟩
  cases scanned with
  | none => exact hscanned
  | some qs => simpa [List.filterMap_append, hps] using hscanned

theorem of_token {tok : Token} (hs : s.run.accepted = false) (h : s.advance = (s', .ok (some tok)))
    (hps : ps.filterMap Piece.token? = [tok]) (hagrees : s'.Agrees bound scanned) :
    s.Agrees (bound + 1) (scanned.map (ps ++ ·)) := by
  have htok : tok ≠ .finish := Piece.ne_finish_of_mem (hps ▸ List.mem_singleton_self tok)
  obtain ⟨l, ending, hyields, hbound, hscanned⟩ := hagrees
  refine ⟨_, ending, .token (next_of_token hs h) htok hyields, Nat.succ_le_succ hbound, ?_⟩
  cases scanned with
  | none => exact hscanned
  | some qs => simpa [List.filterMap_append, hps] using hscanned

theorem mono {more : Nat} (h : s.Agrees bound scanned) (hle : bound ≤ more) :
    s.Agrees more scanned := by
  obtain ⟨l, ending, hyields, hbound, hscanned⟩ := h
  exact ⟨l, ending, hyields, Nat.le_trans hbound hle, hscanned⟩

end Agrees

namespace Holds

variable {s s' : TokenStream wordTable} {r next : Reading} {c : Char} {cs : List Char}
  {ps : List Piece}

theorem rest_lt (h : s.Holds r (c :: cs)) (h' : s'.Holds next cs) :
    s'.rest.length < s.rest.length := by
  rw [h.rest, h'.rest]
  exact Nat.lt_succ_self _

/-- What the next step comes to, by what the reader takes the next character as. The quote behind a
word is left to the step after it. -/
inductive Advances (s : TokenStream wordTable) (c : Char) (cs : List Char) :
    Option (List Piece × Reading) → Prop
  | fault {s' : TokenStream wordTable} {f : GrammarFault} (advance : s.advance = (s', .error f))
      (lexical : f.Lexical) : Advances s c cs none
  | taken {s' : TokenStream wordTable} {token? : Option Token} {ps : List Piece} {next : Reading}
      (advance : s.advance = (s', .ok token?)) (holds : s'.Holds next cs)
      (tokens : ps.filterMap Piece.token? = token?.toList) : Advances s c cs (some (ps, next))
  | left {s' : TokenStream wordTable} {token : Token} {ps : List Piece} (quote : c = '"')
      (advance : s.advance = (s', .ok (some token))) (holds : s'.Holds .between (c :: cs))
      (tokens : ps.filterMap Piece.token? = [token]) : Advances s c cs (some (ps, .text []))

theorem advances_fault (h : s.Holds r (c :: cs)) (htr : onKind r.index (.of c) = none)
    (htake : r.take c = none) : Advances s c cs (r.take c) := by
  obtain ⟨s', seen, hadvance⟩ := advance_of_disabled h.accepted (h.enabled?_cons.trans htr)
  rw [htake]
  exact .fault hadvance (.violation ..)

theorem advances_silent {k : CharClass} (h : s.Holds r (c :: cs))
    (htake : r.take c = some (ps, next))
    (htr : onKind r.index (.of c) = some ⟨k, [], .state next.index, true⟩)
    (hbuffer : next.buffer = r.buffer) (hps : ps.filterMap Piece.token? = []) :
    Advances s c cs (r.take c) := by
  have hvalid := Reading.valid_of_take h.valid htake
  obtain ⟨s', hadvance, hs'⟩ := h.exists_advance_of_silent htr hbuffer hvalid
  rw [htake]
  exact .taken hadvance hs' hps

theorem advances_push {k : CharClass} (h : s.Holds r (c :: cs)) (htake : r.take c = some ([], next))
    (htr : onKind r.index (.of c) = some ⟨k, [.push], .state next.index, true⟩)
    (hbuffer : next.buffer = r.buffer ++ [c]) : Advances s c cs (r.take c) := by
  have hvalid := Reading.valid_of_take h.valid htake
  obtain ⟨s', hadvance, hs'⟩ := h.exists_advance_of_push htr hbuffer hvalid
  rw [htake]
  exact .taken hadvance hs' rfl

theorem advances_emit {k : CharClass} {a : LexAction} {token : Token} (h : s.Holds r (c :: cs))
    (htake : r.take c = some (ps, .between))
    (htr : onKind r.index (.of c) = some ⟨k, [a], .state (5 : Fin 7), true⟩)
    (hop : Sink.operate a (some c) ⟨String.ofList r.buffer, none, s.line⟩ =
      (⟨"", some token, s.line⟩, .ok ()))
    (hps : ps.filterMap Piece.token? = [token]) : Advances s c cs (r.take c) := by
  obtain ⟨s', hadvance, hs'⟩ := h.exists_advance_of_emit htr hop
  rw [htake]
  exact .taken hadvance hs' hps

theorem advances_between (h : s.Holds .between (c :: cs)) :
    Advances s c cs (Reading.between.take c) := by
  cases hk : CharKind.of c with
  | blank =>
    have hc := Reading.isSeparator_iff.2 (.inl hk)
    exact h.advances_silent (Reading.Takes.separator hc).take_eq (by rw [hk]; rfl) rfl rfl
  | comma =>
    have hc := Reading.isSeparator_iff.2 (.inr hk)
    exact h.advances_silent (Reading.Takes.separator hc).take_eq (by rw [hk]; rfl) rfl rfl
  | letter =>
    have hc := CharKind.of_eq_letter_iff.1 hk
    exact h.advances_push (Reading.Takes.beginWord hc).take_eq (by rw [hk]; rfl) rfl
  | quote =>
    obtain rfl := CharKind.of_eq_quote_iff.1 hk
    exact h.advances_silent Reading.Takes.beginText.take_eq (by rw [hk]; rfl) rfl rfl
  | hyphen =>
    obtain rfl := CharKind.of_eq_hyphen_iff.1 hk
    exact h.advances_push Reading.Takes.beginNegative.take_eq (by rw [hk]; rfl) rfl
  | digit =>
    have hc := CharKind.of_eq_digit_iff.1 hk
    exact h.advances_push (Reading.Takes.beginNumber hc).take_eq (by rw [hk]; rfl) rfl
  | dot =>
    obtain rfl := CharKind.of_eq_dot_iff.1 hk
    exact h.advances_push Reading.Takes.beginFraction.take_eq (by rw [hk]; rfl) rfl
  | backslash | other => exact h.advances_fault (by rw [hk]; rfl) (by simp only [Reading.take, hk])

theorem advances_word {letters : List Char} (h : s.Holds (.word letters) (c :: cs)) :
    Advances s c cs ((Reading.word letters).take c) := by
  have hfault (htr : onKind 3 (.of c) = none) (htake : (Reading.word letters).take c = none) :=
    h.advances_fault htr htake
  cases hk : CharKind.of c with
  | letter =>
    have hc := CharKind.of_eq_letter_iff.1 hk
    exact h.advances_push (Reading.Takes.letter hc).take_eq (by rw [hk]; rfl) rfl
  | blank =>
    have hc := Reading.isSeparator_iff.2 (.inl hk)
    exact h.advances_emit (Reading.Takes.endWord hc).take_eq (by rw [hk]; rfl) rfl rfl
  | comma =>
    have hc := Reading.isSeparator_iff.2 (.inr hk)
    exact h.advances_emit (Reading.Takes.endWord hc).take_eq (by rw [hk]; rfl) rfl rfl
  | quote =>
    obtain rfl := CharKind.of_eq_quote_iff.1 hk
    have htr : onKind 3 (.of '"') = some ⟨.quote, [.keyword], .state (5 : Fin 7), false⟩ := by
      rw [hk]; rfl
    obtain ⟨s', hadvance, hs'⟩ :=
      h.exists_advance_of_keeping rfl (h.enabled?_cons.trans htr) rfl
    rw [Reading.Takes.quoteBehindWord.take_eq]
    exact .left rfl hadvance hs' rfl
  | backslash | hyphen | digit | dot | other =>
    exact hfault (by rw [hk]; rfl) (by simp only [Reading.take, hk])

theorem advances_text {units : List TextUnit} (h : s.Holds (.text units) (c :: cs)) :
    Advances s c cs ((Reading.text units).take c) := by
  cases hk : CharKind.of c with
  | quote =>
    obtain rfl := CharKind.of_eq_quote_iff.1 hk
    exact h.advances_emit Reading.Takes.endText.take_eq (by rw [hk]; rfl) rfl rfl
  | backslash =>
    obtain rfl := CharKind.of_eq_backslash_iff.1 hk
    exact h.advances_silent Reading.Takes.backslash.take_eq (by rw [hk]; rfl) rfl rfl
  | blank | comma | letter | hyphen | digit | dot | other =>
    have hplain : (TextUnit.plain c).Valid := by
      refine ⟨fun hc => ?_, fun hc => ?_⟩
      · cases hk.symm.trans (CharKind.of_eq_quote_iff.2 hc)
      · cases hk.symm.trans (CharKind.of_eq_backslash_iff.2 hc)
    exact h.advances_push (Reading.take_text_of_plain hplain) (by rw [hk]; rfl)
      (by simp [Reading.buffer, TextUnit.content])

theorem advances_escape {units : List TextUnit} (h : s.Holds (.escape units) (c :: cs)) :
    Advances s c cs ((Reading.escape units).take c) := by
  have hbuffer : (Reading.text (units ++ [.escaped c])).buffer =
      (Reading.escape units).buffer ++ [c] := by simp [Reading.buffer, TextUnit.content]
  cases hk : CharKind.of c with
  | quote =>
    have hescaped : (TextUnit.escaped c).Valid := .inl (CharKind.of_eq_quote_iff.1 hk)
    exact h.advances_push (Reading.Takes.escaped hescaped).take_eq (by rw [hk]; rfl) hbuffer
  | backslash =>
    have hescaped : (TextUnit.escaped c).Valid := .inr (CharKind.of_eq_backslash_iff.1 hk)
    exact h.advances_push (Reading.Takes.escaped hescaped).take_eq (by rw [hk]; rfl) hbuffer
  | blank | comma | letter | hyphen | digit | dot | other =>
    exact h.advances_fault (by rw [hk]; rfl) (by simp [Reading.take, hk])

theorem operate_number {n : NumberText} {x : Float} (item : Option Char) (line : Nat)
    (h : Decimal.literal? (String.ofList n.chars) = some x) :
    Sink.operate .number item ⟨String.ofList n.chars, none, line⟩ =
      (⟨"", some (.number x), line⟩, .ok ()) := by
  simp only [Sink.operate, h]

/-- The end of a number without digits is where the number is found malformed. -/
theorem advance_of_no_digits {n : NumberText} {tr : Transition CharClass LexAction 7}
    (h : s.Holds (.number n) cs) (hdigits : n.digits = [])
    (htr : s.run.enabled? s.rest.head? = some tr) (hactions : tr.actions = [.number]) :
    ∃ s' f, s.advance = (s', .error f) ∧ f.Lexical := by
  have hliteral := NumberText.literal?_chars h.valid
  rw [if_pos hdigits] at hliteral
  have hperform : Run.perform Sink.operate s.rest.head? tr.actions s.openSink =
      (⟨"", none, s.line⟩, .error (.malformedNumber (String.ofList n.chars) s.line)) := by
    simp only [hactions, h.sink_eq, Reading.buffer, Run.perform, Sink.operate, hliteral]
  obtain ⟨s', hadvance⟩ := advance_of_refused h.accepted htr hperform
  exact ⟨s', _, hadvance, .malformedNumber ..⟩

theorem advances_number_end {n : NumberText} (k : CharClass) (h : s.Holds (.number n) (c :: cs))
    (htake : (Reading.number n).take c =
      if n.digits = [] then none else some ([.number n, .separator c], .between))
    (htr : onKind (Reading.number n).index (.of c) =
      some ⟨k, [.number], .state (5 : Fin 7), true⟩) :
    Advances s c cs ((Reading.number n).take c) := by
  by_cases hdigits : n.digits = []
  · rw [htake, if_pos hdigits]
    obtain ⟨s', f, hadvance, hf⟩ :=
      h.advance_of_no_digits hdigits (h.enabled?_cons.trans htr) rfl
    exact .fault hadvance hf
  · rw [if_neg hdigits] at htake
    have hliteral := NumberText.literal?_chars h.valid
    rw [if_neg hdigits] at hliteral
    refine h.advances_emit htake htr (operate_number _ _ hliteral) ?_
    simp [Piece.token?, hliteral]

theorem advances_number {n : NumberText} (h : s.Holds (.number n) (c :: cs)) :
    Advances s c cs ((Reading.number n).take c) := by
  have hfault (htr : onKind (Reading.number n).index (.of c) = none)
      (htake : (Reading.number n).take c = none) := h.advances_fault htr htake
  cases hk : CharKind.of c with
  | digit =>
    have htake := (Reading.Takes.digit (n := n) (CharKind.of_eq_digit_iff.1 hk)).take_eq
    have hbuffer := NumberText.chars_push n c
    obtain ⟨negative, _ | ⟨d, whole⟩, _ | fraction⟩ := n <;>
      exact h.advances_push htake (by rw [hk]; rfl) hbuffer
  | dot =>
    obtain rfl := CharKind.of_eq_dot_iff.1 hk
    obtain ⟨negative, whole, fraction⟩ := n
    cases fraction with
    | some tail =>
      exact hfault (by rw [hk]; cases whole <;> rfl) (by simp [Reading.take, hk])
    | none =>
      have htake := (Reading.Takes.dot (n := ⟨negative, whole, none⟩) rfl).take_eq
      have hbuffer : (Reading.number ⟨negative, whole, some []⟩).buffer =
          (Reading.number ⟨negative, whole, none⟩).buffer ++ ['.'] := by
        simp [Reading.buffer, NumberText.chars, NumberText.dotted]
      cases whole <;> exact h.advances_push htake (by rw [hk]; rfl) hbuffer
  | blank =>
    refine h.advances_number_end .blank (by simp [Reading.take, hk]) ?_
    rw [hk]
    obtain ⟨negative, _ | ⟨d, whole⟩, _ | fraction⟩ := n <;> rfl
  | comma =>
    refine h.advances_number_end .comma (by simp [Reading.take, hk]) ?_
    rw [hk]
    obtain ⟨negative, _ | ⟨d, whole⟩, _ | fraction⟩ := n <;> rfl
  | letter | quote | backslash | hyphen | other =>
    refine hfault ?_ (by simp only [Reading.take, hk])
    rw [hk]
    obtain ⟨negative, _ | ⟨d, whole⟩, _ | fraction⟩ := n <;> rfl

/-- A step of the table is a step of the reader. -/
theorem advances_take (h : s.Holds r (c :: cs)) : Advances s c cs (r.take c) := by
  cases r with
  | between => exact h.advances_between
  | word letters => exact h.advances_word
  | text units => exact h.advances_text
  | escape units => exact h.advances_escape
  | number n => exact h.advances_number

/-- A quote opens a text. -/
theorem exists_holds_text (h : s.Holds .between ('"' :: cs)) :
    ∃ s', s.advance = (s', .ok none) ∧ s'.Holds (.text []) cs :=
  h.exists_advance_of_silent (by rw [CharKind.of_quote]; rfl) rfl nofun

/-- The streams behind the next character agree with their readings. -/
def Continues (cs : List Char) : Prop :=
  ∀ {s' : TokenStream wordTable} {next : Reading}, s'.Holds next cs →
    s'.Agrees (cs.length + 1) (next.scan cs)

theorem agrees_cons (h : s.Holds r (c :: cs)) (hcs : Continues cs) :
    s.Agrees (cs.length + 2) (r.scan (c :: cs)) := by
  have hstep := h.advances_take
  generalize htake : r.take c = taken at hstep
  cases hstep with
  | fault hadvance hf =>
    rw [Reading.scan, htake]
    exact .of_fault h.accepted hadvance hf
  | @taken s' token? ps next hadvance hs' hps =>
    rw [Reading.scan_cons_of_take htake]
    cases token? with
    | none =>
      have hagrees := (hcs hs').of_silent h.accepted hadvance (h.rest_lt hs') hps
      exact hagrees.mono (Nat.le_succ _)
    | some token => exact (hcs hs').of_token h.accepted hadvance hps
  | @left s' token ps hc hadvance hs' hps =>
    -- the reader has taken the quote already, the stream takes it with its next step
    subst hc
    rw [Reading.scan_cons_of_take htake]
    obtain ⟨s'', hadvance', hs''⟩ := hs'.exists_holds_text
    have hread := (hcs hs'').of_silent hs'.accepted hadvance' (hs'.rest_lt hs'')
      (List.filterMap_nil : [].filterMap Piece.token? = [])
    rw [Option.map_congr fun _ _ => List.nil_append _, Option.map_id'] at hread
    exact hread.of_token h.accepted hadvance hps

/-- What a step at the end of the text comes to if that completes the pieces `closed`. -/
inductive Ends (s : TokenStream wordTable) : Option (List Piece) → Prop
  | fault {s' : TokenStream wordTable} {f : GrammarFault} (advance : s.advance = (s', .error f))
      (lexical : f.Lexical) : Ends s none
  | finished {s' : TokenStream wordTable} (advance : s.advance = (s', .ok none))
      (accepted : s'.run.accepted = true) : Ends s (some [])
  | token {s' : TokenStream wordTable} {token : Token} {ps : List Piece}
      (advance : s.advance = (s', .ok (some token))) (holds : s'.Holds .between [])
      (tokens : ps.filterMap Piece.token? = [token]) : Ends s (some ps)

theorem exists_accepted (h : s.Holds .between []) :
    ∃ s', s.advance = (s', .ok none) ∧ s'.run.accepted = true := by
  have htr : s.run.enabled? s.rest.head? = some ⟨.empty, [], .accept, false⟩ := h.enabled?_nil
  have hidle : s.run.idle ≤ 1 := h.idle
  have hadvance := advance_of_performed h.accepted htr (Run.perform_nil ..)
    (show s.run.idle + 1 ≤ 7 by omega)
  rw [h.sink_eq] at hadvance
  exact ⟨_, hadvance, rfl⟩

theorem ends_token {a : LexAction} {token : Token} (h : s.Holds r []) (hpatience : r.patience = 0)
    (htr : atEnd r.index = some ⟨.empty, [a], .state (5 : Fin 7), false⟩)
    (hop : Sink.operate a s.rest.head? ⟨String.ofList r.buffer, none, s.line⟩ =
      (⟨"", some token, s.line⟩, .ok ()))
    (hps : ps.filterMap Piece.token? = [token]) : Ends s (some ps) := by
  obtain ⟨s', hadvance, hs'⟩ := h.exists_advance_of_keeping hpatience (h.enabled?_nil.trans htr) hop
  exact .token hadvance hs' hps

theorem ends_close (h : s.Holds r []) : Ends s r.close := by
  have hfault (htr : atEnd r.index = none) : Ends s none := by
    obtain ⟨s', seen, hadvance⟩ := advance_of_disabled h.accepted (h.enabled?_nil.trans htr)
    exact .fault hadvance (.violation ..)
  cases r with
  | between =>
    obtain ⟨s', hadvance, haccepted⟩ := h.exists_accepted
    exact .finished hadvance haccepted
  | word letters => exact h.ends_token rfl rfl rfl rfl
  | text units => exact hfault rfl
  | escape units => exact hfault rfl
  | number n =>
    have htr : atEnd (Reading.number n).index =
        some ⟨.empty, [.number], .state (5 : Fin 7), false⟩ := by
      obtain ⟨negative, _ | ⟨d, whole⟩, _ | fraction⟩ := n <;> rfl
    have hliteral := NumberText.literal?_chars h.valid
    rw [Reading.close]
    split_ifs at hliteral ⊢ with hdigits
    · obtain ⟨s', f, hadvance, hf⟩ :=
        h.advance_of_no_digits hdigits (h.enabled?_nil.trans htr) rfl
      exact .fault hadvance hf
    · refine h.ends_token rfl htr (operate_number _ _ hliteral) ?_
      simp [Piece.token?, hliteral]

theorem agrees_end_between (h : s.Holds .between []) (bound : Nat) :
    s.Agrees bound (some []) := by
  obtain ⟨s', hadvance, haccepted⟩ := h.exists_accepted
  exact .of_finished h.accepted hadvance haccepted

theorem agrees_nil (h : s.Holds r []) : s.Agrees 1 (r.scan []) := by
  have hstep := h.ends_close
  rw [Reading.scan]
  generalize r.close = closed at hstep
  cases hstep with
  | fault hadvance hf => exact .of_fault h.accepted hadvance hf
  | finished hadvance haccepted => exact .of_finished h.accepted hadvance haccepted
  | token hadvance hs' hps =>
    have hagrees := (hs'.agrees_end_between 0).of_token h.accepted hadvance hps
    rwa [Option.map_some, List.append_nil] at hagrees

/-- A stream that reads on from a reading yields the tokens of the pieces that it reads. -/
theorem agrees_scan (h : s.Holds r cs) : s.Agrees (cs.length + 1) (r.scan cs) := by
  induction cs generalizing s r with
  | nil => exact h.agrees_nil
  | cons c cs ih => exact h.agrees_cons ih

end Holds

end TokenStream

end FuzzyRules
