import FuzzyRules.Proofs.Words.Finality

/-!
# Lines of a text

The line of a token is counted by the line ends in front of its piece, also if a text goes over
several lines. A fault is reported on the line of the character that is out of place, or on the line
of the number that is malformed.
-/

namespace FuzzyRules

/-- The line on which the next character stands behind some others. -/
def lineBehind (cs : List Char) : Nat := 1 + cs.count '\n'

theorem lineBehind_append (cs ds : List Char) :
    lineBehind (cs ++ ds) = lineBehind cs + ds.count '\n' := by
  rw [lineBehind, lineBehind, List.count_append, Nat.add_assoc]

theorem lineBehind_append_of_not_mem (cs : List Char) {ds : List Char} (h : '\n' ∉ ds) :
    lineBehind (cs ++ ds) = lineBehind cs := by
  rw [lineBehind_append, List.count_eq_zero.2 h, Nat.add_zero]

/-- The tokens of the pieces behind some characters, each with the line that its piece begins on. -/
def lined (before : List Char) : List Piece → List (Token × Nat)
  | [] => []
  | p :: ps => (p.token?.map (·, lineBehind before)).toList ++ lined (before ++ p.chars) ps

theorem lined_append (before : List Char) (ps qs : List Piece) :
    lined before (ps ++ qs) = lined before ps ++ lined (before ++ ps.flatMap Piece.chars) qs := by
  induction ps generalizing before with
  | nil => simp [lined]
  | cons p ps ih => simp [lined, ih]

theorem map_fst_lined (before : List Char) (ps : List Piece) :
    (lined before ps).map Prod.fst = ps.filterMap Piece.token? := by
  induction ps generalizing before with
  | nil => rfl
  | cons p ps ih => cases hp : p.token? <;> simp [lined, hp, ih]

theorem lined_eq_nil {before : List Char} {ps : List Piece} (h : ps.filterMap Piece.token? = []) :
    lined before ps = [] := by
  rw [← map_fst_lined before] at h
  exact List.map_eq_nil_iff.1 h

theorem lined_of_tail {ps : List Piece} {token? : Option Token}
    (htail : ps.tail.filterMap Piece.token? = [])
    (htokens : ps.filterMap Piece.token? = token?.toList) (before : List Char) :
    lined before ps = (token?.map (·, lineBehind before)).toList := by
  cases ps with
  | nil =>
    cases token? with
    | none => rfl
    | some token => cases htokens
  | cons p ps =>
    rw [List.tail_cons] at htail
    rw [lined, lined_eq_nil htail, List.append_nil]
    rw [List.filterMap_cons, htail] at htokens
    have hfirst : p.token? = token? := by
      cases hp : p.token? with
      | none =>
        rw [hp] at htokens
        exact (Option.toList_eq_nil_iff.1 htokens.symm).symm
      | some first =>
        rw [hp] at htokens
        exact (Option.toList_eq_singleton_iff.1 htokens.symm).symm
    rw [hfirst]

/-- A text splits that begins with the characters, but the item behind them comes too early: with
the character no text goes on that splits, or the text ends there and does not split. -/
def Derails (before : List Char) (item : Option Char) : Prop :=
  (∃ more ps, Splits (before ++ more) ps) ∧
    match item with
    | some c => ∀ more ps, ¬ Splits (before ++ c :: more) ps
    | none => ∀ ps, ¬ Splits before ps

/-- How the tokens of a text end behind the pieces that it begins with: with its end, at the first
character with which no text goes on that splits, or with a number without digits. -/
inductive Ended (source : List Char) (ps : List Piece) :
    List Char → Except GrammarFault Nat → Prop
  | finish (line : Nat) : Ended source ps [] (.ok line)
  | violation {before after rest : List Char} (state : String)
      (source_eq : source = before ++ after) (derails : Derails before after.head?) :
      Ended source ps rest (.error
        (.violation wordTable.name state (HasExcerpt.excerpt after.head?) (lineBehind before)))
  | malformedNumber {n : NumberText} {behind : List Char} (plain : n.Plain) (digits : n.digits = [])
      (ends : (Piece.number n).EndsBefore behind) : Ended source ps (n.chars ++ behind)
        (.error (.malformedNumber (String.ofList n.chars) (lineBehind (ps.flatMap Piece.chars))))

theorem Ended.grammar_eq {source rest : List Char} {ps : List Piece} {grammar state : String}
    {seen : Excerpt} {line : Nat}
    (h : Ended source ps rest (.error (.violation grammar state seen line))) :
    grammar = wordTable.name := by
  cases h
  rfl

/-- The table makes a number only in the states of numbers, of an item that ends one. -/
theorem number_wordTable : ∀ i : Fin 7, ∀ tr ∈ (wordTable.row i).transitions,
    tr.actions = [.number] → (i = 1 ∨ i = 2 ∨ i = 4) ∧
      (tr.itemClass = .blank ∨ tr.itemClass = .comma ∨ tr.itemClass = .empty) := by
  decide

theorem NumberText.not_mem_chars {n : NumberText} (h : n.Plain) : '\n' ∉ n.chars := by
  have hdigits : '\n' ∉ n.digits := fun hmem => absurd (h _ hmem) (by decide)
  obtain ⟨negative, whole, fraction⟩ := n
  cases negative <;> cases fraction <;>
    simpa [chars, digits, dotted] using hdigits

namespace Reading

variable {r next : Reading} {c : Char} {ps : List Piece}

theorem not_mem_letters {letters : List Char} (h : ∀ c ∈ letters, Text.isLetter c = true) :
    '\n' ∉ letters := by
  intro hmem
  have hblank : Text.isBlank '\n' = true := by decide +kernel
  have hletter := h _ hmem
  rw [CharKind.isLetter_of_isBlank hblank] at hletter
  cases hletter

/-- Before a character of the token is in the sink, none of the piece ends a line. -/
theorem not_mem_chars (h : r.buffer = []) : '\n' ∉ r.chars := by
  cases r with
  | between => exact List.not_mem_nil
  | word letters =>
    cases h
    exact List.not_mem_nil
  | text units =>
    obtain rfl := List.map_eq_nil_iff.1 h
    decide
  | escape units =>
    obtain rfl := List.map_eq_nil_iff.1 h
    decide
  | number n =>
    have hchars : n.chars = [] := h
    rw [chars, hchars]
    exact List.not_mem_nil

/-- Only separators are completed together with the piece of a token, and behind it. -/
theorem tail_of_take (h : r.take c = some (ps, next)) : ps.tail.filterMap Piece.token? = [] := by
  cases takes_of_take h with
  | endWord | endNumber => rfl
  | separator | quoteBehindWord | endText => rfl
  | beginWord | beginText | beginNegative | beginNumber | beginFraction | letter | backslash | plain
  | escaped | digit | dot => rfl

theorem tail_of_close (h : r.close = some ps) : ps.tail = [] := by
  cases r with
  | number n =>
    simp only [close] at h
    split_ifs at h
    cases h
    rfl
  | _ => cases h <;> rfl

/-- No line ends in what is completed in front of a piece under way. That is a word at most. -/
theorem not_mem_of_take (hvalid : r.Valid) (h : r.take c = some (ps, next))
    (hnext : next ≠ .between) : '\n' ∉ ps.flatMap Piece.chars := by
  cases takes_of_take h with
  | separator | endWord | endText | endNumber => exact absurd rfl hnext
  | quoteBehindWord => simpa [Piece.chars] using not_mem_letters hvalid.2
  | beginWord | beginText | beginNegative | beginNumber | beginFraction | letter | backslash | plain
  | escaped | digit | dot => exact List.not_mem_nil

theorem isBlank_of_take (h : between.take c = some (ps, next)) (hnext : next ≠ .between) :
    Text.isBlank c = false := by
  cases hblank : Text.isBlank c with
  | false => rfl
  | true =>
    rw [(Takes.separator (.inl hblank)).take_eq] at h
    cases h
    exact absurd rfl hnext

theorem ne_between_of_take {token : Token} (h : r.take c = some (ps, next))
    (htokens : ps.filterMap Piece.token? = [token]) : r ≠ .between := by
  rintro rfl
  cases takes_of_take h with
  | separator | beginWord | beginText | beginNegative | beginNumber | beginFraction =>
    cases htokens

theorem ne_between_of_close {token : Token} (h : r.close = some ps)
    (htokens : ps.filterMap Piece.token? = [token]) : r ≠ .between := by
  rintro rfl
  cases h
  cases htokens

theorem exists_number_of_index (h : r.index = 1 ∨ r.index = 2 ∨ r.index = 4) :
    ∃ n, r = .number n := by
  cases r with
  | number n => exact ⟨n, rfl⟩
  | _ => simp [index] at h

/-- A reader that begins with the pieces reads on from the reading behind them. -/
def Resumes (ps : List Piece) (r : Reading) : Prop :=
  ∀ rest, between.scan (ps.flatMap Piece.chars ++ (r.chars ++ rest)) = (r.scan rest).map (ps ++ ·)

theorem resumes_between : Resumes [] between := fun rest => by simp [chars]

namespace Resumes

variable {qs : List Piece}

theorem of_take (h : r.Resumes ps) (hvalid : r.Valid) (htake : r.take c = some (qs, next)) :
    next.Resumes (ps ++ qs) := by
  intro rest
  have hbegins := begins_of_take hvalid htake rest
  rw [List.flatMap_append, List.append_assoc, ← hbegins.eq_append, h, scan_cons_of_take htake,
    Option.map_map]
  simp only [Function.comp_def, List.append_assoc]

theorem exists_splits (h : r.Resumes ps) :
    ∃ more qs, Splits (ps.flatMap Piece.chars ++ r.chars ++ more) qs := by
  obtain ⟨more, qs, hscan⟩ := r.exists_scan
  refine ⟨more, ps ++ qs, scan_eq_some_iff.1 ?_⟩
  rw [List.append_assoc, h, hscan]
  rfl

theorem derails_cons (h : r.Resumes ps) (htake : r.take c = none) :
    Derails (ps.flatMap Piece.chars ++ r.chars) (some c) := by
  refine ⟨h.exists_splits, fun more qs hsplits => ?_⟩
  rw [← scan_eq_some_iff, List.append_assoc, h, scan, htake] at hsplits
  cases hsplits

theorem derails_nil (h : r.Resumes ps) (hclose : r.close = none) :
    Derails (ps.flatMap Piece.chars ++ r.chars) none := by
  refine ⟨h.exists_splits, fun qs hsplits => ?_⟩
  have hscan := h []
  rw [List.append_nil, scan, hclose, scan_of_splits hsplits] at hscan
  cases hscan

end Resumes

end Reading

namespace TokenStream

/-- Where the sink holds no number, making one is refused at the end of a number without digits. -/
theorem Holds.exists_number {s : TokenStream wordTable} {r : Reading} {cs : List Char}
    {tr : Transition CharClass LexAction 7} (h : s.Holds r cs)
    (henabled : s.run.enabled? s.rest.head? = some tr) (hnumber : tr.actions = [.number])
    (hliteral : Decimal.literal? s.openSink.buffer = none) :
    ∃ n, r = .number n ∧ n.digits = [] ∧ (Piece.number n).EndsBefore cs := by
  rw [Run.enabled?, h.state, h.rest] at henabled
  obtain ⟨hindex, hclass⟩ := number_wordTable _ tr (List.mem_of_find?_eq_some henabled) hnumber
  obtain ⟨n, rfl⟩ := Reading.exists_number_of_index hindex
  have hbuffer : s.openSink.buffer = String.ofList n.chars := h.buffer
  refine ⟨n, rfl, ?_, fun c hc => ?_⟩
  · by_contra hdigits
    rw [hbuffer, NumberText.literal?_chars h.valid, if_neg hdigits] at hliteral
    cases hliteral
  · have hadmits := List.find?_some henabled
    rw [Option.mem_def.1 hc] at hadmits
    rcases hclass with hclass | hclass | hclass <;> rw [hclass] at hadmits
    · exact .inl hadmits
    · exact .inr (beq_iff_eq.1 hadmits)
    · cases hadmits

/-- A stream that reads on from a reading, with the line that it has come to and the line on which
the piece under way begins. -/
structure Placed (s : TokenStream wordTable) (before : List Char) (r : Reading)
    (cs : List Char) : Prop extends s.Holds r cs where
  line : s.line = lineBehind (before ++ r.chars)
  tokenLine : r = .between ∨ s.tokenLine = lineBehind before

namespace Placed

variable {s s' : TokenStream wordTable} {before before' cs cs' : List Char} {c : Char}
  {r next : Reading} {ps : List Piece} {result : Except GrammarFault (Option Token)}

theorem nextTokenLine_eq (h : s.Placed before r cs)
    (hopens : r = .between → s.beginsToken = true) : s.nextTokenLine = lineBehind before := by
  rw [nextTokenLine]
  split
  · rename_i hbegins
    have hempty : s.sink.buffer = "" := by
      simp only [beginsToken, Bool.and_eq_true, beq_iff_eq] at hbegins
      exact hbegins.1
    have hbuffer : r.buffer = [] := String.ofList_eq_empty_iff.1 (h.buffer.symm.trans hempty)
    rw [h.line, lineBehind_append_of_not_mem _ (Reading.not_mem_chars hbuffer)]
  · rename_i hbegins
    exact h.tokenLine.resolve_left fun hr => hbegins (hopens hr)

theorem of_advance (h : s.Placed before r cs) (hadvance : s.advance = (s', result))
    (hs' : s'.Holds next cs') (hchars : before ++ r.chars ++ cs = before' ++ next.chars ++ cs')
    (htoken : next = .between ∨ s.nextTokenLine = lineBehind before') :
    s'.Placed before' next cs' := by
  obtain ⟨skipped, hrest, hline, htokenLine⟩ := s.advance_passes
  rw [hadvance] at hrest hline htokenLine
  refine ⟨hs', ?_, htoken.imp_right htokenLine.trans⟩
  rw [← h.rest, hrest, hs'.rest, ← List.append_assoc] at hchars
  rw [hline, h.line, ← lineBehind_append, List.append_cancel_right hchars]

/-- A character begins a token if a piece is under way behind it. -/
theorem beginsToken_of_take (h : s.Placed before .between (c :: cs))
    (htake : Reading.between.take c = some (ps, next)) (hnext : next ≠ .between) :
    s.beginsToken = true := by
  have hbuffer : s.sink.buffer = "" := h.buffer
  simp [beginsToken, hbuffer, h.rest, Reading.isBlank_of_take htake hnext]

theorem of_take (h : s.Placed before r (c :: cs)) (htake : r.take c = some (ps, next))
    (hadvance : s.advance = (s', result)) (hs' : s'.Holds next cs) :
    s'.Placed (before ++ ps.flatMap Piece.chars) next cs := by
  have hbegins := Reading.begins_of_take h.valid htake cs
  refine h.of_advance hadvance hs' ?_ ?_
  · simp only [List.append_assoc, hbegins.eq_append]
  · by_cases hnext : next = .between
    · exact .inl hnext
    · rw [lineBehind_append_of_not_mem _ (Reading.not_mem_of_take h.valid htake hnext)]
      refine .inr (h.nextTokenLine_eq fun hr => ?_)
      subst hr
      exact h.beginsToken_of_take htake hnext

end Placed

/-- A stream of the text that has completed the pieces and reads on behind them. -/
structure Midway (source : List Char) (s : TokenStream wordTable) (ps : List Piece) (r : Reading)
    (cs : List Char) : Prop where
  placed : s.Placed (ps.flatMap Piece.chars) r cs
  begins : Begins source ps (r.chars ++ cs)
  resumes : r.Resumes ps

/-- The stream goes on with the tokens of the pieces behind the first ones. -/
def Finds (source : List Char) (s : TokenStream wordTable) (ps : List Piece) : Prop :=
  ∃ l ending qs rest, s.Yields l ending ∧ Begins source (ps ++ qs) rest ∧
    l = lined (ps.flatMap Piece.chars) qs ∧ Ended source (ps ++ qs) rest ending

namespace Finds

variable {source : List Char} {s s' : TokenStream wordTable} {ps qs : List Piece}

theorem of_finished (hs : s.run.accepted = false) (h : s.advance = (s', .ok none))
    (hs' : s'.run.accepted = true) (hbegins : Begins source ps []) : Finds source s ps := by
  rw [← List.append_nil ps] at hbegins
  exact ⟨[], _, [], [], .finish (next_of_accepting hs h hs') hs', hbegins, rfl, .finish _⟩

theorem of_silent (hs : s.run.accepted = false) (h : s.advance = (s', .ok none))
    (hrest : s'.rest.length < s.rest.length) (hqs : lined (ps.flatMap Piece.chars) qs = [])
    (hfinds : Finds source s' (ps ++ qs)) : Finds source s ps := by
  obtain ⟨l, ending, more, rest, hyields, hbegins, hl, hended⟩ := hfinds
  rw [List.append_assoc] at hbegins hended
  refine ⟨l, ending, qs ++ more, rest, hyields.of_silent hs h hrest, hbegins, ?_, hended⟩
  rw [lined_append, hqs, hl, List.flatMap_append, List.nil_append]

theorem of_token {tok : Token} (hs : s.run.accepted = false) (h : s.advance = (s', .ok (some tok)))
    (htokens : qs.filterMap Piece.token? = [tok])
    (hqs : lined (ps.flatMap Piece.chars) qs = [(tok, s'.tokenLine)])
    (hfinds : Finds source s' (ps ++ qs)) : Finds source s ps := by
  obtain ⟨l, ending, more, rest, hyields, hbegins, hl, hended⟩ := hfinds
  rw [List.append_assoc] at hbegins hended
  have hproper : tok ≠ .finish := Piece.ne_finish_of_mem (htokens ▸ List.mem_singleton_self tok)
  refine ⟨_, ending, qs ++ more, rest, .token (next_of_token hs h) hproper hyields, hbegins, ?_,
    hended⟩
  rw [lined_append, hqs, hl, List.flatMap_append, List.singleton_append]

end Finds

theorem midway_ofText (source : String) :
    Midway source.toList (ofText wordTable source) [] .between source.toList where
  placed := ⟨holds_ofText source, rfl, .inl rfl⟩
  begins := .nil _
  resumes := Reading.resumes_between

namespace Midway

variable {source : List Char} {s s' : TokenStream wordTable} {ps qs : List Piece}
  {r next : Reading} {c : Char} {cs : List Char}

theorem of_take (h : Midway source s ps r (c :: cs)) (htake : r.take c = some (qs, next))
    (hplaced : s'.Placed (ps.flatMap Piece.chars ++ qs.flatMap Piece.chars) next cs) :
    Midway source s' (ps ++ qs) next cs where
  placed := by rwa [List.flatMap_append]
  begins := h.begins.trans (Reading.begins_of_take h.placed.valid htake cs)
  resumes := h.resumes.of_take h.placed.valid htake

theorem ended_of_fault {fault : GrammarFault} (h : Midway source s ps r cs)
    (hadvance : s.advance = (s', .error fault))
    (hderails : Derails (ps.flatMap Piece.chars ++ r.chars) cs.head?) :
    Ended source ps (r.chars ++ cs) (.error fault) := by
  have hsource : source = ps.flatMap Piece.chars ++ r.chars ++ cs := by
    rw [h.begins.eq_append, List.append_assoc]
  have hhead : s.rest.head? = cs.head? := congrArg List.head? h.placed.rest
  obtain ⟨run, sink, cause, hfails, -, rfl⟩ := exists_fails_of_advance hadvance
  cases hfails with
  | violation =>
    rw [h.placed.line, hhead]
    exact .violation _ hsource hderails
  | @refused tr before behind a s₁ _ _ enabled actions performed refused =>
    obtain ⟨hnumber, rfl, hliteral, -, rfl⟩ := number_of_refused enabled actions refused
    cases performed
    obtain ⟨n, rfl, hdigits, hends⟩ := h.placed.exists_number enabled hnumber hliteral
    have hplain : n.Plain := h.placed.valid
    have hbuffer : s.openSink.buffer = String.ofList n.chars := h.placed.buffer
    have hline : s.openSink.line = lineBehind (ps.flatMap Piece.chars) :=
      h.placed.line.trans (lineBehind_append_of_not_mem _ (NumberText.not_mem_chars hplain))
    rw [hbuffer, hline]
    exact .malformedNumber hplain hdigits hends
  | stalled _ _ _ idle =>
    exact absurd (idle.trans (h.placed.idle.trans r.patience_le_one)) (by decide)

theorem finds_of_fault {fault : GrammarFault} (h : Midway source s ps r cs)
    (hadvance : s.advance = (s', .error fault))
    (hderails : Derails (ps.flatMap Piece.chars ++ r.chars) cs.head?) : Finds source s ps := by
  refine ⟨[], _, [], r.chars ++ cs, .fault (next_of_fault h.placed.accepted hadvance), ?_, rfl, ?_⟩
  · rw [List.append_nil]
    exact h.begins
  · rw [List.append_nil]
    exact h.ended_of_fault hadvance hderails

/-- A token is yielded with the line that the piece under way begins on. -/
theorem lined_of_token {token : Token} {result : Except GrammarFault (Option Token)}
    (h : Midway source s ps r cs) (hadvance : s.advance = (s', result)) (hr : r ≠ .between)
    (htail : qs.tail.filterMap Piece.token? = []) (htokens : qs.filterMap Piece.token? = [token]) :
    lined (ps.flatMap Piece.chars) qs = [(token, s'.tokenLine)] := by
  obtain ⟨-, -, -, htokenLine⟩ := s.advance_passes
  rw [hadvance, h.placed.nextTokenLine_eq fun h => absurd h hr] at htokenLine
  have hsome : qs.filterMap Piece.token? = (some token).toList := htokens
  rw [htokenLine]
  exact lined_of_tail htail hsome _

/-- The streams behind the next character find the tokens of what comes. -/
def Continues (source cs : List Char) : Prop :=
  ∀ {s : TokenStream wordTable} {ps : List Piece} {r : Reading}, Midway source s ps r cs →
    Finds source s ps

theorem finds_cons (h : Midway source s ps r (c :: cs)) (hcs : Continues source cs) :
    Finds source s ps := by
  have hstep := h.placed.advances_take
  generalize htake : r.take c = taken at hstep
  cases hstep with
  | fault hadvance => exact h.finds_of_fault hadvance (h.resumes.derails_cons htake)
  | @taken s' token? qs next hadvance hs' htokens =>
    have h' := h.of_take htake (h.placed.of_take htake hadvance hs')
    have htail := Reading.tail_of_take htake
    cases token? with
    | none =>
      have hqs := lined_of_tail htail htokens (ps.flatMap Piece.chars)
      exact (hcs h').of_silent h.placed.accepted hadvance (h.placed.rest_lt hs') hqs
    | some token =>
      have hr := Reading.ne_between_of_take htake htokens
      have hqs := h.lined_of_token hadvance hr htail htokens
      exact (hcs h').of_token h.placed.accepted hadvance htokens hqs
  | @left s' token qs hc hadvance hs' htokens =>
    -- the reader has taken the quote already, the stream takes it with its next step
    subst hc
    obtain ⟨s'', hopens, hs''⟩ := hs'.exists_holds_text
    have hopening := Reading.Takes.beginText.take_eq
    have hbegins := Reading.begins_of_take h.placed.valid htake cs
    have hchars : ps.flatMap Piece.chars ++ r.chars ++ '"' :: cs =
        ps.flatMap Piece.chars ++ qs.flatMap Piece.chars ++ [] ++ '"' :: cs := by
      rw [List.append_assoc, hbegins.eq_append, List.append_nil, List.append_assoc]
      rfl
    have hquote := h.placed.of_advance hadvance hs' hchars (.inl rfl)
    have hplaced := hquote.of_take hopening hopens hs''
    rw [List.flatMap_nil, List.append_nil] at hplaced
    have hfinds := hcs (h.of_take htake hplaced)
    rw [← List.append_nil (ps ++ qs)] at hfinds
    have hqs := h.lined_of_token hadvance (Reading.ne_between_of_take htake htokens)
      (Reading.tail_of_take htake) htokens
    exact (hfinds.of_silent hs'.accepted hopens (hs'.rest_lt hs'') rfl).of_token h.placed.accepted
      hadvance htokens hqs

theorem finds_nil (h : Midway source s ps r []) : Finds source s ps := by
  have hstep := h.placed.ends_close
  generalize hclose : r.close = closed at hstep
  have hbegins := h.begins
  rw [List.append_nil] at hbegins
  cases hstep with
  | fault hadvance => exact h.finds_of_fault hadvance (h.resumes.derails_nil hclose)
  | finished hadvance haccepted =>
    have hall := hbegins.trans (Reading.begins_of_close h.placed.valid hclose)
    rw [List.append_nil] at hall
    exact .of_finished h.placed.accepted hadvance haccepted hall
  | @token s' token qs hadvance hs' htokens =>
    have hall := hbegins.trans (Reading.begins_of_close h.placed.valid hclose)
    obtain ⟨s'', hfinishes, haccepted⟩ := hs'.exists_accepted
    have hqs := h.lined_of_token hadvance (Reading.ne_between_of_close hclose htokens)
      (by rw [Reading.tail_of_close hclose]; rfl) htokens
    have hfinds := Finds.of_finished hs'.accepted hfinishes haccepted hall
    exact hfinds.of_token h.placed.accepted hadvance htokens hqs

end Midway

theorem finds_of_midway {source cs : List Char} {s : TokenStream wordTable} {ps : List Piece}
    {r : Reading} (h : Midway source s ps r cs) : Finds source s ps := by
  induction cs generalizing s ps r with
  | nil => exact h.finds_nil
  | cons c cs ih => exact h.finds_cons ih

/-- The tokens of a text are those of the pieces that it begins with, each on the line that its
piece begins on. -/
theorem exists_yields_lined (source : String) : ∃ l ending ps rest,
    (ofText wordTable source).Yields l ending ∧ Begins source.toList ps rest ∧
      l = lined [] ps ∧ Ended source.toList ps rest ending := by
  obtain ⟨l, ending, ps, rest, h⟩ := finds_of_midway (midway_ofText source)
  rw [List.nil_append] at h
  exact ⟨l, ending, ps, rest, h⟩

end TokenStream

end FuzzyRules
