import FuzzyRules.Proofs.Words.Characters
import FuzzyRules.Proofs.Words.Pieces

/-!
# Reading pieces

A reader goes through a text character by character and remembers the piece under way. The pieces
it reads are those that the text splits into, so there is at most one way to split a text.
-/

namespace FuzzyRules

/-- The piece under way. -/
inductive Reading where
  | between
  | word (letters : List Char)
  | text (units : List TextUnit)
  | escape (units : List TextUnit)
  | number (n : NumberText)

namespace NumberText

def push (n : NumberText) (c : Char) : NumberText :=
  match n.fraction with
  | none => { n with whole := n.whole ++ [c] }
  | some digits => { n with fraction := some (digits ++ [c]) }

theorem chars_push (n : NumberText) (c : Char) : (n.push c).chars = n.chars ++ [c] := by
  unfold push chars
  cases n.fraction <;> simp [dotted]

theorem digits_push (n : NumberText) (c : Char) : (n.push c).digits = n.digits ++ [c] := by
  unfold push digits
  cases n.fraction <;> simp

theorem foldl_push_whole (negative : Bool) (before digits : List Char) :
    digits.foldl push ⟨negative, before, none⟩ = ⟨negative, before ++ digits, none⟩ := by
  induction digits generalizing before with
  | nil => simp
  | cons c digits ih => simp [push, ih]

theorem foldl_push_fraction (negative : Bool) (whole before digits : List Char) :
    digits.foldl push ⟨negative, whole, some before⟩ =
      ⟨negative, whole, some (before ++ digits)⟩ := by
  induction digits generalizing before with
  | nil => simp
  | cons c digits ih => simp [push, ih]

end NumberText

namespace Reading

/-- The pieces that a character completes, and what is under way behind it. -/
def take : Reading → Char → Option (List Piece × Reading)
  | between, c =>
    match CharKind.of c with
    | .blank | .comma => some ([.separator c], between)
    | .letter => some ([], word [c])
    | .quote => some ([], text [])
    | .hyphen => some ([], number ⟨true, [], none⟩)
    | .digit => some ([], number ⟨false, [c], none⟩)
    | .dot => some ([], number ⟨false, [], some []⟩)
    | _ => none
  | word letters, c =>
    match CharKind.of c with
    | .letter => some ([], word (letters ++ [c]))
    | .blank | .comma => some ([.word letters, .separator c], between)
    | .quote => some ([.word letters], text [])
    | _ => none
  | text units, c =>
    match CharKind.of c with
    | .quote => some ([.text units], between)
    | .backslash => some ([], escape units)
    | _ => some ([], text (units ++ [.plain c]))
  | escape units, c =>
    match CharKind.of c with
    | .quote | .backslash => some ([], text (units ++ [.escaped c]))
    | _ => none
  | number n, c =>
    match CharKind.of c with
    | .digit => some ([], number (n.push c))
    | .dot => if n.fraction = none then some ([], number { n with fraction := some [] }) else none
    | .blank | .comma => if n.digits = [] then none else some ([.number n, .separator c], between)
    | _ => none

/-- The piece that the end of the text completes. -/
def close : Reading → Option (List Piece)
  | between => some []
  | word letters => some [.word letters]
  | text _ => none
  | escape _ => none
  | number n => if n.digits = [] then none else some [.number n]

/-- The pieces of a text that is read on from a reading. -/
def scan (r : Reading) : List Char → Option (List Piece)
  | [] => r.close
  | c :: rest =>
    match r.take c with
    | none => none
    | some (ps, next) => (next.scan rest).map (ps ++ ·)

/-- The characters of the piece under way. -/
def chars : Reading → List Char
  | between => []
  | word letters => letters
  | text units => '"' :: units.flatMap TextUnit.chars
  | escape units => '"' :: units.flatMap TextUnit.chars ++ ['\\']
  | number n => n.chars

def Valid : Reading → Prop
  | between => True
  | word letters => letters ≠ [] ∧ ∀ c ∈ letters, Text.isLetter c = true
  | text units => ∀ u ∈ units, u.Valid
  | escape units => ∀ u ∈ units, u.Valid
  | number n => n.Plain

theorem scan_cons_of_take {r next : Reading} {c : Char} {ps : List Piece}
    (h : r.take c = some (ps, next)) (rest : List Char) :
    r.scan (c :: rest) = (next.scan rest).map (ps ++ ·) := by
  rw [scan, h]

theorem scan_cons_silent {r next : Reading} {c : Char} (h : r.take c = some ([], next))
    (rest : List Char) : r.scan (c :: rest) = next.scan rest := by
  rw [scan_cons_of_take h]
  cases next.scan rest <;> rfl

theorem isSeparator_iff {c : Char} :
    IsSeparator c ↔ CharKind.of c = .blank ∨ CharKind.of c = .comma := by
  rw [IsSeparator, CharKind.of_eq_blank_iff, CharKind.of_eq_comma_iff]

theorem begins_separator {c : Char} (hc : IsSeparator c) (rest : List Char) :
    Begins (c :: rest) [.separator c] rest :=
  .singleton (p := .separator c) hc trivial

theorem splits_separator {c : Char} {rest : List Char} {ps : List Piece} (hc : IsSeparator c)
    (h : Splits rest ps) : Splits (c :: rest) (.separator c :: ps) :=
  (begins_separator hc rest).splits_append h

theorem begins_text {units : List TextUnit} (hunits : ∀ u ∈ units, u.Valid) (rest : List Char) :
    Begins ('"' :: units.flatMap TextUnit.chars ++ '"' :: rest) [.text units] rest := by
  have hbegins : Begins ((Piece.text units).chars ++ rest) [.text units] rest :=
    .singleton hunits trivial
  simpa [Piece.chars] using hbegins

theorem begins_word {letters rest : List Char}
    (hletters : letters ≠ [] ∧ ∀ c ∈ letters, Text.isLetter c = true)
    (hends : ∀ c ∈ rest.head?, IsSeparator c ∨ c = '"') :
    Begins (letters ++ rest) [.word letters] rest :=
  .singleton (p := .word letters) hletters hends

theorem begins_number {n : NumberText} {rest : List Char} (hn : n.Valid)
    (hends : ∀ c ∈ rest.head?, IsSeparator c) : Begins (n.chars ++ rest) [.number n] rest :=
  .singleton (p := .number n) hn hends

/-- What a reader does with a character: it completes some pieces, and another one is under way. -/
inductive Takes : Reading → Char → List Piece → Reading → Prop
  | separator {c : Char} (hc : IsSeparator c) : Takes between c [.separator c] between
  | beginWord {c : Char} (hc : Text.isLetter c = true) : Takes between c [] (word [c])
  | beginText : Takes between '"' [] (text [])
  | beginNegative : Takes between '-' [] (number ⟨true, [], none⟩)
  | beginNumber {c : Char} (hc : c.isDigit = true) :
      Takes between c [] (number ⟨false, [c], none⟩)
  | beginFraction : Takes between '.' [] (number ⟨false, [], some []⟩)
  | letter {letters : List Char} {c : Char} (hc : Text.isLetter c = true) :
      Takes (word letters) c [] (word (letters ++ [c]))
  | endWord {letters : List Char} {c : Char} (hc : IsSeparator c) :
      Takes (word letters) c [.word letters, .separator c] between
  | quoteBehindWord {letters : List Char} : Takes (word letters) '"' [.word letters] (text [])
  | endText {units : List TextUnit} : Takes (text units) '"' [.text units] between
  | backslash {units : List TextUnit} : Takes (text units) '\\' [] (escape units)
  | plain {units : List TextUnit} {c : Char} (hc : (TextUnit.plain c).Valid) :
      Takes (text units) c [] (text (units ++ [.plain c]))
  | escaped {units : List TextUnit} {c : Char} (hc : (TextUnit.escaped c).Valid) :
      Takes (escape units) c [] (text (units ++ [.escaped c]))
  | digit {n : NumberText} {c : Char} (hc : c.isDigit = true) :
      Takes (number n) c [] (number (n.push c))
  | dot {n : NumberText} (hn : n.fraction = none) :
      Takes (number n) '.' [] (number { n with fraction := some [] })
  | endNumber {n : NumberText} {c : Char} (hc : IsSeparator c) (hn : n.digits ≠ []) :
      Takes (number n) c [.number n, .separator c] between

theorem take_text_of_plain {units : List TextUnit} {c : Char} (hc : (TextUnit.plain c).Valid) :
    (text units).take c = some ([], text (units ++ [.plain c])) := by
  cases hk : CharKind.of c with
  | quote => exact absurd (CharKind.of_eq_quote_iff.1 hk) hc.1
  | backslash => exact absurd (CharKind.of_eq_backslash_iff.1 hk) hc.2
  | blank | comma | letter | hyphen | digit | dot | other => simp only [take, hk]

theorem take_escape_of_not_escaped {units : List TextUnit} {c : Char}
    (hc : ¬ (TextUnit.escaped c).Valid) : (escape units).take c = none := by
  cases hk : CharKind.of c with
  | quote => exact absurd (.inl (CharKind.of_eq_quote_iff.1 hk)) hc
  | backslash => exact absurd (.inr (CharKind.of_eq_backslash_iff.1 hk)) hc
  | blank | comma | letter | hyphen | digit | dot | other => simp only [take, hk]

theorem Takes.take_eq {r next : Reading} {c : Char} {ps : List Piece} (h : Takes r c ps next) :
    r.take c = some (ps, next) := by
  cases h with
  | separator hc => rcases isSeparator_iff.1 hc with hk | hk <;> simp only [take, hk]
  | beginWord hc => simp only [take, CharKind.of_eq_letter_iff.2 hc]
  | beginText => simp only [take, CharKind.of_quote]
  | beginNegative => simp only [take, CharKind.of_hyphen]
  | beginNumber hc => simp only [take, CharKind.of_eq_digit_iff.2 hc]
  | beginFraction => simp only [take, CharKind.of_dot]
  | letter hc => simp only [take, CharKind.of_eq_letter_iff.2 hc]
  | endWord hc => rcases isSeparator_iff.1 hc with hk | hk <;> simp only [take, hk]
  | quoteBehindWord => simp only [take, CharKind.of_quote]
  | endText => simp only [take, CharKind.of_quote]
  | backslash => simp only [take, CharKind.of_backslash]
  | plain hc => exact take_text_of_plain hc
  | escaped hc =>
    rcases hc with rfl | rfl
    · simp only [take, CharKind.of_quote]
    · simp only [take, CharKind.of_backslash]
  | digit hc => simp only [take, CharKind.of_eq_digit_iff.2 hc]
  | dot hn => simp only [take, CharKind.of_dot, hn, if_true]
  | endNumber hc hn =>
    rcases isSeparator_iff.1 hc with hk | hk <;> simp only [take, hk, if_neg hn]

theorem takes_of_take_between {c : Char} {ps : List Piece} {next : Reading}
    (h : between.take c = some (ps, next)) : Takes between c ps next := by
  cases hk : CharKind.of c <;> simp only [take, hk] at h <;> cases h
  case blank => exact .separator (isSeparator_iff.2 (.inl hk))
  case comma => exact .separator (isSeparator_iff.2 (.inr hk))
  case letter => exact .beginWord (CharKind.of_eq_letter_iff.1 hk)
  case quote =>
    obtain rfl := CharKind.of_eq_quote_iff.1 hk
    exact .beginText
  case hyphen =>
    obtain rfl := CharKind.of_eq_hyphen_iff.1 hk
    exact .beginNegative
  case digit => exact .beginNumber (CharKind.of_eq_digit_iff.1 hk)
  case dot =>
    obtain rfl := CharKind.of_eq_dot_iff.1 hk
    exact .beginFraction

theorem takes_of_take_word {letters : List Char} {c : Char} {ps : List Piece} {next : Reading}
    (h : (word letters).take c = some (ps, next)) : Takes (word letters) c ps next := by
  cases hk : CharKind.of c <;> simp only [take, hk] at h <;> cases h
  case blank => exact .endWord (isSeparator_iff.2 (.inl hk))
  case comma => exact .endWord (isSeparator_iff.2 (.inr hk))
  case letter => exact .letter (CharKind.of_eq_letter_iff.1 hk)
  case quote =>
    obtain rfl := CharKind.of_eq_quote_iff.1 hk
    exact .quoteBehindWord

theorem takes_of_take_text {units : List TextUnit} {c : Char} {ps : List Piece} {next : Reading}
    (h : (text units).take c = some (ps, next)) : Takes (text units) c ps next := by
  by_cases hq : c = '"'
  · subst hq
    rw [Takes.endText.take_eq] at h
    cases h
    exact .endText
  by_cases hb : c = '\\'
  · subst hb
    rw [Takes.backslash.take_eq] at h
    cases h
    exact .backslash
  · rw [take_text_of_plain ⟨hq, hb⟩] at h
    cases h
    exact .plain ⟨hq, hb⟩

theorem takes_of_take_escape {units : List TextUnit} {c : Char} {ps : List Piece}
    {next : Reading} (h : (escape units).take c = some (ps, next)) :
    Takes (escape units) c ps next := by
  by_cases hc : (TextUnit.escaped c).Valid
  · rw [(Takes.escaped hc).take_eq] at h
    cases h
    exact .escaped hc
  · rw [take_escape_of_not_escaped hc] at h
    cases h

theorem takes_of_take_number {n : NumberText} {c : Char} {ps : List Piece} {next : Reading}
    (h : (number n).take c = some (ps, next)) : Takes (number n) c ps next := by
  have hend (hc : IsSeparator c)
      (h : (if n.digits = [] then none else some ([Piece.number n, .separator c], between)) =
        some (ps, next)) : Takes (number n) c ps next := by
    split_ifs at h with hn
    cases h
    exact .endNumber hc hn
  cases hk : CharKind.of c <;> simp only [take, hk] at h
  case blank => exact hend (isSeparator_iff.2 (.inl hk)) h
  case comma => exact hend (isSeparator_iff.2 (.inr hk)) h
  case digit =>
    cases h
    exact .digit (CharKind.of_eq_digit_iff.1 hk)
  case dot =>
    obtain rfl := CharKind.of_eq_dot_iff.1 hk
    split_ifs at h with hn
    cases h
    exact .dot hn
  all_goals cases h

theorem takes_of_take {r next : Reading} {c : Char} {ps : List Piece}
    (h : r.take c = some (ps, next)) : Takes r c ps next := by
  cases r with
  | between => exact takes_of_take_between h
  | word letters => exact takes_of_take_word h
  | text units => exact takes_of_take_text h
  | escape units => exact takes_of_take_escape h
  | number n => exact takes_of_take_number h

/-- The piece under way stays possible. -/
theorem valid_of_take {r next : Reading} {c : Char} {ps : List Piece} (hvalid : r.Valid)
    (h : r.take c = some (ps, next)) : next.Valid := by
  cases takes_of_take h with
  | separator | endWord | endText | endNumber => trivial
  | beginWord hc => exact ⟨List.cons_ne_nil _ _, List.forall_mem_singleton.2 hc⟩
  | beginText | quoteBehindWord => exact List.forall_mem_nil _
  | beginNegative | beginFraction => exact List.forall_mem_nil _
  | beginNumber hc => exact List.forall_mem_singleton.2 hc
  | letter hc =>
    exact ⟨List.append_ne_nil_of_right_ne_nil _ nofun,
      List.forall_mem_append.2 ⟨hvalid.2, List.forall_mem_singleton.2 hc⟩⟩
  | backslash => exact hvalid
  | plain hc => exact List.forall_mem_append.2 ⟨hvalid, List.forall_mem_singleton.2 hc⟩
  | escaped hc => exact List.forall_mem_append.2 ⟨hvalid, List.forall_mem_singleton.2 hc⟩
  | @digit n c hc =>
    have hdigits : ∀ d ∈ (n.push c).digits, d.isDigit = true := by
      rw [NumberText.digits_push]
      exact List.forall_mem_append.2 ⟨hvalid, List.forall_mem_singleton.2 hc⟩
    exact hdigits
  | @dot n hn =>
    have hplain : n.Plain := hvalid
    simpa [Valid, NumberText.Plain, NumberText.digits, hn] using hplain

/-- The text begins with the pieces that are completed. -/
theorem begins_of_take {r next : Reading} {c : Char} {ps : List Piece} (hvalid : r.Valid)
    (h : r.take c = some (ps, next)) (rest : List Char) :
    Begins (r.chars ++ c :: rest) ps (next.chars ++ rest) := by
  cases takes_of_take h with
  | separator hc => exact begins_separator hc rest
  | beginWord | beginText | beginNegative | beginNumber | beginFraction => exact .nil _
  | letter => simpa [chars] using Begins.nil _
  | endWord hc =>
    exact (begins_word hvalid (by simp [hc])).trans (begins_separator hc rest)
  | quoteBehindWord => exact begins_word hvalid (by simp)
  | endText => exact begins_text hvalid rest
  | backslash => simpa [chars] using Begins.nil _
  | plain => simpa [chars, TextUnit.chars] using Begins.nil _
  | escaped => simpa [chars, TextUnit.chars] using Begins.nil _
  | digit => simpa [chars, NumberText.chars_push] using Begins.nil _
  | dot hn => simpa [chars, NumberText.chars, NumberText.dotted, hn] using Begins.nil _
  | endNumber hc hn =>
    exact (begins_number ⟨hvalid, hn⟩ (by simp [hc])).trans (begins_separator hc rest)

theorem splits_of_take {r next : Reading} {c : Char} {ps qs : List Piece} {rest : List Char}
    (hvalid : r.Valid) (h : r.take c = some (ps, next)) (hrest : Splits (next.chars ++ rest) qs) :
    Splits (r.chars ++ c :: rest) (ps ++ qs) :=
  (begins_of_take hvalid h rest).splits_append hrest

/-- What the end of the text completes is all that is left of it. -/
theorem begins_of_close {r : Reading} {ps : List Piece} (hvalid : r.Valid)
    (h : r.close = some ps) : Begins r.chars ps [] := by
  cases r with
  | between =>
    cases h
    exact .nil []
  | word letters =>
    cases h
    have hbegins : Begins (letters ++ []) [.word letters] [] := begins_word hvalid (by simp)
    rwa [List.append_nil] at hbegins
  | text units => cases h
  | escape units => cases h
  | number n =>
    simp only [close] at h
    split_ifs at h with hdigits
    cases h
    have hbegins : Begins (n.chars ++ []) [.number n] [] :=
      begins_number ⟨hvalid, hdigits⟩ (by simp)
    rwa [List.append_nil] at hbegins

theorem splits_of_close {r : Reading} {ps : List Piece} (hvalid : r.Valid)
    (h : r.close = some ps) : Splits r.chars ps := by
  have hsplits := (begins_of_close hvalid h).splits_append .nil
  rwa [List.append_nil] at hsplits

theorem splits_of_scan {r : Reading} {cs : List Char} {ps : List Piece} (hvalid : r.Valid)
    (h : r.scan cs = some ps) : Splits (r.chars ++ cs) ps := by
  induction cs generalizing r ps with
  | nil =>
    rw [List.append_nil]
    exact splits_of_close hvalid h
  | cons c rest ih =>
    cases htake : r.take c with
    | none => simp [scan, htake] at h
    | some result =>
      obtain ⟨qs, next⟩ := result
      rw [scan_cons_of_take htake] at h
      obtain ⟨tail, htail, rfl⟩ := Option.map_eq_some_iff.1 h
      exact splits_of_take hvalid htake (ih (valid_of_take hvalid htake) htail)

theorem scan_separator {c : Char} (hc : IsSeparator c) (rest : List Char) :
    between.scan (c :: rest) = (between.scan rest).map (.separator c :: ·) :=
  scan_cons_of_take (Takes.separator hc).take_eq rest

theorem scan_text_units {units : List TextUnit} (hunits : ∀ u ∈ units, u.Valid)
    (before : List TextUnit) (rest : List Char) :
    (text before).scan (units.flatMap TextUnit.chars ++ rest) =
      (text (before ++ units)).scan rest := by
  induction units generalizing before with
  | nil => simp
  | cons u units ih =>
    have hu := hunits u List.mem_cons_self
    have htail := ih (fun v hv => hunits v (List.mem_cons_of_mem _ hv))
    cases u with
    | plain c =>
      rw [List.flatMap_cons, List.append_assoc]
      change (text before).scan (c :: (units.flatMap TextUnit.chars ++ rest)) = _
      rw [scan_cons_silent (Takes.plain hu).take_eq, htail, List.append_assoc]
      rfl
    | escaped c =>
      rw [List.flatMap_cons, List.append_assoc]
      change (text before).scan ('\\' :: c :: (units.flatMap TextUnit.chars ++ rest)) = _
      rw [scan_cons_silent Takes.backslash.take_eq, scan_cons_silent (Takes.escaped hu).take_eq,
        htail, List.append_assoc]
      rfl

theorem scan_text {units : List TextUnit} (hunits : ∀ u ∈ units, u.Valid) (rest : List Char) :
    between.scan ((Piece.text units).chars ++ rest) =
      (between.scan rest).map (.text units :: ·) := by
  have hchars : (Piece.text units).chars ++ rest =
      '"' :: (units.flatMap TextUnit.chars ++ '"' :: rest) := by simp [Piece.chars]
  rw [hchars, scan_cons_silent Takes.beginText.take_eq, scan_text_units hunits, List.nil_append,
    scan_cons_of_take Takes.endText.take_eq]
  rfl

theorem scan_letters {letters : List Char} (hletters : ∀ c ∈ letters, Text.isLetter c = true)
    (before rest : List Char) :
    (word before).scan (letters ++ rest) = (word (before ++ letters)).scan rest := by
  induction letters generalizing before with
  | nil => simp
  | cons c letters ih =>
    have hletter := hletters c List.mem_cons_self
    rw [List.cons_append, scan_cons_silent (Takes.letter hletter).take_eq,
      ih fun d hd => hletters d (List.mem_cons_of_mem _ hd), List.append_assoc]
    rfl

theorem scan_word_end {letters rest : List Char}
    (hends : ∀ c ∈ rest.head?, IsSeparator c ∨ c = '"') :
    (word letters).scan rest = (between.scan rest).map (.word letters :: ·) := by
  cases rest with
  | nil => rfl
  | cons c rest =>
    rcases hends c rfl with hc | rfl
    · rw [scan_cons_of_take (Takes.endWord hc).take_eq, scan_separator hc, Option.map_map]
      rfl
    · rw [scan_cons_of_take Takes.quoteBehindWord.take_eq,
        scan_cons_silent Takes.beginText.take_eq]
      rfl

theorem scan_word {letters rest : List Char} (hne : letters ≠ [])
    (hletters : ∀ c ∈ letters, Text.isLetter c = true)
    (hends : ∀ c ∈ rest.head?, IsSeparator c ∨ c = '"') :
    between.scan (letters ++ rest) = (between.scan rest).map (.word letters :: ·) := by
  cases letters with
  | nil => exact absurd rfl hne
  | cons c letters =>
    have hletter := hletters c List.mem_cons_self
    rw [List.cons_append, scan_cons_silent (Takes.beginWord hletter).take_eq,
      scan_letters fun d hd => hletters d (List.mem_cons_of_mem _ hd)]
    exact scan_word_end hends

theorem scan_digits {digits : List Char} (hdigits : ∀ c ∈ digits, c.isDigit = true)
    (n : NumberText) (rest : List Char) :
    (number n).scan (digits ++ rest) = (number (digits.foldl NumberText.push n)).scan rest := by
  induction digits generalizing n with
  | nil => rfl
  | cons c digits ih =>
    have hdigit := hdigits c List.mem_cons_self
    rw [List.cons_append, scan_cons_silent (Takes.digit hdigit).take_eq,
      ih fun d hd => hdigits d (List.mem_cons_of_mem _ hd)]
    rfl

/-- A number whose sign and first digits have been read is read to its end. -/
theorem scan_number_body {n : NumberText} (hplain : n.Plain) {before whole : List Char}
    (hwhole : n.whole = before ++ whole) (rest : List Char) :
    (number ⟨n.negative, before, none⟩).scan (whole ++ (NumberText.dotted n.fraction ++ rest)) =
      (number n).scan rest := by
  obtain ⟨negative, all, fraction⟩ := n
  obtain rfl : all = before ++ whole := hwhole
  have hdigits : ∀ c ∈ whole, c.isDigit = true := fun c hc =>
    hplain c (by simp [NumberText.digits, hc])
  rw [scan_digits hdigits, NumberText.foldl_push_whole]
  cases fraction with
  | none => rfl
  | some digits =>
    have htake : (number ⟨negative, before ++ whole, none⟩).take '.' =
        some ([], number ⟨negative, before ++ whole, some []⟩) := (Takes.dot rfl).take_eq
    change (number _).scan ('.' :: (digits ++ rest)) = _
    rw [scan_cons_silent htake, scan_digits fun c hc => hplain c (by simp [NumberText.digits, hc]),
      NumberText.foldl_push_fraction, List.nil_append]

theorem scan_number_end {n : NumberText} {rest : List Char} (hdigits : n.digits ≠ [])
    (hends : ∀ c ∈ rest.head?, IsSeparator c) :
    (number n).scan rest = (between.scan rest).map (.number n :: ·) := by
  cases rest with
  | nil => simp [scan, close, hdigits]
  | cons c rest =>
    have hc := hends c rfl
    rw [scan_cons_of_take (Takes.endNumber hc hdigits).take_eq, scan_separator hc, Option.map_map]
    rfl

theorem scan_number {n : NumberText} {rest : List Char} (hn : n.Valid)
    (hends : ∀ c ∈ rest.head?, IsSeparator c) :
    between.scan (n.chars ++ rest) = (between.scan rest).map (.number n :: ·) := by
  rw [← scan_number_end hn.2 hends]
  obtain ⟨hplain, hne⟩ := hn
  obtain ⟨negative, whole, fraction⟩ := n
  cases negative with
  | true =>
    rw [← scan_number_body hplain (List.nil_append whole).symm,
      ← scan_cons_silent Takes.beginNegative.take_eq]
    simp [NumberText.chars]
  | false =>
    cases whole with
    | cons c whole =>
      have hopen := (Takes.beginNumber (hplain c (by simp [NumberText.digits]))).take_eq
      rw [← scan_number_body hplain (show c :: whole = [c] ++ whole from rfl),
        ← scan_cons_silent hopen]
      simp [NumberText.chars]
    | nil =>
      cases fraction with
      | none => exact absurd rfl hne
      | some digits =>
        change between.scan ('.' :: (digits ++ rest)) = _
        rw [scan_cons_silent Takes.beginFraction.take_eq,
          scan_digits fun c hc => hplain c (by simpa [NumberText.digits] using hc),
          NumberText.foldl_push_fraction, List.nil_append]

theorem scan_of_splits {cs : List Char} {ps : List Piece} (h : Splits cs ps) :
    between.scan cs = some ps := by
  induction h with
  | nil => rfl
  | @cons p rest ps hvalid hends _ ih =>
    have hstep : between.scan (p.chars ++ rest) = (between.scan rest).map (p :: ·) := by
      cases p with
      | separator c => exact scan_separator hvalid rest
      | text units => exact scan_text hvalid rest
      | word letters => exact scan_word hvalid.1 hvalid.2 hends
      | number n => exact scan_number hvalid hends
    rw [hstep, ih]
    rfl

/-- The reader reads the pieces that a text splits into. -/
theorem scan_eq_some_iff {cs : List Char} {ps : List Piece} :
    between.scan cs = some ps ↔ Splits cs ps :=
  ⟨splits_of_scan trivial, scan_of_splits⟩

end Reading

theorem Splits.unique {cs : List Char} {ps qs : List Piece} (h : Splits cs ps)
    (h' : Splits cs qs) : ps = qs :=
  Option.some.inj ((Reading.scan_of_splits h).symm.trans (Reading.scan_of_splits h'))

end FuzzyRules
