import FuzzyRules.Text.Hex

/-!
# TOML strings

Basic strings stand in double quotes and know escapes, literal strings stand in single quotes and
know none. With three quotes a string may go over lines: a line break right behind the opening
quotes is dropped, every other one is read as a line feed, and a backslash at the end of a line
joins it with the next character that is not blank. Control characters other than the tab are not
allowed.
-/

namespace FuzzyRules.Toml

abbrev Reader (β : Type) := List Char → Option (β × List Char)

def isSpace (c : Char) : Bool := c == ' ' || c == '\t'

/-- Characters that may stand in strings and comments. -/
def isPlain (c : Char) : Bool := c == '\t' || (0x20 ≤ c.toNat && c.toNat != 0x7f)

def newline? : List Char → Option (List Char)
  | '\n' :: rest => some rest
  | '\r' :: '\n' :: rest => some rest
  | _ => none

def skipNewline (cs : List Char) : List Char := (newline? cs).getD cs

def shortEscape? : Char → Option Char
  | 'b' => some '\x08'
  | 't' => some '\t'
  | 'n' => some '\n'
  | 'f' => some '\x0c'
  | 'r' => some '\r'
  | '"' => some '"'
  | '\\' => some '\\'
  | _ => none

/-- How far an escape has been read. -/
inductive EscapeMode where
  | plain
  | escape
  | hex (left value : Nat)
  /-- Behind a backslash and blanks, before the line break. -/
  | lineEnd
  /-- Behind the joined line break. -/
  | joining

/-- The character that an escape letter stands for, or the mode in which its digits are read. -/
def escapeLetter (c : Char) : Option (Char ⊕ EscapeMode) :=
  match c with
  | 'u' => some (.inr (.hex 4 0))
  | 'U' => some (.inr (.hex 8 0))
  | c => (shortEscape? c).map .inl

/-- One more digit of a code point. -/
def hexStep (left value : Nat) (c : Char) : Option (Char ⊕ EscapeMode) := do
  let digit ← Text.hexValue? c
  let value := 16 * value + digit
  if left ≤ 1 then (Text.charOfCode? value).map .inl else some (.inr (.hex (left - 1) value))

def basicFrom : EscapeMode → List Char → Reader String
  | _, _, [] => none
  | .escape, acc, c :: rest =>
    match escapeLetter c with
    | some (.inl e) => basicFrom .plain (e :: acc) rest
    | some (.inr mode) => basicFrom mode acc rest
    | none => none
  | .hex left value, acc, c :: rest =>
    match hexStep left value c with
    | some (.inl e) => basicFrom .plain (e :: acc) rest
    | some (.inr mode) => basicFrom mode acc rest
    | none => none
  | _, acc, c :: rest =>
    if c = '"' then some (String.ofList acc.reverse, rest)
    else if c = '\\' then basicFrom .escape acc rest
    else if isPlain c then basicFrom .plain (c :: acc) rest
    else none

def literalFrom : List Char → Reader String
  | _, [] => none
  | acc, c :: rest =>
    if c = '\'' then some (String.ofList acc.reverse, rest)
    else if isPlain c then literalFrom (c :: acc) rest
    else none

/-- Three quotes close a string over lines; up to two more before them belong to it. -/
def closing? (quote : Char) : List Char → Option (Nat × List Char)
  | a :: b :: c :: rest =>
    if a = quote ∧ b = quote ∧ c = quote then
      match rest with
      | d :: e :: rest' =>
        if d = quote ∧ e = quote then some (2, rest')
        else if d = quote then some (1, e :: rest')
        else some (0, rest)
      | [d] => if d = quote then some (1, []) else some (0, rest)
      | [] => some (0, [])
    else none
  | _ => none

def closed (quote : Char) (acc : List Char) (extra : Nat) : String :=
  String.ofList (acc.reverse ++ List.replicate extra quote)

/-- Where a line break may stand, and the mode behind it. -/
def breakLine (mode : EscapeMode) (acc : List Char) : Option (EscapeMode × List Char) :=
  match mode with
  | .plain => some (.plain, '\n' :: acc)
  | .escape | .lineEnd | .joining => some (.joining, acc)
  | .hex .. => none

def basicLinesFrom : EscapeMode → List Char → Reader String
  | _, _, [] => none
  | mode, acc, '\r' :: '\n' :: rest =>
    match breakLine mode acc with
    | some (mode, acc) => basicLinesFrom mode acc rest
    | none => none
  | mode, acc, '\n' :: rest =>
    match breakLine mode acc with
    | some (mode, acc) => basicLinesFrom mode acc rest
    | none => none
  | .escape, acc, c :: rest =>
    if isSpace c then basicLinesFrom .lineEnd acc rest
    else
      match escapeLetter c with
      | some (.inl e) => basicLinesFrom .plain (e :: acc) rest
      | some (.inr mode) => basicLinesFrom mode acc rest
      | none => none
  | .hex left value, acc, c :: rest =>
    match hexStep left value c with
    | some (.inl e) => basicLinesFrom .plain (e :: acc) rest
    | some (.inr mode) => basicLinesFrom mode acc rest
    | none => none
  | .lineEnd, acc, c :: rest => if isSpace c then basicLinesFrom .lineEnd acc rest else none
  | .joining, acc, c :: rest =>
    if isSpace c then basicLinesFrom .joining acc rest
    else
      match closing? '"' (c :: rest) with
      | some (extra, rest) => some (closed '"' acc extra, rest)
      | none =>
        if c = '\\' then basicLinesFrom .escape acc rest
        else if isPlain c then basicLinesFrom .plain (c :: acc) rest
        else none
  | .plain, acc, c :: rest =>
    match closing? '"' (c :: rest) with
    | some (extra, rest) => some (closed '"' acc extra, rest)
    | none =>
      if c = '\\' then basicLinesFrom .escape acc rest
      else if isPlain c then basicLinesFrom .plain (c :: acc) rest
      else none

def literalLinesFrom : List Char → Reader String
  | _, [] => none
  | acc, '\r' :: '\n' :: rest => literalLinesFrom ('\n' :: acc) rest
  | acc, '\n' :: rest => literalLinesFrom ('\n' :: acc) rest
  | acc, c :: rest =>
    match closing? '\'' (c :: rest) with
    | some (extra, rest) => some (closed '\'' acc extra, rest)
    | none => if isPlain c then literalLinesFrom (c :: acc) rest else none

/-- A string on one line. -/
def shortText : Reader String
  | '"' :: rest => basicFrom .plain [] rest
  | '\'' :: rest => literalFrom [] rest
  | _ => none

def text : Reader String
  | '"' :: '"' :: '"' :: rest => basicLinesFrom .plain [] (skipNewline rest)
  | '\'' :: '\'' :: '\'' :: rest => literalLinesFrom [] (skipNewline rest)
  | cs => shortText cs

end FuzzyRules.Toml
