import FuzzyRules.Toml.Scalar

/-!
# TOML documents

A document is a sequence of lines: a key and its value, a header, or nothing, each with an
optional comment. Values and dotted keys may be nested less than eighty deep.
-/

namespace FuzzyRules.Toml

def depthLimit : Nat := 79

def skipSpace (cs : List Char) : List Char := cs.dropWhile isSpace

/-- Everything up to the end of the line that a comment may hold. -/
def skipComment : List Char → List Char
  | '#' :: rest => rest.dropWhile isPlain
  | cs => cs

/-- Blanks, a comment and the end of the line or of the document. -/
def endLine (cs : List Char) : Option (List Char) :=
  match skipComment (skipSpace cs) with
  | [] => some []
  | rest => newline? rest

/-- Blanks, comments and line breaks. A comment must end in a line break. -/
def skipLines : Nat → List Char → Option (List Char)
  | 0, cs => some cs
  | fuel + 1, cs =>
    match skipSpace cs with
    | '#' :: rest => (newline? (rest.dropWhile isPlain)).bind (skipLines fuel)
    | rest =>
      match newline? rest with
      | some rest' => skipLines fuel rest'
      | none => some rest

def skipBlankLines (cs : List Char) : Option (List Char) := skipLines (cs.length + 1) cs

def isBareKeyChar (c : Char) : Bool := c.isAlphanum || c == '_' || c == '-'

def simpleKey : Reader String := fun cs =>
  match cs with
  | '"' :: _ => shortText cs
  | '\'' :: _ => shortText cs
  | _ =>
    match cs.takeWhile isBareKeyChar with
    | [] => none
    | key => some (String.ofList key, cs.dropWhile isBareKeyChar)

def keyParts : Nat → Reader (List String)
  | 0, _ => none
  | fuel + 1, cs => do
    let (key, rest) ← simpleKey (skipSpace cs)
    match skipSpace rest with
    | '.' :: rest =>
      let (keys, rest) ← keyParts fuel rest
      return (key :: keys, rest)
    | rest => return ([key], rest)

/-- Keys with dots between them, and blanks around each. -/
def dottedKey : Reader (List String) := fun cs => do
  let (keys, rest) ← keyParts (cs.length + 1) cs
  if keys.length ≤ depthLimit then return (keys, rest) else none

/-- A key, the sign of equality and a value. -/
def pair (value : Reader Node) : Reader (List String × Node) := fun cs => do
  let (keys, rest) ← dottedKey cs
  match rest with
  | '=' :: rest =>
    let (node, rest) ← value (skipSpace rest)
    return ((keys, node), rest)
  | _ => none

/-- The elements of an array behind its opening bracket. -/
def elements (value : Reader Node) : Nat → Reader (List Node)
  | 0, _ => none
  | fuel + 1, cs => do
    match ← skipBlankLines cs with
    | ']' :: rest => return ([], rest)
    | rest =>
      let (node, rest) ← value rest
      match ← skipBlankLines rest with
      | ']' :: rest => return ([node], rest)
      | ',' :: rest =>
        let (nodes, rest) ← elements value fuel rest
        return (node :: nodes, rest)
      | _ => none

/-- The pairs of an inline table behind its opening brace. -/
def inlinePairs (value : Reader Node) : Nat → Entries → Reader Entries
  | 0, _, _ => none
  | fuel + 1, es, cs => do
    let ((keys, node), rest) ← pair value cs
    let es ← addPath true keys node .braces es
    match skipSpace rest with
    | '\x7d' :: rest => return (es, rest)
    | ',' :: rest => inlinePairs value fuel es rest
    | _ => none

def value : Nat → Reader Node
  | 0, cs =>
    match cs with
    | '"' :: _ => (text cs).map fun r => (.text r.1, r.2)
    | '\'' :: _ => (text cs).map fun r => (.text r.1, r.2)
    | _ => scalar cs
  | depth + 1, cs =>
    match cs with
    | '[' :: rest =>
      (elements (value depth) (rest.length + 1) rest).map fun r => (.array r.1, r.2)
    | '\x7b' :: rest =>
      match skipSpace rest with
      | '\x7d' :: rest => some (.table .braces [], rest)
      | _ =>
        (inlinePairs (value depth) (rest.length + 1) [] rest).map fun r =>
          (.table .braces r.1, r.2)
    | cs => value 0 cs

/-- A line with a header or a pair, behind its leading blanks. -/
def line (o : Outline) (cs : List Char) : Option (Outline × List Char) :=
  match cs with
  | '[' :: '[' :: rest => do
    let (keys, rest) ← dottedKey rest
    match rest with
    | ']' :: ']' :: rest =>
      let o ← o.repeatedHeader keys
      return (o, ← endLine rest)
    | _ => none
  | '[' :: rest => do
    let (keys, rest) ← dottedKey rest
    match rest with
    | ']' :: rest =>
      let o ← o.header keys
      return (o, ← endLine rest)
    | _ => none
  | cs => do
    let ((keys, node), rest) ← pair (value depthLimit) cs
    let o ← o.add keys node
    return (o, ← endLine rest)

def lines : Nat → Outline → List Char → Option Outline
  | 0, _, _ => none
  | fuel + 1, o, cs =>
    match skipSpace cs with
    | [] => some o
    | '#' :: rest => (endLine ('#' :: rest)).bind (lines fuel o)
    | rest =>
      match newline? rest with
      | some rest' => lines fuel o rest'
      | none =>
        match line o rest with
        | some (o, rest') => lines fuel o rest'
        | none => none

def skipByteOrderMark : List Char → List Char
  | '\ufeff' :: rest => rest
  | cs => cs

/-- The root table of a document. -/
def document? (source : String) : Option Node := do
  let cs := skipByteOrderMark source.toList
  let o ← lines (cs.length + 1) .start cs
  let es ← o.close
  return .table .header es

end FuzzyRules.Toml
