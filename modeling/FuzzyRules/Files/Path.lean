/-!
# Paths

Paths are texts with slashes. The parent of a path is the path without its last component; blank
components and single dots do not count, except that a path may begin with a dot. Joining puts a
relative path behind a directory and changes nothing else.
-/

namespace FuzzyRules.Path

def segments (cs : List Char) : List (List Char) :=
  match cs with
  | [] => [[]]
  | c :: rest =>
    if c = '/' then [] :: segments rest
    else
      match segments rest with
      | [] => [[c]]
      | s :: more => (c :: s) :: more

def joinSegments : List (List Char) → List Char
  | [] => []
  | [s] => s
  | s :: more => s ++ '/' :: joinSegments more

def isVoid (segment : List Char) : Bool := segment == [] || segment == ['.']

def dropVoidEnd (ss : List (List Char)) : List (List Char) :=
  (ss.reverse.dropWhile isVoid).reverse

/-- The root or the leading dot, and what follows it. -/
def splitHead : List Char → List Char × List Char
  | '/' :: rest => (['/'], rest)
  | ['.'] => (['.'], [])
  | '.' :: '/' :: rest => (['.'], '/' :: rest)
  | cs => ([], cs)

def isAbsolute (path : String) : Bool := path.toList.head? == some '/'

def parent? (path : String) : Option String :=
  let (head, body) := splitHead path.toList
  match dropVoidEnd (segments body) with
  | [] => if head = ['.'] then some "" else none
  | ss => some (String.ofList (head ++ joinSegments (dropVoidEnd ss.dropLast)))

def join (dir path : String) : String :=
  if isAbsolute path then path
  else if dir == "" || dir.toList.getLast? == some '/' then dir ++ path
  else dir ++ "/" ++ path

end FuzzyRules.Path
