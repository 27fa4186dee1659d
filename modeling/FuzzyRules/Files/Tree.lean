import FuzzyRules.Files.Path

/-!
# Reading files

A file is read as text. What stands in the way of that is the same whether the files are those of
the machine or those of a `FileTree`, a list of paths and contents below one directory.
-/

namespace FuzzyRules

inductive ReadFault where
  | notFound
  | notDirectory
  | isDirectory
  | notText
  | other (reason : String)
  deriving DecidableEq, Repr

def ReadFault.text : ReadFault → String
  | .notFound => "No such file or directory (os error 2)"
  | .notDirectory => "Not a directory (os error 20)"
  | .isDirectory => "Is a directory (os error 21)"
  | .notText => "stream did not contain valid UTF-8"
  | .other reason => reason

/-- How files are read: in a run of the program, or from a tree. -/
abbrev TextSource (m : Type → Type) := String → m (Except ReadFault String)

structure FileTree where
  files : List (List (List Char) × ByteArray)

namespace FileTree

def ofList (files : List (String × ByteArray)) : FileTree :=
  ⟨files.map fun f => ((Path.segments f.1.toList).filter fun s => !Path.isVoid s, f.2)⟩

def file? (t : FileTree) (path : List (List Char)) : Option ByteArray :=
  (t.files.find? fun f => f.1 == path).map Prod.snd

def isDirectory (t : FileTree) (path : List (List Char)) : Bool :=
  path == [] || t.files.any fun f => path.isPrefixOf f.1 && f.1 != path

/-- Follows the components of a path from a directory below the root. `above` counts the directories
that the path has left the tree by; nothing there has a known name. -/
def walk (t : FileTree) : Nat → List (List Char) → List (List Char) →
    Except ReadFault (List (List Char))
  | 0, dir, [] => .ok dir
  | _ + 1, _, [] => .error .isDirectory
  | above, dir, s :: rest =>
    if Path.isVoid s then walk t above dir rest
    else if s = ['.', '.'] then
      if dir = [] then walk t (above + 1) [] rest else walk t above dir.dropLast rest
    else if above ≠ 0 then .error .notFound
    else
      let next := dir ++ [s]
      if t.isDirectory next then walk t 0 next rest
      else if (t.file? next).isSome then
        if rest = [] then .ok next else .error .notDirectory
      else .error .notFound

def read (t : FileTree) (path : String) : Except ReadFault String :=
  if path = "" || Path.isAbsolute path then .error .notFound
  else do
    let target ← t.walk 0 [] (Path.segments path.toList)
    match t.file? target with
    | none => .error .isDirectory
    | some content =>
      match String.fromUTF8? content with
      | some s => .ok s
      | none => .error .notText

end FileTree

end FuzzyRules
