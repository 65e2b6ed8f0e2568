import SiteCompiler.FileTree.Fault

/-!
# Paths

A path is read from a text: the parts between its slashes are names, `..` goes
one level up, and empty parts and `.` stay where they are.  A slash in front
starts at the root, and a slash or a `.` at the end asks for a directory.
-/

namespace SiteCompiler

/-- One step along a path. -/
inductive Segment where
  | up
  | name (text : String)
  deriving DecidableEq, Repr

/-- How the text of a path ends. -/
inductive PathEnding where
  /-- In the name or the `..` of its last step. -/
  | plain
  /-- In a slash behind it. -/
  | slash
  /-- In a `.` behind it. -/
  | dot
  deriving DecidableEq, Repr

/-- Where a path starts, its steps, and how its text ends. -/
structure Path where
  /-- The path starts at the root, and not at the working directory. -/
  absolute : Bool
  segments : List Segment
  ending : PathEnding
  deriving DecidableEq, Repr

/-- The step that a part of the text asks for. -/
def Segment.ofPart? (part : List Char) : Option Segment :=
  if part = [] ∨ part = ['.'] then none
  else if part = ['.', '.'] then some .up
  else some (.name (String.ofList part))

namespace Path

/-- The most bytes that the text of a path may have. -/
def textLimit : Nat :=
  4095

/-- The path of a text that is one. -/
def parse (text : List Char) : Path :=
  let parts := text.splitOn '/'
  let ending :=
    if (parts.filter (· ≠ [])).getLast? = some ['.'] then .dot
    else if parts.getLast? = some [] then .slash
    else .plain
  ⟨text.head? = some '/', parts.filterMap Segment.ofPart?, ending⟩

/-- The path that a text names; the empty text names nothing that could be found. -/
def ofString (text : String) : Except FileFault Path :=
  if '\x00' ∈ text.toList then .error .nulInPath
  else if textLimit < text.utf8ByteSize then .error .nameTooLong
  else if text = "" then .error .notFound
  else .ok (parse text.toList)

/-- The path without its last step. -/
def parent (path : Path) : Path :=
  ⟨path.absolute, path.segments.dropLast, .plain⟩

/-- The name of the last step, if that names something that need not be there yet. -/
def target? (path : Path) : Option String :=
  match path.ending, path.segments.getLast? with
  | .dot, _ => none
  | _, some (.name text) => some text
  | _, _ => none

/-- The text of a path inside a directory: a name that begins with a slash stands for itself. -/
def join (directory name : String) : String :=
  if name.toList.head? = some '/' ∨ directory = "" then name
  else if directory.toList.getLast? = some '/' then directory ++ name
  else directory ++ "/" ++ name

end Path

end SiteCompiler
