import SiteCompiler.FileTree
import SiteCompiler.FileTree.Path

/-!
# Reading and writing files

The operations on a tree by the text of a path, with the cause of each refusal.
An operation that is refused changes nothing, except that `makeDirectories`
keeps the directories that it made before the refusal.
-/

namespace SiteCompiler

/-- The most bytes that a name may have. -/
def nameLimit : Nat :=
  255

/-- The place of a name in a directory. -/
def Location.child (location : Location) (name : String) : Except FileFault Location :=
  if nameLimit < name.utf8ByteSize then .error .nameTooLong else .ok (location ++ [name])

namespace FileTree

/-- The directory to which some steps lead from a directory; above the root there is the root. -/
def walk (tree : FileTree) : Location → List Segment → Except FileFault Location
  | location, [] => .ok location
  | location, .up :: segments => walk tree location.dropLast segments
  | location, .name text :: segments =>
    match Location.child location text with
    | .error fault => .error fault
    | .ok place =>
      match tree.find? place with
      | none => .error .notFound
      | some (.file _) => .error .notDirectory
      | some .directory => walk tree place segments

/-- The directory in which a path starts. -/
def start (tree : FileTree) (path : Path) : Location :=
  if path.absolute then [] else tree.workingDirectory

/-- The directory that a path names. -/
def directory (tree : FileTree) (path : Path) : Except FileFault Location :=
  tree.walk (tree.start path) path.segments

/-- The place of a name in the directory above a path, which must be there. -/
def locate (tree : FileTree) (path : Path) (name : String) : Except FileFault Location := do
  Location.child (← tree.directory path.parent) name

/-- Whether a path names a directory. -/
def hasDirectory (tree : FileTree) (path : Path) : Bool :=
  (tree.directory path).isOk

/-- The content of a file. -/
def readBytes (tree : FileTree) (text : String) : Except FileFault ByteArray := do
  let path ← Path.ofString text
  match path.target?, path.ending with
  | some name, .plain => do
    match tree.find? (← tree.locate path name) with
    | none => .error .notFound
    | some .directory => .error .isDirectory
    | some (.file content) => .ok content
  | _, _ => do
    let _ ← tree.directory path
    .error .isDirectory

/-- The text of a file. -/
def readText (tree : FileTree) (text : String) : Except FileFault String := do
  match String.fromUTF8? (← tree.readBytes text) with
  | none => .error .notText
  | some content => .ok content

/-- Write a file, over an older one if there is one. -/
def writeBytes (tree : FileTree) (text : String) (content : ByteArray) :
    Except FileFault FileTree := do
  let path ← Path.ofString text
  match path.target?, path.ending with
  | some name, .plain => do
    let location ← tree.locate path name
    match tree.find? location with
    | some .directory => .error .isDirectory
    | _ => .ok (tree.put location (.file content))
  -- A slash behind the name asks for a directory, whether or not there is one.
  | some _, _ => do
    let _ ← tree.directory path.parent
    .error .isDirectory
  | none, _ => do
    let _ ← tree.directory path
    .error .isDirectory

/-- Make one directory; the one above it must be there. -/
def makeDirectory (tree : FileTree) (path : Path) : Except FileFault FileTree :=
  match path.target? with
  | some name => do
    let location ← tree.locate path name
    if (tree.find? location).isSome then .error .alreadyExists
    else .ok (tree.put location .directory)
  | none => do
    let _ ← tree.directory path
    .error .alreadyExists

/-- The answer of an attempt to make a directory: one that is there already will do. -/
def settle (tree : FileTree) (path : Path) (attempt : Except FileFault FileTree) :
    Except FileFault Unit × FileTree :=
  match attempt with
  | .ok made => (.ok (), made)
  | .error fault => (if tree.hasDirectory path then .ok () else .error fault, tree)

/-- Make the directory of a path, and the directories above it that are missing. -/
def makePath (tree : FileTree) (path : Path) : Except FileFault Unit × FileTree :=
  match tree.makeDirectory path with
  | .error .notFound =>
    if path.segments = [] then (.error .notFound, tree)
    else
      -- Something above is missing: make that first, then try again.
      match makePath tree path.parent with
      | (.error fault, above) => (.error fault, above)
      | (.ok (), above) => above.settle path (above.makeDirectory path)
  | attempt => tree.settle path attempt
termination_by path.segments.length
decreasing_by
  have : 0 < path.segments.length := List.length_pos_iff.mpr ‹_›
  simp only [Path.parent, List.length_dropLast]
  omega

/-- Make the directory that a text names, with those above it; the empty text asks for none. -/
def makeDirectories (tree : FileTree) (text : String) : Except FileFault Unit × FileTree :=
  if text = "" then (.ok (), tree)
  else
    match Path.ofString text with
    | .error fault => (.error fault, tree)
    | .ok path => tree.makePath path

/-- Write a file, and make the directories above it that are missing. -/
def install (tree : FileTree) (text : String) (content : ByteArray) :
    Except FileFault FileTree := do
  let path ← Path.ofString text
  match tree.makePath path.parent with
  | (.error fault, _) => .error fault
  | (.ok (), above) => above.writeBytes text content

/-- Take a file away. -/
def remove (tree : FileTree) (text : String) : Except FileFault FileTree := do
  let path ← Path.ofString text
  let _ ← tree.readBytes text
  match path.target? with
  | none => .error .isDirectory
  | some name => do
    let location ← tree.locate path name
    .ok (tree.erase location)

end FileTree

end SiteCompiler
