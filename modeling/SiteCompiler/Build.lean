import SiteCompiler.Compile
import SiteCompiler.FileTree.Operation

/-!
# Builds

A build reads a source file, compiles it and writes the files of its site into
a directory.  Nothing is written before the whole source is compiled; the first
file that cannot be written ends the build, and the files before it stay.

* `Site.write` - the files of a site, written into a directory.
* `build` - a whole build.
-/

namespace SiteCompiler

/-- Why a build failed. -/
inductive BuildError where
  | file (error : FileError)
  | compile (error : CompileError)
  deriving DecidableEq, Repr

/-- The message of a build error. -/
def BuildError.message : BuildError → String
  | file error => error.message
  | compile error => error.message

/-- Write files into a directory, one after the other, up to the first refusal. -/
def FileTree.writeFiles (tree : FileTree) (directory : String) :
    List (String × String) → Except FileError Unit × FileTree
  | [] => (.ok (), tree)
  | (name, text) :: files =>
    match tree.writeBytes (Path.join directory name) text.toUTF8 with
    | .error fault => (.error ⟨Path.join directory name, fault⟩, tree)
    | .ok written => written.writeFiles directory files

/-- Write a site into a directory, which is made if it is missing. -/
def Site.write (site : Site) (tree : FileTree) (directory : String) (options : SiteOptions) :
    Except FileError Unit × FileTree :=
  match tree.makeDirectories directory with
  | (.error fault, made) => (.error ⟨directory, fault⟩, made)
  | (.ok (), made) => made.writeFiles directory (site.files options)

/-- What comes of a build: its site or an error, the records of the making, and the tree behind
it. -/
structure Build where
  result : Except BuildError Site
  records : List Record
  tree : FileTree

/-- Build the site of a source file into a directory. -/
def build (tree : FileTree) (input directory : String) (options : SiteOptions) : Build :=
  match tree.readText input with
  | .error fault => ⟨.error (.file ⟨input, fault⟩), [], tree⟩
  | .ok source =>
    let compiled := compilation source
    match compiled.result with
    | .error error => ⟨.error (.compile error), compiled.records, tree⟩
    | .ok site =>
      match site.write tree directory options with
      | (.error error, written) => ⟨.error (.file error), compiled.records, written⟩
      | (.ok (), written) => ⟨.ok site, compiled.records, written⟩

end SiteCompiler
