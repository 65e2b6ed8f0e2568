import SiteCompiler.Build

/-!
# The command line

The command takes one argument, the path of a source file, and builds its site
into a fixed directory.

* `Request.ofArguments` - what a list of arguments asks for.
* `Request.perform` - what the command does to a tree of files, and what it
  says.
-/

namespace SiteCompiler

/-- What a list of arguments asks for. -/
inductive Request where
  | help
  | version
  | build (input : String)
  /-- The arguments make no sense together. -/
  | misuse
  deriving DecidableEq, Repr

/-- What one argument is by itself. -/
inductive Argument where
  | help
  | version
  /-- Everything behind it is an operand. -/
  | separator
  | operand (text : String)
  | unknown
  deriving DecidableEq, Repr

/-- What an argument is.  Short options may stand in one cluster, of which the first decides; a
hyphen alone is an operand. -/
def Argument.ofText (text : String) : Argument :=
  match text.toList with
  | ['-', '-'] => separator
  | '-' :: '-' :: _ =>
    if text = "--help" then help else if text = "--version" then version else unknown
  | '-' :: letter :: _ =>
    if letter = 'h' then help else if letter = 'V' then version else unknown
  | _ => operand text

namespace Request

/-- The request of the operands alone: exactly one, and not an empty one. -/
def ofOperands : List String → Request
  | [input] => if input = "" then misuse else build input
  | _ => misuse

/-- Read arguments from left to right.  The first that is no operand in place decides; `input` is
the operand read so far. -/
def ofArgumentsAfter (input : Option String) : List String → Request
  | [] => ofOperands input.toList
  | text :: arguments =>
    match Argument.ofText text with
    | .help => help
    | .version => version
    | .unknown => misuse
    | .separator => ofOperands (input.toList ++ arguments)
    | .operand operand =>
      if input.isSome ∨ operand = "" then misuse else ofArgumentsAfter (some operand) arguments

/-- What a list of arguments asks for. -/
def ofArguments (arguments : List String) : Request :=
  ofArgumentsAfter none arguments

end Request

/-- What the command says, and the code with which it ends. -/
structure Reply where
  exit : Nat
  output : String
  errors : String
  deriving DecidableEq, Repr

namespace Reply

/-- The directory that the site is built into. -/
def siteDirectory : String :=
  "dist"

/-- The line that shows how the command is used. -/
def usage : String :=
  "Usage: zyra <PATH>"

/-- The answer to a request for help. -/
def help : Reply :=
  ⟨0, unlines ["Zyra: compiles .zy components into a static website", "", usage, "", "Arguments:",
    "  <PATH>  Input .zy file", "", "Options:", "  -h, --help     Print help",
    "  -V, --version  Print version"], ""⟩

/-- The answer to a request for the version. -/
def version : Reply :=
  ⟨0, unlines ["zyra " ++ SiteCompiler.version], ""⟩

/-- The answer to arguments that make no sense. -/
def misuse : Reply :=
  ⟨2, "", unlines [usage]⟩

/-- The lines of the records that a user should see. -/
def warnings (records : List Record) : List String :=
  (records.filter fun record => record.level = .warn).map fun record =>
    "[" ++ record.level.name ++ "  " ++ record.origin ++ "] " ++ record.text

/-- The answer of a build that failed with a message, or succeeded. -/
def ofBuild (records : List Record) (failure : Option String) : Reply :=
  match failure with
  | some message => ⟨1, "", unlines (warnings records ++ ["Error: " ++ message])⟩
  | none =>
    ⟨0, unlines ["Site generated in '" ++ siteDirectory ++ "'",
        "Open " ++ Path.join siteDirectory Site.pageFile ++ " in a browser to view it."],
      unlines (warnings records)⟩

end Reply

/-- Do what is asked: the answer, and the tree behind it. -/
def Request.perform (request : Request) (tree : FileTree) : Reply × FileTree :=
  match request with
  | help => (.help, tree)
  | version => (.version, tree)
  | misuse => (.misuse, tree)
  | build input =>
    let built := SiteCompiler.build tree input Reply.siteDirectory .standard
    let failure :=
      match built.result with
      | .ok _ => none
      | .error error => some error.message
    (.ofBuild built.records failure, built.tree)

end SiteCompiler
