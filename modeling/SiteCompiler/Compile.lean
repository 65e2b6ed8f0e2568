import SiteCompiler.Program.Parse
import SiteCompiler.Site

/-!
# Compilation

A source is scanned and read as a whole before anything is rendered, so a
source with a fault anywhere gives no output at all.

* `compilation` - the site of a source with the records of its making.
* `compile` - the site alone, or the error.
* `bundle` - the page and the scripts in one value, for use without files.
-/

namespace SiteCompiler

/-- Why a source has no site. -/
inductive CompileError where
  | scan (error : ScanError)
  | parse (error : ParseError Position)
  deriving DecidableEq, Repr

/-- The message of a compile error. -/
def CompileError.message : CompileError → String
  | scan error => error.message
  | parse error => error.message

/-- What comes of a source: its site or an error, and the records of the making. -/
structure Compilation where
  result : Except CompileError Site
  records : List Record

/-- How many lines a text has; what follows its last line feed is a line too. -/
def lineCount (text : List Char) : Nat :=
  text.count '\n' + 1

/-- Compile a source. -/
def compilation (source : String) : Compilation :=
  match scan source with
  | .error error => ⟨.error (.scan error), []⟩
  | .ok tokens =>
    let outcome := (TokenStream.ofScan tokens).parse
    ⟨match outcome.result with
      | .error error => .error (.parse (error.map Span.position))
      | .ok program => .ok program.render,
      .scanned tokens.length (lineCount source.toList) :: outcome.records⟩

/-- The site of a source. -/
def compile (source : String) : Except CompileError Site :=
  (compilation source).result

/-- The page of a site and its scripts by component, in one value. -/
structure Bundle where
  document : String
  scripts : List (String × String)
  deriving DecidableEq, Repr

/-- Everything that a site consists of, under the standard title. -/
def Site.bundle (site : Site) : Bundle :=
  ⟨site.document .standard,
    site.components.map fun component => (component.name, component.script)⟩

/-- The page and the scripts of a source. -/
def bundle (source : String) : Except CompileError Bundle :=
  (compile source).map Site.bundle

/-- The version of the compiler. -/
def version : String :=
  "0.1.0"

end SiteCompiler
