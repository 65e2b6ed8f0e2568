import SiteCompiler.Token

/-!
# Records

What the compiler reports while it works, besides its result.  A record is
kept as the event it tells of; its level, its source and its wording are
functions of it.
-/

namespace SiteCompiler

/-- How much a record matters. -/
inductive Level where
  | trace
  | debug
  | warn
  deriving DecidableEq, Repr

/-- The name of a level. -/
def Level.name : Level → String
  | trace => "TRACE"
  | debug => "DEBUG"
  | warn => "WARN"

/-- An event worth telling. -/
inductive Record where
  /-- A source of some lines was scanned to its end. -/
  | scanned (tokens lines : Nat)
  /-- A token between two components was passed over. -/
  | skippedOutside (token : Token)
  /-- A token between two blocks of a component was passed over. -/
  | skippedInside (token : Token) (component : String)
  /-- An element has a property that means nothing. -/
  | ignoredProperty (property element : String)
  /-- A component was accepted. -/
  | parsedComponent (name : String) (blocks : Nat)
  /-- A block of events held further handlers after its first. -/
  | droppedHandlers (names : List String)
  deriving DecidableEq, Repr

namespace Record

/-- The level of a record: what a user loses is a warning. -/
def level : Record → Level
  | scanned .. => .debug
  | skippedOutside .. => .trace
  | skippedInside .. => .trace
  | ignoredProperty .. => .trace
  | parsedComponent .. => .debug
  | droppedHandlers .. => .warn

/-- The part of the compiler that a record comes from. -/
def origin : Record → String
  | scanned .. => "zyra_lexer::scanner"
  | _ => "zyra_parser::parser"

/-- The wording of a record. -/
def text : Record → String
  | scanned tokens lines =>
    "scanned " ++ toString tokens ++ " tokens over " ++ toString lines ++ " lines"
  | skippedOutside token => "skipping top-level " ++ token.describe
  | skippedInside token component =>
    "skipping " ++ token.describe ++ " in component '" ++ component ++ "'"
  | ignoredProperty property element =>
    "ignoring property '" ++ property ++ "' on element '" ++ element ++ "'"
  | parsedComponent name blocks =>
    "parsed component '" ++ name ++ "' with " ++ toString blocks ++ " blocks"
  | droppedHandlers names =>
    "only the first handler of an 'eventos' block is kept; dropping " ++ ", ".intercalate names

end Record

end SiteCompiler
