import SiteCompiler.Program
import SiteCompiler.Token.Scan

/-!
# Why a source is no program

The causes of a refusal, each with the place that it blames.  The wording of a
cause never mentions the place, so one cause reads the same wherever it arises.
-/

namespace SiteCompiler

/-- The three lists of `name: value` pairs. -/
inductive PairList where
  | state
  | style
  | element
  deriving DecidableEq, Repr

/-- What the names of a list of pairs stand for. -/
def PairList.noun : PairList → String
  | state => "state variable"
  | style => "style property"
  | element => "element property"

/-- What the closing brace of a list of pairs ends. -/
def PairList.whole : PairList → String
  | state => "state declarations"
  | style => "style declarations"
  | element => "element"

/-- What must stand next. -/
inductive Expectation where
  | componentName
  | componentOpening
  | componentEnd
  | blockOpening (kind : BlockKind)
  | pairName (pairs : PairList)
  | pairColon (pairs : PairList)
  | pairValue (name : String)
  | pairsEnd (pairs : PairList)
  | elementName
  | elementOpening
  | interfaceEnd
  | handlerName
  | handlerArrow
  | handlerOpening
  | handlerEnd
  | eventsEnd
  deriving DecidableEq, Repr

/-- The wording of an expectation. -/
def Expectation.text : Expectation → String
  | componentName => "component name"
  | componentOpening => "'\x7b' after component name"
  | componentEnd => "'\x7d' after component body"
  | blockOpening kind => "'\x7b' after '" ++ kind.keyword ++ "'"
  | pairName pairs => pairs.noun ++ " name"
  | pairColon pairs => "':' after " ++ pairs.noun ++ " name"
  | pairValue name => "value for '" ++ name ++ "'"
  | pairsEnd pairs => "'\x7d' after " ++ pairs.whole
  | elementName => "element name"
  | elementOpening => "'\x7b' after element name"
  | interfaceEnd => "'\x7d' after interface"
  | handlerName => "event name"
  | handlerArrow => "'->' after event name"
  | handlerOpening => "'\x7b' after '->'"
  | handlerEnd => "'\x7d' after event body"
  | eventsEnd => "'\x7d' after eventos"

/-- The cause of a refusal. -/
inductive ParseFault where
  /-- Something else, or nothing at all, stands where one thing must. -/
  | expected (wanted : Expectation) (found : Option Token)
  /-- A component has a name that no class of a script can have. -/
  | invalidName (name : String)
  /-- A component opens a second block of a kind that it may have once. -/
  | duplicateBlock (kind : BlockKind)
  /-- A component has the name of an earlier one. -/
  | duplicateComponent (name : String)
  /-- A string has no pair of quotes around it that could be taken off. -/
  | unquotedString (lexeme : String)
  /-- The source has no tokens. -/
  | unreadable (fault : ScanFault)
  deriving DecidableEq, Repr

/-- The wording of a cause, without its place. -/
def ParseFault.detail : ParseFault → String
  | expected wanted found =>
    "Expected " ++ wanted.text ++ ", found " ++ (found.getD .finish).describe
  | invalidName name =>
    "Invalid component name '" ++ name ++ "': must be a valid script identifier"
  | duplicateBlock kind => "Duplicate '" ++ kind.keyword ++ "' block in component"
  | duplicateComponent name => "Duplicate component '" ++ name ++ "'"
  | unquotedString lexeme => "String without quotes: " ++ lexeme
  | unreadable fault => fault.detail

/-- A cause and the place that it blames. -/
structure ParseError (π : Type) where
  fault : ParseFault
  place : π
  deriving DecidableEq, Repr

namespace ParseError

/-- The same error under another name for its place. -/
def map {π ρ : Type} (f : π → ρ) (error : ParseError π) : ParseError ρ :=
  ⟨error.fault, f error.place⟩

/-- The error of a text that has no tokens. -/
def ofScan (error : ScanError) : ParseError Position :=
  ⟨.unreadable error.fault, error.position⟩

/-- The message of a refusal. -/
def message (error : ParseError Position) : String :=
  error.place.report "Parse error" error.fault.detail

end ParseError

end SiteCompiler
