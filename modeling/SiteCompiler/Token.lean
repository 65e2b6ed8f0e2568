/-!
# Tokens

A source text is read as a sequence of tokens.  A token is a kind together
with the lexeme that the rest of the compiler sees; its place in the text is
kept apart (`Placed`), because nothing but an error report depends on it.

* `TokenKind.keyword?` - the kind of a reserved spelling.
* `Token.sourceText` - the token as it was written; a color regains its `#`.
* `Token.describe` - the wording of a token inside an error message.
-/

namespace SiteCompiler

/-- The classes of tokens. -/
inductive TokenKind where
  | component
  | state
  | style
  | interface
  | events
  | ifWord
  | elseWord
  | identifier
  | string
  | number
  | color
  | unit
  | leftBrace
  | rightBrace
  | leftParen
  | rightParen
  | equals
  | plusEquals
  | minusEquals
  | bang
  | colon
  | arrow
  | dot
  | comma
  | endOfInput
  deriving DecidableEq, Repr

namespace TokenKind

/-- The name of a kind in error messages and listings. -/
def name : TokenKind → String
  | component => "COMPONENT"
  | state => "STATE"
  | style => "STYLE"
  | interface => "INTERFACE"
  | events => "EVENTOS"
  | ifWord => "IF"
  | elseWord => "ELSE"
  | identifier => "IDENTIFIER"
  | string => "STRING"
  | number => "NUMBER"
  | color => "COLOR"
  | unit => "UNIT"
  | leftBrace => "LEFT_BRACE"
  | rightBrace => "RIGHT_BRACE"
  | leftParen => "LEFT_PAREN"
  | rightParen => "RIGHT_PAREN"
  | equals => "EQUALS"
  | plusEquals => "PLUS_EQUALS"
  | minusEquals => "MINUS_EQUALS"
  | bang => "BANG"
  | colon => "COLON"
  | arrow => "ARROW"
  | dot => "DOT"
  | comma => "COMMA"
  | endOfInput => "EOF"

/-- Every kind, once. -/
def all : List TokenKind :=
  [component, state, style, interface, events, ifWord, elseWord, identifier, string, number,
    color, unit, leftBrace, rightBrace, leftParen, rightParen, equals, plusEquals, minusEquals,
    bang, colon, arrow, dot, comma, endOfInput]

/-- The kind that has a given name. -/
def ofName? (text : String) : Option TokenKind :=
  all.find? fun kind => kind.name = text

theorem mem_all (kind : TokenKind) : kind ∈ all := by
  cases kind <;> decide

/-- A kind is found again under its own name, so no two kinds share one. -/
theorem ofName?_name (kind : TokenKind) : ofName? kind.name = some kind := by
  cases kind <;> decide

/-- The reserved spellings, each with the kind of its own. -/
def reserved : List (String × TokenKind) :=
  [("component", component), ("state", state), ("style", style), ("interface", interface),
    ("eventos", events), ("if", ifWord), ("else", elseWord)]

/-- The kind of a reserved spelling; any other word has none. -/
def keyword? (text : String) : Option TokenKind :=
  reserved.lookup text

end TokenKind

/-- The suffixes that make a number a measure. -/
def unitSuffixes : List String :=
  ["%", "px", "rem", "em", "vh", "vw", "s", "ms"]

/-- Whether a suffix belongs to the vocabulary of units. -/
def isUnit (suffix : String) : Bool :=
  unitSuffixes.contains suffix

/-- A kind with its lexeme: strings keep their quotes, colors are stored without the `#`. -/
structure Token where
  kind : TokenKind
  lexeme : String
  deriving DecidableEq, Repr

namespace Token

/-- The token as it is written in a source text. -/
def sourceText (token : Token) : String :=
  if token.kind = .color then "#" ++ token.lexeme else token.lexeme

/-- The wording of a token in a message: its kind and its source text, in quotes. -/
def describe (token : Token) : String :=
  if token.kind = .endOfInput then "end of input"
  else token.kind.name ++ " '" ++ token.sourceText ++ "'"

/-- The token that closes every scanned text. -/
def finish : Token := ⟨.endOfInput, ""⟩

end Token

/-- A line and a column, both counted from one in characters. -/
structure Position where
  line : Nat
  column : Nat
  deriving DecidableEq, Repr

/-- The characters `start`, …, `stop - 1` of a text, which begin at `position`. -/
structure Span where
  start : Nat
  stop : Nat
  position : Position
  deriving DecidableEq, Repr

/-- A token with the place where it stands.  What a place is, is left open: no reader of tokens
looks at it, and only errors carry it on. -/
structure Placed (π : Type) where
  token : Token
  place : π
  deriving DecidableEq, Repr

namespace Placed

variable {π ρ : Type}

/-- The same token under another name for its place. -/
def map (f : π → ρ) (placed : Placed π) : Placed ρ :=
  ⟨placed.token, f placed.place⟩

@[simp] theorem map_token (f : π → ρ) (placed : Placed π) :
    (placed.map f).token = placed.token := rfl

@[simp] theorem map_place (f : π → ρ) (placed : Placed π) :
    (placed.map f).place = f placed.place := rfl

end Placed

end SiteCompiler
