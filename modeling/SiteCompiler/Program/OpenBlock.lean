import SiteCompiler.Program.Fault
import SiteCompiler.Record

/-!
# A block that is being read

After its keyword a block is read token by token.  `OpenBlock` says what has
been read of it and what may come next; `OpenBlock.step` is the only rule that
moves it.  A block looks at kinds and lexemes alone: it neither knows where it
stands nor which component it belongs to.

* `Token.unquote` - the text of a value, which a string gives without quotes.
* `OpenBlock.step` - one token: the block goes on, is complete, or is refused.
* `OpenBlock.wanted` - what is missing if no token follows.
-/

namespace SiteCompiler

/-- Take the first and the last character off a text, if there are two and each is one byte long. -/
def stripEnds? : List Char → Option (List Char)
  | [] => none
  | first :: rest =>
    match rest.getLast? with
    | none => none
    | some last =>
      if first.utf8Size = 1 ∧ last.utf8Size = 1 then some rest.dropLast else none

namespace Token

/-- The text that a value stands for: a string loses its quotes, anything else is taken as it was
written. -/
def unquote (token : Token) : Except ParseFault String :=
  if token.kind = .string then
    match stripEnds? token.lexeme.toList with
    | some text => .ok (String.ofList text)
    | none => .error (.unquotedString token.lexeme)
  else .ok token.sourceText

/-- The display text that a value stands for: an identifier names the variable to follow. -/
def displayText (token : Token) : Except ParseFault DisplayText :=
  if token.kind = .identifier then .ok (.bound token.lexeme) else token.unquote.map .literal

/-- Go on if the token has the kind that must stand here. -/
def expect {α : Type} (token : Token) (kind : TokenKind) (wanted : Expectation) (next : α) :
    Except ParseFault α :=
  if token.kind = kind then .ok next else .error (.expected wanted (some token))

end Token

/-- A list of pairs that is being read, with the elements before it if it belongs to one. -/
inductive Pairs where
  | state (fields : List Declaration)
  | style (properties : List Declaration)
  | element (before : List Element) (element : Element)
  deriving DecidableEq, Repr

/-- Which of the three lists is being read. -/
def Pairs.list : Pairs → PairList
  | state _ => .state
  | style _ => .style
  | element .. => .element

/-- A property of an element: `texto` gives its text and `acao` its action, the last of each
counts, and any other property is passed over. -/
def Element.assign (element : Element) (property : String) (value : Token) :
    Except ParseFault (Element × List Record) :=
  if property = "texto" then
    value.displayText.map fun text => ({ element with text := some text }, [])
  else if property = "acao" then
    value.unquote.map fun action => ({ element with action := some action }, [])
  else .ok (element, [.ignoredProperty property element.name])

/-- Add a pair to the list that is being read. -/
def Pairs.add (pairs : Pairs) (name : String) (value : Token) :
    Except ParseFault (Pairs × List Record) :=
  match pairs with
  | state fields => .ok (state (fields ++ [⟨name, value.sourceText⟩]), [])
  | style properties => .ok (style (properties ++ [⟨name, value.sourceText⟩]), [])
  | element before current =>
    (current.assign name value).map fun (assigned, records) => (element before assigned, records)

/-- Where a reader stands inside a list of pairs. -/
inductive PairStage where
  /-- A name or the closing brace must follow. -/
  | name
  /-- The colon behind a name must follow. -/
  | colon (name : String)
  /-- The value for a name must follow. -/
  | value (name : String)
  deriving DecidableEq, Repr

/-- How far a block has been read. -/
inductive OpenBlock where
  /-- The opening brace must follow. -/
  | opening (kind : BlockKind)
  /-- Inside a list of pairs. -/
  | pairs (pairs : Pairs) (stage : PairStage)
  /-- Between the elements of an interface. -/
  | elements (done : List Element)
  /-- Behind the name of an element. -/
  | elementOpening (done : List Element) (name : String)
  /-- Between event handlers. -/
  | handlers (done : List Handler)
  /-- Behind the name of a handler. -/
  | handlerArrow (done : List Handler) (name : String)
  /-- Behind the arrow of a handler. -/
  | handlerOpening (done : List Handler) (name : String)
  /-- Inside the body of a handler, below `depth` open braces of its own. -/
  | statements (done : List Handler) (name : String) (depth : Nat) (words : List String)
  deriving DecidableEq, Repr

/-- What one token makes of an open block. -/
inductive BlockStep where
  /-- The block is still open. -/
  | more (block : OpenBlock) (records : List Record)
  /-- The block is complete; a block of events without a handler leaves nothing. -/
  | done (block : Option Block) (records : List Record)
  deriving DecidableEq, Repr

/-- What stands behind the opening brace of a block. -/
def BlockKind.enter : BlockKind → OpenBlock
  | state => .pairs (.state []) .name
  | style => .pairs (.style []) .name
  | interface => .elements []
  | events => .handlers []

/-- What the closing brace of a list of pairs makes of the block. -/
def Pairs.close : Pairs → BlockStep
  | state fields => .done (some (.state fields)) []
  | style properties => .done (some (.style properties)) []
  | element before current => .more (.elements (before ++ [current])) []

/-- A block of events keeps its first handler, and tells of the others. -/
def keepFirst (handlers : List Handler) : BlockStep :=
  match handlers with
  | [] => .done none []
  | [first] => .done (some (.event first)) []
  | first :: others => .done (some (.event first)) [.droppedHandlers (others.map Handler.name)]

/-- A token inside a handler body, as it stands in the method: an identifier is a field of the
component, anything else is taken as it was written. -/
def Token.statementWord (token : Token) : String :=
  if token.kind = .identifier then "this." ++ token.lexeme else token.sourceText

/-- One token inside a list of pairs. -/
def Pairs.step (pairs : Pairs) (stage : PairStage) (token : Token) : Except ParseFault BlockStep :=
  match stage with
  | .name =>
    if token.kind = .rightBrace then .ok pairs.close
    else
      token.expect .identifier (.pairName pairs.list)
        (.more (.pairs pairs (.colon token.lexeme)) [])
  | .colon name =>
    token.expect .colon (.pairColon pairs.list) (.more (.pairs pairs (.value name)) [])
  | .value name =>
    if token.kind = .leftBrace ∨ token.kind = .rightBrace then
      .error (.expected (.pairValue name) (some token))
    else
      (pairs.add name token).map fun (added, records) => .more (.pairs added .name) records

/-- One token inside the body of a handler: the closing brace of the body is the first that closes
no brace of the body's own. -/
def stepStatements (done : List Handler) (name : String) (depth : Nat) (words : List String)
    (token : Token) : BlockStep :=
  let longer := words ++ [token.statementWord]
  if token.kind = .leftBrace then .more (.statements done name (depth + 1) longer) []
  else if token.kind = .rightBrace then
    match depth with
    -- The brace that closes the body is no word of it.
    | 0 => .more (.handlers (done ++ [⟨name, " ".intercalate words⟩])) []
    | outer + 1 => .more (.statements done name outer longer) []
  else .more (.statements done name depth longer) []

namespace OpenBlock

/-- What one token makes of an open block. -/
def step (block : OpenBlock) (token : Token) : Except ParseFault BlockStep :=
  match block with
  | opening kind => token.expect .leftBrace (.blockOpening kind) (.more kind.enter [])
  | pairs list stage => list.step stage token
  | elements done =>
    if token.kind = .rightBrace then .ok (.done (some (.interface done)) [])
    else token.expect .identifier .elementName (.more (.elementOpening done token.lexeme) [])
  | elementOpening done name =>
    token.expect .leftBrace .elementOpening
      (.more (.pairs (.element done ⟨name, none, none⟩) .name) [])
  | handlers done =>
    if token.kind = .rightBrace then .ok (keepFirst done)
    else token.expect .identifier .handlerName (.more (.handlerArrow done token.lexeme) [])
  | handlerArrow done name =>
    token.expect .arrow .handlerArrow (.more (.handlerOpening done name) [])
  | handlerOpening done name =>
    token.expect .leftBrace .handlerOpening (.more (.statements done name 0 []) [])
  | statements done name depth words => .ok (stepStatements done name depth words token)

/-- What is missing if no token follows. -/
def wanted : OpenBlock → Expectation
  | opening kind => .blockOpening kind
  | pairs list .name => .pairsEnd list.list
  | pairs list (.colon _) => .pairColon list.list
  | pairs _ (.value name) => .pairValue name
  | elements _ => .interfaceEnd
  | elementOpening .. => .elementOpening
  | handlers _ => .eventsEnd
  | handlerArrow .. => .handlerArrow
  | handlerOpening .. => .handlerOpening
  | statements .. => .handlerEnd

end OpenBlock

end SiteCompiler
