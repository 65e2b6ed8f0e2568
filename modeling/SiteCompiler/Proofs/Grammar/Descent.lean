import SiteCompiler.Proofs.Grammar.Program

/-!
# Parsing in place

A reader takes one token after the other off a list, and its progress says where in a
program it stands.  The parser of this module stays in the list: it keeps a position,
looks at the token there, goes past it or leaves it, and has one function for every part
of a program, with a loop wherever parts repeat.  It tells nothing of what it passes over.
What could go wrong there is checked, and `none` is a check that fails: a loop whose round
takes no token, or quotes that cannot be cut off.

* `Parser.peek`, `Parser.advance`, `Parser.expect` - looking and moving.
* `Parser.loop` - a loop, every round of which must take a token.
* `Parser.program` - the descent into the parts of a program.
* `Parser.ahead`, `Parser.ofTokens_drop` - the tokens that a position leaves to be read.
-/

namespace SiteCompiler
namespace Grammar

/-- Tokens that are parsed where they are.  Behind the last of them there are ends of input without
number, and these stand nowhere. -/
structure Parser (π : Type) where
  tokens : List (Placed π)
  nowhere : π

/-- A part of the descent: it goes on from a position, and comes to a value or an error and to
another position. -/
abbrev Reading (π : Type) := ExceptT (ParseError π) (StateT Nat Option)

namespace Parser

variable {π α β : Type}

/-! ## The descent -/

section Descent

variable (parser : Parser π)

def peek (position : Nat) : Placed π :=
  parser.tokens.getD position ⟨.finish, parser.nowhere⟩

def isAtEnd (position : Nat) : Bool :=
  (parser.peek position).token.kind == .endOfInput

/-- Whether a token of this kind follows.  The end of input is of no kind. -/
def check (kind : TokenKind) (position : Nat) : Bool :=
  !parser.isAtEnd position && (parser.peek position).token.kind == kind

theorem lt_length_of_not_isAtEnd {position : Nat} (h : parser.isAtEnd position = false) :
    position < parser.tokens.length := by
  refine Nat.lt_of_not_le fun hlength => ?_
  simp [isAtEnd, peek, List.getElem?_eq_none hlength, Token.finish] at h

/-- Look at the token that follows. -/
def look : Reading π (Placed π) :=
  fun position => some (.ok (parser.peek position), position)

/-- Go past a token, unless it is an end of input. -/
def advance : Reading π (Placed π) :=
  fun position =>
    some (.ok (parser.peek position), if parser.isAtEnd position then position else position + 1)

/-- Blame the token that follows. -/
def fail (fault : ParseFault) : Reading π α :=
  fun position => some (.error ⟨fault, (parser.peek position).place⟩, position)

/-- Blame the token that follows for what it is; at the end none does. -/
def miss (wanted : Expectation) : Reading π α :=
  fun position =>
    let found := if parser.isAtEnd position then none else some (parser.peek position).token
    parser.fail (.expected wanted found) position

/-- Go past a token of this kind, or blame what stands in its place. -/
def expect (kind : TokenKind) (wanted : Expectation) : Reading π (Placed π) :=
  fun position =>
    if parser.check kind position then parser.advance position else parser.miss wanted position

/-- Go past a value, which may be any token but a brace. -/
def literal (name : String) : Reading π Token := do
  let placed ← parser.look
  if placed.token.kind = .endOfInput ∨ placed.token.kind = .leftBrace ∨
      placed.token.kind = .rightBrace then
    parser.miss (.pairValue name)
  else
    let value ← parser.advance
    return value.token

/-- What is made of a value.  It has no error of its own: quotes that are not there cannot be cut
off. -/
def taken (result : Except ParseFault α) : Reading π α :=
  fun position =>
    match result with
    | .ok value => some (.ok value, position)
    | .error _ => none

/-- Go round until the end of input or a token at which the loop stops.  Every round must take one
token at least. -/
def loop (stop : α → Token → Bool) (round : α → Reading π α) (state : α) (position : Nat) :
    Option (Except (ParseError π) α × Nat) :=
  if parser.isAtEnd position then some (.ok state, position)
  else if stop state (parser.peek position).token then some (.ok state, position)
  else
    match round state position with
    | none => none
    | some (.error error, next) => some (.error error, next)
    | some (.ok longer, next) => if position < next then loop stop round longer next else none
termination_by parser.tokens.length - position
decreasing_by
  have hlength := parser.lt_length_of_not_isAtEnd (Bool.of_not_eq_true ‹_›)
  omega

/-- Go round until the closing brace. -/
def untilClosing (round : α → Reading π α) (state : α) : Reading π α :=
  parser.loop (fun _ token => token.kind == .rightBrace) round state

/-- Pairs of a name and a value, up to the closing brace. -/
def pairs (list : PairList) (add : α → String → Token → Except ParseFault α) (state : α) :
    Reading π α :=
  parser.untilClosing (fun state => do
    let name ← parser.expect .identifier (.pairName list)
    let _ ← parser.expect .colon (.pairColon list)
    let value ← parser.literal name.token.lexeme
    taken (add state name.token.lexeme value)) state

def declare (fields : List Declaration) (name : String) (value : Token) :
    Except ParseFault (List Declaration) :=
  .ok (fields ++ [⟨name, value.sourceText⟩])

def declarations (kind : BlockKind) (list : PairList) : Reading π (List Declaration) := do
  let _ ← parser.expect .leftBrace (.blockOpening kind)
  let fields ← parser.pairs list declare []
  let _ ← parser.expect .rightBrace (.pairsEnd list)
  return fields

def element : Reading π Element := do
  let name ← parser.expect .identifier .elementName
  let _ ← parser.expect .leftBrace .elementOpening
  let element ← parser.pairs .element
    (fun element property value => (element.assign property value).map Prod.fst)
    ⟨name.token.lexeme, none, none⟩
  let _ ← parser.expect .rightBrace (.pairsEnd .element)
  return element

def elements : Reading π (List Element) := do
  let _ ← parser.expect .leftBrace (.blockOpening .interface)
  let elements ← parser.untilClosing (fun elements => do
    let element ← parser.element
    return elements ++ [element]) []
  let _ ← parser.expect .rightBrace .interfaceEnd
  return elements

/-- The braces that are open behind a token of a handler body. -/
def depthBehind (depth : Nat) (token : Token) : Nat :=
  if token.kind = .leftBrace then depth + 1
  else if token.kind = .rightBrace then depth - 1
  else depth

/-- The braces of a handler body that are open and its words, up to the closing brace that closes
none of them. -/
def words : Reading π (Nat × List String) :=
  parser.loop (fun state token => token.kind == .rightBrace && state.1 == 0)
    (fun state => do
      let placed ← parser.advance
      return (depthBehind state.1 placed.token, state.2 ++ [placed.token.statementWord])) (0, [])

def handler : Reading π Handler := do
  let name ← parser.expect .identifier .handlerName
  let _ ← parser.expect .arrow .handlerArrow
  let _ ← parser.expect .leftBrace .handlerOpening
  let body ← parser.words
  let _ ← parser.expect .rightBrace .handlerEnd
  return ⟨name.token.lexeme, " ".intercalate body.2⟩

def handlers : Reading π (List Handler) := do
  let _ ← parser.expect .leftBrace (.blockOpening .events)
  let handlers ← parser.untilClosing (fun handlers => do
    let handler ← parser.handler
    return handlers ++ [handler]) []
  let _ ← parser.expect .rightBrace .eventsEnd
  return handlers

/-- A block behind its keyword.  Of a block of events the first handler is kept. -/
def block : BlockKind → Reading π (Option Block)
  | .state => do
    let fields ← parser.declarations .state .state
    return some (.state fields)
  | .style => do
    let properties ← parser.declarations .style .style
    return some (.style properties)
  | .interface => do
    let elements ← parser.elements
    return some (.interface elements)
  | .events => do
    let handlers ← parser.handlers
    return handlers.head?.map .event

/-- Blocks, and anything between them.  Only blocks of events may be there twice. -/
def blocks : Reading π (List Block) :=
  parser.untilClosing (fun blocks => do
    let placed ← parser.look
    match placed.token.kind.block? with
    | none =>
      let _ ← parser.advance
      return blocks
    | some kind =>
      if kind != .events && blocks.any fun block => block.kind = kind then
        parser.fail (.duplicateBlock kind)
      else
        let _ ← parser.advance
        let block ← parser.block kind
        return blocks ++ block.toList) []

/-- A component behind its keyword. -/
def component : Reading π Component := do
  let name ← parser.expect .identifier .componentName
  if isComponentName name.token.lexeme then
    let _ ← parser.expect .leftBrace .componentOpening
    let blocks ← parser.blocks
    let _ ← parser.expect .rightBrace .componentEnd
    return ⟨name.token.lexeme, blocks⟩
  else throw ⟨.invalidName name.token.lexeme, name.place⟩

/-- A program: components, and anything between them. -/
def program : Reading π Program := do
  let components ← parser.loop (fun _ _ => false) (fun components => do
    let placed ← parser.look
    if placed.token.kind = .component then
      let _ ← parser.advance
      let name ← parser.look
      let component ← parser.component
      if components.any fun other => other.name = component.name then
        throw ⟨.duplicateComponent component.name, name.place⟩
      else return components ++ [component]
    else
      let _ ← parser.advance
      return components) []
  return ⟨components⟩

end Descent

/-! ## What is ahead -/

/-- The stream that a reader has of the tokens. -/
def stream (parser : Parser π) : TokenStream π :=
  .ofTokens parser.nowhere parser.tokens

/-- The position is not behind the first end of input. -/
def Holds (parser : Parser π) (position : Nat) : Prop :=
  position ≤ parser.stream.tokens.length

/-- The tokens from a position on, up to the first end of input. -/
def ahead (parser : Parser π) (position : Nat) : List (Placed π) :=
  parser.stream.tokens.drop position

/-- The quotes of every string before the first end of input can be cut off. -/
def StringsQuoted (parser : Parser π) : Prop :=
  ∀ placed ∈ parser.stream.tokens, Quoted placed.token

section Ahead

variable {parser : Parser π} {position : Nat}

theorem kind_of_mem_stream {placed : Placed π} (h : placed ∈ parser.stream.tokens) :
    placed.token.kind ≠ .endOfInput := by
  simpa using List.all_eq_true.mp List.all_takeWhile placed h

/-- What is ahead is the stream of the tokens that remain. -/
theorem ofTokens_drop (h : parser.Holds position) :
    TokenStream.ofTokens parser.nowhere (parser.tokens.drop position) =
      ⟨parser.ahead position, parser.stream.finish⟩ := by
  have hprefix : parser.stream.tokens <+: parser.tokens := List.takeWhile_prefix _
  have htake : parser.tokens.take position = parser.stream.tokens.take position := by
    obtain ⟨rest, htokens⟩ := hprefix
    rw [← htokens, List.take_append_of_le_length h]
  have hfront : ∀ placed ∈ parser.tokens.take position, placed.token.kind ≠ .endOfInput := by
    intro placed hplaced
    rw [htake] at hplaced
    exact kind_of_mem_stream (List.mem_of_mem_take hplaced)
  have hsplit := ofTokens_append hfront parser.nowhere (parser.tokens.drop position)
  rw [List.take_append_drop] at hsplit
  have hlength : (parser.tokens.take position).length = position :=
    List.length_take_of_le (Nat.le_trans h hprefix.length_le)
  rw [ahead, stream, hsplit, List.drop_left' hlength]

theorem peek_eq_headD (position : Nat) :
    parser.peek position = (parser.tokens.drop position).headD ⟨.finish, parser.nowhere⟩ := by
  rw [peek, List.getD_eq_getElem?_getD, List.headD_eq_head?_getD, List.head?_drop]

/-- Before the end, the token that follows is the next one ahead. -/
theorem peek_of_ahead_cons (h : parser.Holds position) {placed : Placed π}
    {rest : List (Placed π)} (hahead : parser.ahead position = placed :: rest) :
    parser.peek position = placed ∧ parser.isAtEnd position = false ∧
      parser.Holds (position + 1) := by
  have hlt : position < parser.stream.tokens.length := by
    refine Nat.lt_of_not_le fun hlength => ?_
    rw [ahead, List.drop_eq_nil_of_le hlength] at hahead
    cases hahead
  have hdrop := congrArg TokenStream.tokens (ofTokens_drop h)
  rw [isAtEnd, peek_eq_headD]
  cases hrest : parser.tokens.drop position with
  | nil => simp [hrest, hahead, TokenStream.ofTokens] at hdrop
  | cons other others =>
      by_cases hend : other.token.kind = .endOfInput
      · simp [hrest, hahead, TokenStream.ofTokens, hend] at hdrop
      · obtain ⟨rfl, -⟩ : other = placed ∧ _ := by
          simpa [hrest, hahead, TokenStream.ofTokens, hend] using hdrop
        exact ⟨rfl, by simpa using hend, hlt⟩

/-- At the end, the end of input follows, and stands where the stream ends. -/
theorem peek_of_ahead_nil (h : parser.Holds position) (hahead : parser.ahead position = []) :
    parser.isAtEnd position = true ∧ (parser.peek position).place = parser.stream.finish := by
  have hdrop := ofTokens_drop h
  rw [isAtEnd, peek_eq_headD]
  cases hrest : parser.tokens.drop position with
  | nil =>
      rw [hrest] at hdrop
      exact ⟨rfl, congrArg TokenStream.finish hdrop⟩
  | cons other others =>
      by_cases hend : other.token.kind = .endOfInput
      · rw [hrest, ofTokens_endOfInput hend] at hdrop
        exact ⟨by simpa using hend, congrArg TokenStream.finish hdrop⟩
      · simp [hrest, hahead, TokenStream.ofTokens, hend] at hdrop

theorem ahead_succ {placed : Placed π} {rest : List (Placed π)}
    (hahead : parser.ahead position = placed :: rest) : parser.ahead (position + 1) = rest := by
  rw [ahead, ← List.drop_drop, ← ahead, hahead, List.drop_one, List.tail_cons]

theorem check_iff (h : parser.Holds position) {kind : TokenKind} :
    parser.check kind position = true ↔
      ∃ placed ∈ (parser.ahead position).head?, placed.token.kind = kind := by
  cases hahead : parser.ahead position with
  | nil => simp [check, (peek_of_ahead_nil h hahead).1]
  | cons placed rest =>
      obtain ⟨hpeek, hend, -⟩ := peek_of_ahead_cons h hahead
      simp [check, hpeek, hend]

end Ahead

end Parser
end Grammar
end SiteCompiler
