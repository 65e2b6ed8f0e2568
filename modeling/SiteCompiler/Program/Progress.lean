import SiteCompiler.Program.OpenBlock

/-!
# A program that is being read

A program is read in one pass over its tokens.  `Progress` holds the components
read so far and what may come next.  Between components, and between the blocks
of a component, tokens that begin nothing are passed over.  No step looks at a
place: places only travel into errors.

* `isComponentName` - the words that can name a component.
* `Progress.step` - one token: the reading goes on, or the program is refused.
* `Progress.conclude` - the result if no token follows.
-/

namespace SiteCompiler

/-- The words that a script reserves. -/
def reservedWords : List String :=
  ["await", "break", "case", "catch", "class", "const", "continue", "debugger", "default",
    "delete", "do", "else", "enum", "export", "extends", "false", "finally", "for", "function",
    "if", "implements", "import", "in", "instanceof", "interface", "let", "new", "null",
    "package", "private", "protected", "public", "return", "static", "super", "switch", "this",
    "throw", "true", "try", "typeof", "var", "void", "while", "with", "yield"]

/-- The names that a script does not let a class take, though it reserves no word of them. -/
def restrictedNames : List String :=
  ["arguments", "eval", "Infinity", "NaN", "undefined"]

/-- Whether a word can be the name of a component, and so of a class in its script. -/
def isComponentName (name : String) : Bool :=
  !name.toList.contains '-' && !reservedWords.contains name && !restrictedNames.contains name

/-- The block that a keyword opens. -/
def TokenKind.block? : TokenKind → Option BlockKind
  | state => some .state
  | style => some .style
  | interface => some .interface
  | events => some .events
  | _ => none

variable {π : Type}

/-- A component that is being read: its name, the place of its name, and its blocks so far. -/
structure Draft (π : Type) where
  name : String
  place : π
  blocks : List Block
  deriving DecidableEq, Repr

namespace Draft

/-- Whether a block of this kind may not be opened: only handlers may stand in several blocks. -/
def refuses (draft : Draft π) (kind : BlockKind) : Bool :=
  kind != .events && draft.blocks.any fun block => block.kind = kind

/-- The draft with the outcome of a further block. -/
def add (draft : Draft π) (block : Option Block) : Draft π :=
  ⟨draft.name, draft.place, draft.blocks ++ block.toList⟩

end Draft

/-- Where in a program a reader stands. -/
inductive Mode (π : Type) where
  /-- Between components. -/
  | outside
  /-- Behind the keyword of a component: its name must follow. -/
  | naming
  /-- Behind the name of a component: the opening brace must follow. -/
  | opening (draft : Draft π)
  /-- Between the blocks of a component. -/
  | between (draft : Draft π)
  /-- Inside a block of a component. -/
  | within (draft : Draft π) (block : OpenBlock)
  deriving DecidableEq, Repr

/-- The components that have been read, and where the reader stands. -/
structure Progress (π : Type) where
  components : List Component
  mode : Mode π
  deriving DecidableEq, Repr

/-- An error together with the fate of the token at which it was found: a refusal may use the token
up or leave it for a later reading. -/
structure Refusal (π : Type) where
  error : ParseError π
  consumed : Bool
  deriving DecidableEq, Repr

/-- Blame a token, and leave it where it is. -/
def Placed.refuse {α : Type} (placed : Placed π) (fault : ParseFault) : Except (Refusal π) α :=
  .error ⟨⟨fault, placed.place⟩, false⟩

namespace Progress

/-- Nothing has been read. -/
def start : Progress π :=
  ⟨[], .outside⟩

/-- The same components, with the reader elsewhere. -/
def moveTo (progress : Progress π) (mode : Mode π) : Progress π :=
  ⟨progress.components, mode⟩

/-- The closing brace of a component: the component is accepted if its name is new. -/
def accept (progress : Progress π) (draft : Draft π) :
    Except (Refusal π) (Progress π × List Record) :=
  -- The error blames the name, not the brace at which it is found.
  if progress.components.any fun component => component.name = draft.name then
    .error ⟨⟨.duplicateComponent draft.name, draft.place⟩, true⟩
  else
    .ok (⟨progress.components ++ [⟨draft.name, draft.blocks⟩], .outside⟩,
      [.parsedComponent draft.name draft.blocks.length])

/-- Read one token. -/
def step (progress : Progress π) (placed : Placed π) :
    Except (Refusal π) (Progress π × List Record) :=
  let token := placed.token
  match progress.mode with
  | .outside =>
    if token.kind = .component then .ok (progress.moveTo .naming, [])
    else .ok (progress, [.skippedOutside token])
  | .naming =>
    if token.kind ≠ .identifier then placed.refuse (.expected .componentName (some token))
    else if isComponentName token.lexeme then
      .ok (progress.moveTo (.opening ⟨token.lexeme, placed.place, []⟩), [])
    -- A name is used up even if it cannot be one.
    else .error ⟨⟨.invalidName token.lexeme, placed.place⟩, true⟩
  | .opening draft =>
    if token.kind = .leftBrace then .ok (progress.moveTo (.between draft), [])
    else placed.refuse (.expected .componentOpening (some token))
  | .between draft =>
    if token.kind = .rightBrace then progress.accept draft
    else
      match token.kind.block? with
      | none => .ok (progress, [.skippedInside token draft.name])
      | some kind =>
        if draft.refuses kind then placed.refuse (.duplicateBlock kind)
        else .ok (progress.moveTo (.within draft (.opening kind)), [])
  | .within draft block =>
    match block.step token with
    | .error fault => placed.refuse fault
    | .ok (.more next records) => .ok (progress.moveTo (.within draft next), records)
    | .ok (.done result records) => .ok (progress.moveTo (.between (draft.add result)), records)

/-- What is missing if no token follows; between components nothing is. -/
def wanted? (progress : Progress π) : Option Expectation :=
  match progress.mode with
  | .outside => none
  | .naming => some .componentName
  | .opening _ => some .componentOpening
  | .between _ => some .componentEnd
  | .within _ block => some block.wanted

/-- The result of a reading whose tokens end here. -/
def conclude (progress : Progress π) (finish : π) : Except (ParseError π) Program :=
  match progress.wanted? with
  | none => .ok ⟨progress.components⟩
  | some expectation => .error ⟨.expected expectation none, finish⟩

end Progress

end SiteCompiler
