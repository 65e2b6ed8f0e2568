import SiteCompiler.Program.Parse

/-!
# The grammar of programs

This module says which sequences of tokens are programs, and which program each
of them is.  It is written from the grammar alone: nothing here mentions a
reader's state, the order in which it looks at things, or where it gives up.

* `Balanced` - the token sequences in which every brace has its partner.
* `DerivesPairs`, `DerivesElements`, `DerivesHandlers` - the insides of blocks.
* `DerivesBlock`, `DerivesBlocks` - a block, and the body of a component.
* `DerivesComponents` - a sequence of components with anything between them.
* `Derives` - a program, whose components have names of their own.

A brace, a keyword or a name is recognised by its kind.  The lexeme matters only
where the program keeps it.
-/

namespace SiteCompiler
namespace Grammar

/-! ## What tokens mean -/

/-- A string lexeme stands between two quotes. -/
def Quoted (token : Token) : Prop :=
  token.kind = .string → ∃ content, token.lexeme.toList = '"' :: (content ++ ['"'])

/-- Every string of the tokens is quoted. -/
def AllQuoted (tokens : List Token) : Prop :=
  ∀ token ∈ tokens, Quoted token

/-- The text of a value: a string is meant without its quotes, anything else as written. -/
def textOf (value : Token) : String :=
  if value.kind = .string then String.ofList value.lexeme.toList.tail.dropLast
  else value.sourceText

/-- The display text of a value: an identifier names the variable to follow. -/
def displayOf (value : Token) : DisplayText :=
  if value.kind = .identifier then .bound value.lexeme else .literal (textOf value)

/-- The value of the last pair of a name. -/
def lastValue (name : String) (pairs : List (String × Token)) : Option Token :=
  pairs.reverse.lookup name

/-- An element: the last `texto` and the last `acao` count, and no other pair does. -/
def elementOf (name : String) (pairs : List (String × Token)) : Element :=
  ⟨name, (lastValue "texto" pairs).map displayOf, (lastValue "acao" pairs).map textOf⟩

/-- A declaration keeps its value as it was written. -/
def declarationOf (pair : String × Token) : Declaration :=
  ⟨pair.1, pair.2.sourceText⟩

/-- The word for a token of a handler body: an identifier is meant as a field of `this`. -/
def wordOf (token : Token) : String :=
  if token.kind = .identifier then "this." ++ token.lexeme else token.sourceText

/-- The text of a handler body: its words, with a space between any two. -/
def bodyText (body : List Token) : String :=
  " ".intercalate (body.map wordOf)

/-- The kind of the keyword that opens a block. -/
def keywordKind : BlockKind → TokenKind
  | .state => .state
  | .style => .style
  | .interface => .interface
  | .events => .events

/-- The names that a class of a script can bear. -/
def CanName (name : String) : Prop :=
  '-' ∉ name.toList ∧ name ∉ reservedWords ∧ name ∉ restrictedNames

/-- No two blocks are of the same kind, event handlers apart. -/
def OncePerKind (blocks : List Block) : Prop :=
  blocks.Pairwise fun earlier later => earlier.kind = later.kind → earlier.kind = .events

/-! ## Derivations -/

/-- Every brace of the sequence has its partner. -/
inductive Balanced : List Token → Prop
  | nil : Balanced []
  | word {token : Token} {rest : List Token} :
      token.kind ≠ .leftBrace → token.kind ≠ .rightBrace → Balanced rest →
        Balanced (token :: rest)
  | braces {opening closing : Token} {inner rest : List Token} :
      opening.kind = .leftBrace → Balanced inner → closing.kind = .rightBrace →
        Balanced rest → Balanced (opening :: (inner ++ closing :: rest))

/-- A sequence of `name: value` pairs, in order. -/
inductive DerivesPairs : List Token → List (String × Token) → Prop
  | nil : DerivesPairs [] []
  | cons {name colon value : Token} {rest : List Token} {pairs : List (String × Token)} :
      name.kind = .identifier → colon.kind = .colon →
        value.kind ≠ .leftBrace → value.kind ≠ .rightBrace → DerivesPairs rest pairs →
          DerivesPairs (name :: colon :: value :: rest) ((name.lexeme, value) :: pairs)

/-- A sequence of elements, each a name with pairs in braces. -/
inductive DerivesElements : List Token → List Element → Prop
  | nil : DerivesElements [] []
  | cons {name opening closing : Token} {inner rest : List Token}
      {pairs : List (String × Token)} {elements : List Element} :
      name.kind = .identifier → opening.kind = .leftBrace → DerivesPairs inner pairs →
        closing.kind = .rightBrace → DerivesElements rest elements →
          DerivesElements (name :: opening :: (inner ++ closing :: rest))
            (elementOf name.lexeme pairs :: elements)

/-- A sequence of event handlers, each a name and an arrow before a body in braces. -/
inductive DerivesHandlers : List Token → List Handler → Prop
  | nil : DerivesHandlers [] []
  | cons {name arrow opening closing : Token} {body rest : List Token}
      {handlers : List Handler} :
      name.kind = .identifier → arrow.kind = .arrow → opening.kind = .leftBrace →
        Balanced body → closing.kind = .rightBrace → DerivesHandlers rest handlers →
          DerivesHandlers (name :: arrow :: opening :: (body ++ closing :: rest))
            (⟨name.lexeme, bodyText body⟩ :: handlers)

/-- The inside of a block, and the block that it leaves: of its handlers only the first. -/
inductive DerivesBlock : BlockKind → List Token → Option Block → Prop
  | state {inner : List Token} {pairs : List (String × Token)} :
      DerivesPairs inner pairs →
        DerivesBlock .state inner (some (.state (pairs.map declarationOf)))
  | style {inner : List Token} {pairs : List (String × Token)} :
      DerivesPairs inner pairs →
        DerivesBlock .style inner (some (.style (pairs.map declarationOf)))
  | interface {inner : List Token} {elements : List Element} :
      DerivesElements inner elements →
        DerivesBlock .interface inner (some (.interface elements))
  | events {inner : List Token} {handlers : List Handler} :
      DerivesHandlers inner handlers →
        DerivesBlock .events inner (handlers.head?.map .event)

/-- The body of a component: blocks, and between them any token that neither opens a block nor
ends the body. -/
inductive DerivesBlocks : List Token → List Block → Prop
  | nil : DerivesBlocks [] []
  | noise {token : Token} {rest : List Token} {blocks : List Block} :
      token.kind ≠ .rightBrace → (∀ kind, token.kind ≠ keywordKind kind) →
        DerivesBlocks rest blocks → DerivesBlocks (token :: rest) blocks
  | block {keyword opening closing : Token} {inner rest : List Token} {kind : BlockKind}
      {result : Option Block} {blocks : List Block} :
      keyword.kind = keywordKind kind → opening.kind = .leftBrace →
        DerivesBlock kind inner result → closing.kind = .rightBrace →
          DerivesBlocks rest blocks →
            DerivesBlocks (keyword :: opening :: (inner ++ closing :: rest))
              (result.toList ++ blocks)

/-- A sequence of components, and between them any token that opens none. -/
inductive DerivesComponents : List Token → List Component → Prop
  | nil : DerivesComponents [] []
  | noise {token : Token} {rest : List Token} {components : List Component} :
      token.kind ≠ .component → DerivesComponents rest components →
        DerivesComponents (token :: rest) components
  | component {keyword name opening closing : Token} {inner rest : List Token}
      {blocks : List Block} {components : List Component} :
      keyword.kind = .component → name.kind = .identifier → CanName name.lexeme →
        opening.kind = .leftBrace → DerivesBlocks inner blocks → OncePerKind blocks →
          closing.kind = .rightBrace → DerivesComponents rest components →
            DerivesComponents (keyword :: name :: opening :: (inner ++ closing :: rest))
              (⟨name.lexeme, blocks⟩ :: components)

/-- The tokens are those of the program, and no two of its components share a name. -/
def Derives (tokens : List Token) (program : Program) : Prop :=
  DerivesComponents tokens program.components ∧
    (program.components.map Component.name).Nodup

/-! ## Values -/

@[simp] theorem allQuoted_nil : AllQuoted [] := by
  simp [AllQuoted]

@[simp] theorem allQuoted_cons (token : Token) (tokens : List Token) :
    AllQuoted (token :: tokens) ↔ Quoted token ∧ AllQuoted tokens := by
  simp [AllQuoted]

@[simp] theorem allQuoted_append (tokens more : List Token) :
    AllQuoted (tokens ++ more) ↔ AllQuoted tokens ∧ AllQuoted more := by
  simp [AllQuoted, or_imp, forall_and]

theorem stripEnds?_quoted (content : List Char) :
    stripEnds? ('"' :: (content ++ ['"'])) = some content := by
  have hsize : '"'.utf8Size = 1 := by decide
  simp [stripEnds?, hsize]

/-- The quotes of a value can be taken off, and what remains is its text. -/
theorem Quoted.unquote_eq {value : Token} (h : Quoted value) :
    value.unquote = .ok (textOf value) := by
  unfold Token.unquote textOf
  by_cases hkind : value.kind = .string
  · obtain ⟨content, hlexeme⟩ := h hkind
    simp [hkind, hlexeme, stripEnds?_quoted]
  · simp [hkind]

theorem Quoted.displayText_eq {value : Token} (h : Quoted value) :
    value.displayText = .ok (displayOf value) := by
  unfold Token.displayText displayOf
  by_cases hkind : value.kind = .identifier
  · simp [hkind]
  · simp [hkind, h.unquote_eq, Except.map]

theorem bodyText_eq (body : List Token) :
    bodyText body = " ".intercalate (body.map Token.statementWord) := rfl

theorem lastValue_nil (name : String) : lastValue name [] = none := rfl

theorem lastValue_cons (name key : String) (value : Token) (pairs : List (String × Token)) :
    lastValue name ((key, value) :: pairs) =
      (lastValue name pairs).or (if key = name then some value else none) := by
  rw [lastValue, List.reverse_cons, List.lookup_append, List.lookup_cons, List.lookup_nil]
  congr 1
  by_cases hkey : key = name
  · simp [hkey]
  · have hbeq : (name == key) = false := beq_false_of_ne (Ne.symm hkey)
    simp [hkey, hbeq]

end Grammar
end SiteCompiler
