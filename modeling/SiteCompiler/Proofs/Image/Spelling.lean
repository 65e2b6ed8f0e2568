import SiteCompiler.Proofs.Image.WellFormed

/-!
# Well-formed programs spelled out

The grammar derives well-formed parts of programs from tokens that have texts,
and every well-formed part from some of them.

* `exists_derivesPairs_iff`, `exists_declarations_iff` - pairs.
* `exists_derivesElements_iff`, `exists_derivesHandlers_iff` - what interfaces and
  blocks of events hold.
* `exists_derivesBlocks_iff`, `exists_derivesComponents_iff` - blocks and
  components.

An element is spelled with one pair for its text and one for its action, and a
handler has a block of its own, since a block keeps only its first handler.
-/

namespace SiteCompiler
namespace Image

open Lexical Grammar

/-! ## Tokens to spell with -/

def openingBrace : Token := ⟨.leftBrace, "\x7b"⟩

def closingBrace : Token := ⟨.rightBrace, "\x7d"⟩

def colonToken : Token := ⟨.colon, ":"⟩

def arrowToken : Token := ⟨.arrow, "->"⟩

def nameToken (name : String) : Token := ⟨.identifier, name⟩

/-- A string whose content is the text. -/
def stringToken (text : String) : Token :=
  ⟨.string, String.ofList ('"' :: (text.toList ++ ['"']))⟩

def blockToken (kind : BlockKind) : Token := ⟨keywordKind kind, kind.keyword⟩

def componentToken : Token := ⟨.component, "component"⟩

@[simp] theorem isLexeme_openingBrace : IsLexeme openingBrace :=
  ⟨['\x7b'], [], .punctuation (by decide)⟩

@[simp] theorem isLexeme_closingBrace : IsLexeme closingBrace :=
  ⟨['\x7d'], [], .punctuation (by decide)⟩

@[simp] theorem isLexeme_colonToken : IsLexeme colonToken :=
  ⟨[':'], [], .punctuation (by decide)⟩

@[simp] theorem isLexeme_arrowToken : IsLexeme arrowToken :=
  ⟨['-', '>'], [], .thinArrow⟩

@[simp] theorem isLexeme_blockToken (kind : BlockKind) : IsLexeme (blockToken kind) := by
  have hreserved : (kind.keyword, keywordKind kind) ∈ TokenKind.reserved := by
    cases kind <;> decide
  exact isLexeme_keyword hreserved

@[simp] theorem isLexeme_componentToken : IsLexeme componentToken := by
  have hreserved : ("component", TokenKind.component) ∈ TokenKind.reserved := by decide
  exact isLexeme_keyword hreserved

theorem textOf_stringToken (text : String) : textOf (stringToken text) = text := by
  simp [textOf, stringToken]

/-! ## Pairs -/

/-- A pair whose name and value can be written. -/
structure WritablePair (pair : String × Token) : Prop where
  name : IsIdentifier pair.1
  value : ValueToken pair.2

theorem exists_derivesPairs_iff (pairs : List (String × Token)) :
    (∃ inner, Writable inner ∧ DerivesPairs inner pairs) ↔
      ∀ pair ∈ pairs, WritablePair pair := by
  constructor
  · intro h
    obtain ⟨inner, hwritable, hpairs⟩ := h
    induction hpairs with
    | nil => simp
    | @cons name colon value rest pairs hname _ hopening hclosing _ ih =>
        simp only [writable_cons] at hwritable
        obtain ⟨hnameText, -, hvalue, hrest⟩ := hwritable
        have hpair : WritablePair (name.lexeme, value) :=
          ⟨hnameText.isIdentifier hname, ⟨hvalue, hopening, hclosing⟩⟩
        exact List.forall_mem_cons.mpr ⟨hpair, ih hrest⟩
  · intro h
    induction pairs with
    | nil => exact ⟨[], writable_nil, .nil⟩
    | cons pair pairs ih =>
        obtain ⟨hpair, hpairs⟩ := List.forall_mem_cons.mp h
        obtain ⟨inner, hinner, hderives⟩ := ih hpairs
        refine ⟨nameToken pair.1 :: colonToken :: pair.2 :: inner, ?_,
          .cons rfl rfl hpair.value.notOpening hpair.value.notClosing hderives⟩
        have hname : IsLexeme (nameToken pair.1) := isLexeme_identifier hpair.name
        simp [hname, hpair.value.lexeme, hinner]

/-- Each value is the text of some token, and that token is the value of a pair. -/
theorem exists_pairs_of_declarations {declarations : List Declaration}
    (h : ∀ declaration ∈ declarations, WellFormedDeclaration declaration) :
    ∃ pairs : List (String × Token), (∀ pair ∈ pairs, WritablePair pair) ∧
      pairs.map declarationOf = declarations := by
  induction declarations with
  | nil => exact ⟨[], by simp, rfl⟩
  | cons declaration declarations ih =>
      obtain ⟨hfirst, hothers⟩ := List.forall_mem_cons.mp h
      obtain ⟨pairs, hpairs, rfl⟩ := ih hothers
      obtain ⟨value, hvalue, htext⟩ := (isValue_iff _).mp hfirst.value
      refine ⟨(declaration.name, value) :: pairs, ?_, ?_⟩
      · exact List.forall_mem_cons.mpr ⟨⟨hfirst.name, hvalue⟩, hpairs⟩
      · rw [List.map_cons, declarationOf, htext]

/-- The declarations that pairs leave are the well-formed ones. -/
theorem exists_declarations_iff (declarations : List Declaration) :
    (∃ inner pairs, Writable inner ∧ DerivesPairs inner pairs ∧
        pairs.map declarationOf = declarations) ↔
      ∀ declaration ∈ declarations, WellFormedDeclaration declaration := by
  constructor
  · intro h
    obtain ⟨inner, pairs, hwritable, hderives, rfl⟩ := h
    have hpairs := (exists_derivesPairs_iff pairs).mp ⟨inner, hwritable, hderives⟩
    intro declaration hmem
    obtain ⟨pair, hpair, rfl⟩ := List.mem_map.mp hmem
    obtain ⟨hname, hvalue⟩ := hpairs pair hpair
    exact ⟨hname, (isValue_iff _).mpr ⟨pair.2, hvalue, rfl⟩⟩
  · intro h
    obtain ⟨pairs, hpairs, heq⟩ := exists_pairs_of_declarations h
    obtain ⟨inner, hwritable, hderives⟩ := (exists_derivesPairs_iff pairs).mpr hpairs
    exact ⟨inner, pairs, hwritable, hderives, heq⟩

/-! ## Elements -/

/-- What a text is bound to or reads, as a value. -/
def displayToken : DisplayText → Token
  | .literal text => stringToken text
  | .bound name => nameToken name

/-- The pairs of an element: one for its text and one for its action, where it has them. -/
def elementPairs (element : Element) : List (String × Token) :=
  (element.text.map fun text => ("texto", displayToken text)).toList ++
    (element.action.map fun action => ("acao", stringToken action)).toList

theorem displayOf_displayToken (text : DisplayText) : displayOf (displayToken text) = text := by
  cases text with
  | literal text => exact congrArg DisplayText.literal (textOf_stringToken text)
  | bound name => rfl

theorem elementOf_elementPairs (element : Element) :
    elementOf element.name (elementPairs element) = element := by
  obtain ⟨name, text, action⟩ := element
  have htexts : lastValue "texto" (elementPairs ⟨name, text, action⟩) = text.map displayToken := by
    cases text <;> cases action <;> simp [elementPairs, lastValue_cons, lastValue_nil]
  have hactions : lastValue "acao" (elementPairs ⟨name, text, action⟩) =
      action.map stringToken := by
    cases text <;> cases action <;> simp [elementPairs, lastValue_cons, lastValue_nil]
  simp [elementOf, htexts, hactions, Function.comp_def, displayOf_displayToken,
    textOf_stringToken]

theorem valueToken_stringToken {text : String} (h : IsPlain text) :
    ValueToken (stringToken text) :=
  ⟨isLexeme_string h, by simp [stringToken], by simp [stringToken]⟩

theorem valueToken_displayToken {text : DisplayText} (h : WellFormedText text) :
    ValueToken (displayToken text) := by
  cases text with
  | literal text => exact valueToken_stringToken h
  | bound name => exact ⟨isLexeme_identifier h, by simp [displayToken, nameToken],
      by simp [displayToken, nameToken]⟩

theorem writablePair_of_mem_elementPairs {element : Element} (h : WellFormedElement element) :
    ∀ pair ∈ elementPairs element, WritablePair pair := by
  have htexto : IsIdentifier "texto" := ⟨isWord_of_letters (by decide) (by decide), by decide⟩
  have hacao : IsIdentifier "acao" := ⟨isWord_of_letters (by decide) (by decide), by decide⟩
  intro pair hpair
  simp only [elementPairs, List.mem_append, Option.mem_toList, Option.map_eq_some_iff] at hpair
  rcases hpair with ⟨text, htext, rfl⟩ | ⟨action, haction, rfl⟩
  · exact ⟨htexto, valueToken_displayToken (h.text text htext)⟩
  · exact ⟨hacao, valueToken_stringToken (h.action action haction)⟩

theorem mem_of_lastValue {name : String} {pairs : List (String × Token)} {value : Token}
    (h : lastValue name pairs = some value) : (name, value) ∈ pairs :=
  List.mem_reverse.mp (mem_of_lookup h)

/-- An element is well formed if its pairs can be written. -/
theorem wellFormedElement_elementOf {name : String} {pairs : List (String × Token)}
    (hname : IsIdentifier name) (hpairs : ∀ pair ∈ pairs, WritablePair pair) :
    WellFormedElement (elementOf name pairs) := by
  refine ⟨hname, ?_, ?_⟩
  · intro text htext
    obtain ⟨value, hvalue, rfl⟩ := Option.map_eq_some_iff.mp htext
    exact wellFormedText_displayOf (hpairs _ (mem_of_lastValue hvalue)).value.lexeme
  · intro action haction
    obtain ⟨value, hvalue, rfl⟩ := Option.map_eq_some_iff.mp haction
    exact isPlain_textOf (hpairs _ (mem_of_lastValue hvalue)).value.lexeme

theorem exists_derivesElements_iff (elements : List Element) :
    (∃ inner, Writable inner ∧ DerivesElements inner elements) ↔
      ∀ element ∈ elements, WellFormedElement element := by
  constructor
  · intro h
    obtain ⟨inner, hwritable, helements⟩ := h
    induction helements with
    | nil => simp
    | @cons name opening closing inner rest pairs elements hname _ hpairs _ _ ih =>
        simp only [writable_cons, writable_append] at hwritable
        obtain ⟨hnameText, -, hinner, -, hrest⟩ := hwritable
        have hpairTokens := (exists_derivesPairs_iff pairs).mp ⟨inner, hinner, hpairs⟩
        have helement := wellFormedElement_elementOf (hnameText.isIdentifier hname) hpairTokens
        exact List.forall_mem_cons.mpr ⟨helement, ih hrest⟩
  · intro h
    induction elements with
    | nil => exact ⟨[], writable_nil, .nil⟩
    | cons element elements ih =>
        obtain ⟨helement, helements⟩ := List.forall_mem_cons.mp h
        obtain ⟨rest, hrest, hderives⟩ := ih helements
        obtain ⟨inner, hinner, hpairs⟩ := (exists_derivesPairs_iff (elementPairs element)).mpr
          (writablePair_of_mem_elementPairs helement)
        have hname : IsLexeme (nameToken element.name) := isLexeme_identifier helement.name
        -- The grammar reads the element off its pairs, and these give it back.
        have hcons : DerivesElements
            (nameToken element.name :: openingBrace :: (inner ++ closingBrace :: rest))
            (elementOf element.name (elementPairs element) :: elements) :=
          .cons rfl rfl hpairs rfl hderives
        rw [elementOf_elementPairs] at hcons
        exact ⟨_, by simp [hname, hinner, hrest], hcons⟩

/-! ## Handlers -/

theorem exists_derivesHandlers_iff (handlers : List Handler) :
    (∃ inner, Writable inner ∧ DerivesHandlers inner handlers) ↔
      ∀ handler ∈ handlers, WellFormedHandler handler := by
  constructor
  · intro h
    obtain ⟨inner, hwritable, hhandlers⟩ := h
    induction hhandlers with
    | nil => simp
    | @cons name arrow opening closing body rest handlers hname _ _ hbody _ _ ih =>
        simp only [writable_cons, writable_append] at hwritable
        obtain ⟨hnameText, -, -, hwords, -, hrest⟩ := hwritable
        have hhandler : WellFormedHandler ⟨name.lexeme, bodyText body⟩ :=
          ⟨hnameText.isIdentifier hname, (isBody_iff _).mpr ⟨body, hwords, hbody, rfl⟩⟩
        exact List.forall_mem_cons.mpr ⟨hhandler, ih hrest⟩
  · intro h
    induction handlers with
    | nil => exact ⟨[], writable_nil, .nil⟩
    | cons handler handlers ih =>
        obtain ⟨⟨hname, hbody⟩, hhandlers⟩ := List.forall_mem_cons.mp h
        obtain ⟨rest, hrest, hderives⟩ := ih hhandlers
        obtain ⟨body, hwords, hbalanced, htext⟩ := (isBody_iff _).mp hbody
        have hnameText : IsLexeme (nameToken handler.name) := isLexeme_identifier hname
        have hcons : DerivesHandlers
            (nameToken handler.name :: arrowToken :: openingBrace ::
              (body ++ closingBrace :: rest))
            (⟨handler.name, bodyText body⟩ :: handlers) :=
          .cons rfl rfl rfl hbalanced rfl hderives
        rw [htext] at hcons
        exact ⟨_, by simp [hnameText, hwords, hrest], hcons⟩

/-! ## Blocks -/

/-- What a block leaves is well formed if its tokens have texts. -/
theorem wellFormedBlock_of_derives {kind : BlockKind} {inner : List Token}
    {result : Option Block} (h : DerivesBlock kind inner result) (hwritable : Writable inner) :
    ∀ block ∈ result, WellFormedBlock block := by
  cases h with
  | state hpairs =>
      rintro block ⟨⟩
      exact (exists_declarations_iff _).mp ⟨inner, _, hwritable, hpairs, rfl⟩
  | style hpairs =>
      rintro block ⟨⟩
      exact (exists_declarations_iff _).mp ⟨inner, _, hwritable, hpairs, rfl⟩
  | interface helements =>
      rintro block ⟨⟩
      exact (exists_derivesElements_iff _).mp ⟨inner, hwritable, helements⟩
  | events hhandlers =>
      intro block hblock
      obtain ⟨handler, hfirst, rfl⟩ := Option.map_eq_some_iff.mp hblock
      have hall := (exists_derivesHandlers_iff _).mp ⟨inner, hwritable, hhandlers⟩
      exact hall handler (List.mem_of_mem_head? hfirst)

/-- Every well-formed block has a spelling. -/
theorem exists_derivesBlock {block : Block} (h : WellFormedBlock block) :
    ∃ inner, Writable inner ∧ DerivesBlock block.kind inner (some block) := by
  cases block with
  | state fields =>
      obtain ⟨inner, pairs, hinner, hpairs, rfl⟩ := (exists_declarations_iff fields).mpr h
      exact ⟨inner, hinner, .state hpairs⟩
  | style properties =>
      obtain ⟨inner, pairs, hinner, hpairs, rfl⟩ := (exists_declarations_iff properties).mpr h
      exact ⟨inner, hinner, .style hpairs⟩
  | interface elements =>
      obtain ⟨inner, hinner, helements⟩ := (exists_derivesElements_iff elements).mpr h
      exact ⟨inner, hinner, .interface helements⟩
  | event handler =>
      -- A block of its own, so that the handler is the first of its block.
      have hall : ∀ other ∈ [handler], WellFormedHandler other := by
        intro other hother
        rw [List.mem_singleton.mp hother]
        exact h
      obtain ⟨inner, hinner, hhandlers⟩ := (exists_derivesHandlers_iff [handler]).mpr hall
      exact ⟨inner, hinner, .events hhandlers⟩

theorem exists_derivesBlocks_iff (blocks : List Block) :
    (∃ inner, Writable inner ∧ DerivesBlocks inner blocks) ↔
      ∀ block ∈ blocks, WellFormedBlock block := by
  constructor
  · intro h
    obtain ⟨inner, hwritable, hblocks⟩ := h
    induction hblocks with
    | nil => simp
    | noise _ _ _ ih => exact ih ((writable_cons _ _).mp hwritable).2
    | @block keyword opening closing inner rest kind result blocks _ _ hblock _ _ ih =>
        simp only [writable_cons, writable_append] at hwritable
        obtain ⟨-, -, hinner, -, hrest⟩ := hwritable
        intro block hmem
        rcases List.mem_append.mp hmem with hresult | hlater
        · exact wellFormedBlock_of_derives hblock hinner block (Option.mem_toList.mp hresult)
        · exact ih hrest block hlater
  · intro h
    induction blocks with
    | nil => exact ⟨[], writable_nil, .nil⟩
    | cons block blocks ih =>
        obtain ⟨hblock, hblocks⟩ := List.forall_mem_cons.mp h
        obtain ⟨rest, hrest, hderives⟩ := ih hblocks
        obtain ⟨inner, hinner, hbody⟩ := exists_derivesBlock hblock
        refine ⟨blockToken block.kind :: openingBrace :: (inner ++ closingBrace :: rest),
          by simp [hinner, hrest], ?_⟩
        exact .block rfl rfl hbody rfl hderives

/-! ## Components -/

theorem exists_derivesComponents_iff (components : List Component) :
    (∃ tokens, Writable tokens ∧ DerivesComponents tokens components) ↔
      ∀ component ∈ components, WellFormedComponent component := by
  constructor
  · intro h
    obtain ⟨tokens, hwritable, hcomponents⟩ := h
    induction hcomponents with
    | nil => simp
    | noise _ _ ih => exact ih ((writable_cons _ _).mp hwritable).2
    | @component keyword name opening closing inner rest blocks components _ hname hcan _
        hblocks honce _ _ ih =>
        simp only [writable_cons, writable_append] at hwritable
        obtain ⟨-, hnameText, -, hinner, -, hrest⟩ := hwritable
        have hclass : IsClassName name.lexeme :=
          (isClassName_iff _).mpr ⟨hnameText.isIdentifier hname, hcan⟩
        have hall := (exists_derivesBlocks_iff blocks).mp ⟨inner, hinner, hblocks⟩
        exact List.forall_mem_cons.mpr ⟨⟨hclass, honce, hall⟩, ih hrest⟩
  · intro h
    induction components with
    | nil => exact ⟨[], writable_nil, .nil⟩
    | cons component components ih =>
        obtain ⟨⟨hclass, honce, hblocks⟩, hcomponents⟩ := List.forall_mem_cons.mp h
        obtain ⟨rest, hrest, hderives⟩ := ih hcomponents
        obtain ⟨inner, hinner, hbody⟩ := (exists_derivesBlocks_iff component.blocks).mpr hblocks
        obtain ⟨hname, hcan⟩ := (isClassName_iff _).mp hclass
        have hnameText : IsLexeme (nameToken component.name) := isLexeme_identifier hname
        refine ⟨componentToken :: nameToken component.name :: openingBrace ::
          (inner ++ closingBrace :: rest), by simp [hnameText, hinner, hrest], ?_⟩
        exact .component rfl rfl hcan rfl hbody honce rfl hderives

end Image
end SiteCompiler
