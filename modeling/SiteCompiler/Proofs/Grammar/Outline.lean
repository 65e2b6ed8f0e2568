import SiteCompiler.Proofs.Grammar.Program

/-!
# Outlines of programs

Of the handlers of a block a program keeps the first.  An outline keeps them all,
and so says what the program has lost.

* `Part`, `Outline` - blocks and components with all their handlers; what a
  program keeps of them, and what is to be told of them.
* `DerivesParts`, `DerivesOutlines` - the outlines of a sequence of tokens.
* `Interrupted` - the outlines of a sequence that stops inside a component.
-/

namespace SiteCompiler
namespace Grammar

/-! ## What is declared, and what is kept -/

/-- A block as it is declared, with all its handlers. -/
inductive Part where
  | whole (block : Block)
  | events (handlers : List Handler)
  deriving DecidableEq, Repr

namespace Part

/-- The block that is kept: of several handlers the first. -/
def kept : Part → Option Block
  | whole block => some block
  | events handlers => handlers.head?.map .event

/-- The handlers that are lost. -/
def dropped : Part → List Handler
  | whole _ => []
  | events handlers => handlers.tail

/-- What is told of a block: one warning that names the handlers it loses, if it loses any. -/
def warnings (part : Part) : List (Level × String) :=
  if part.dropped = [] then []
  else
    [(.warn, "only the first handler of an 'eventos' block is kept; dropping " ++
      ", ".intercalate (part.dropped.map Handler.name))]

end Part

/-- A component as it is declared. -/
structure Outline where
  name : String
  parts : List Part
  deriving DecidableEq, Repr

namespace Outline

/-- The component that is kept. -/
def component (outline : Outline) : Component :=
  ⟨outline.name, outline.parts.filterMap Part.kept⟩

/-- What is told of a component: the warnings of its blocks in order, and behind them its name and
the number of the blocks that are kept. -/
def report (outline : Outline) : List (Level × String) :=
  outline.parts.flatMap Part.warnings ++
    [(.debug, "parsed component '" ++ outline.name ++ "' with " ++
      toString outline.component.blocks.length ++ " blocks")]

end Outline

/-! ## Derivations -/

/-- The inside of a block, and the block as it is declared. -/
inductive DerivesPart : BlockKind → List Token → Part → Prop
  | whole {kind : BlockKind} {inner : List Token} {block : Block} :
      kind ≠ .events → DerivesBlock kind inner (some block) → DerivesPart kind inner (.whole block)
  | events {inner : List Token} {handlers : List Handler} :
      DerivesHandlers inner handlers → DerivesPart .events inner (.events handlers)

/-- The body of a component, block by block. -/
inductive DerivesParts : List Token → List Part → Prop
  | nil : DerivesParts [] []
  | noise {token : Token} {rest : List Token} {parts : List Part} :
      token.kind ≠ .rightBrace → (∀ kind, token.kind ≠ keywordKind kind) →
        DerivesParts rest parts → DerivesParts (token :: rest) parts
  | part {keyword opening closing : Token} {inner rest : List Token} {kind : BlockKind}
      {part : Part} {parts : List Part} :
      keyword.kind = keywordKind kind → opening.kind = .leftBrace → DerivesPart kind inner part →
        closing.kind = .rightBrace → DerivesParts rest parts →
          DerivesParts (keyword :: opening :: (inner ++ closing :: rest)) (part :: parts)

/-- A sequence of components as they are declared.  Their names, and how often a kind of block
stands in one of them, are not looked at. -/
inductive DerivesOutlines : List Token → List Outline → Prop
  | nil : DerivesOutlines [] []
  | noise {token : Token} {rest : List Token} {outlines : List Outline} :
      token.kind ≠ .component → DerivesOutlines rest outlines →
        DerivesOutlines (token :: rest) outlines
  | component {keyword name opening closing : Token} {inner rest : List Token}
      {parts : List Part} {outlines : List Outline} :
      keyword.kind = .component → name.kind = .identifier → opening.kind = .leftBrace →
        DerivesParts inner parts → closing.kind = .rightBrace → DerivesOutlines rest outlines →
          DerivesOutlines (keyword :: name :: opening :: (inner ++ closing :: rest))
            (⟨name.lexeme, parts⟩ :: outlines)

/-- A sequence of components, and behind them the keyword, the name and the opening brace of
another. -/
inductive DerivesHead : List Token → List Outline → String → Prop
  | intro {front : List Token} {keyword name opening : Token} {outlines : List Outline} :
      DerivesOutlines front outlines → keyword.kind = .component → name.kind = .identifier →
        opening.kind = .leftBrace →
          DerivesHead (front ++ [keyword, name, opening]) outlines name.lexeme

/-- No whole block of the kind stands in front. -/
def Unclosed (kind : BlockKind) (tokens : List Token) : Prop :=
  ∀ opening inner closing rest part, tokens = opening :: (inner ++ closing :: rest) →
    opening.kind = .leftBrace → closing.kind = .rightBrace → ¬ DerivesPart kind inner part

/-- What stands behind the whole blocks of a component that is not accepted. -/
inductive Breaks (name : String) (taken : List String) : List Token → Prop
  | nil : Breaks name taken []
  /-- A block does not get to its end. -/
  | within {keyword : Token} {tokens : List Token} {kind : BlockKind} :
      keyword.kind = keywordKind kind → Unclosed kind tokens →
        Breaks name taken (keyword :: tokens)
  /-- The component gets to its end, but an earlier one has its name. -/
  | repeated {closing : Token} :
      closing.kind = .rightBrace → name ∈ taken → Breaks name taken [closing]

/-- A component that is not accepted, from behind its keyword, and those of its blocks that are
whole. -/
inductive Unfinished (taken : List String) : List Token → List Part → Prop
  | unnamed {tokens : List Token} : tokens.length ≤ 1 → Unfinished taken tokens []
  | opened {name opening : Token} {inner tokens : List Token} {parts : List Part} :
      name.kind = .identifier → opening.kind = .leftBrace → DerivesParts inner parts →
        Breaks name.lexeme taken tokens →
          Unfinished taken (name :: opening :: (inner ++ tokens)) parts

/-- A sequence of components, and behind them one that is not accepted. -/
inductive Interrupted : List Token → List Outline → List Part → Prop
  | intro {front behind : List Token} {keyword : Token} {outlines : List Outline}
      {parts : List Part} :
      DerivesOutlines front outlines → keyword.kind = .component →
        Unfinished (outlines.map Outline.name) behind parts →
          Interrupted (front ++ keyword :: behind) outlines parts

theorem DerivesPart.derivesBlock {kind : BlockKind} {inner : List Token} {part : Part}
    (h : DerivesPart kind inner part) : DerivesBlock kind inner part.kept := by
  cases h with
  | whole _ hblock => exact hblock
  | events hhandlers => exact .events hhandlers

theorem DerivesParts.append {tokens more : List Token} {parts others : List Part}
    (h : DerivesParts tokens parts) (hmore : DerivesParts more others) :
    DerivesParts (tokens ++ more) (parts ++ others) := by
  induction h with
  | nil => exact hmore
  | noise hclosing hkeyword _ ih => exact .noise hclosing hkeyword ih
  | part hkeyword hopening hpart hclosing _ ih =>
      simpa using DerivesParts.part hkeyword hopening hpart hclosing ih

theorem DerivesOutlines.append {tokens more : List Token} {outlines others : List Outline}
    (h : DerivesOutlines tokens outlines) (hmore : DerivesOutlines more others) :
    DerivesOutlines (tokens ++ more) (outlines ++ others) := by
  induction h with
  | nil => exact hmore
  | noise hkind _ ih => exact .noise hkind ih
  | component hkeyword hname hopening hparts hclosing _ ih =>
      simpa using DerivesOutlines.component hkeyword hname hopening hparts hclosing ih

/-- The closing brace makes a component of what stands behind its head. -/
theorem DerivesHead.close {front inner : List Token} {closing : Token} {outlines : List Outline}
    {name : String} {parts : List Part} (h : DerivesHead front outlines name)
    (hparts : DerivesParts inner parts) (hclosing : closing.kind = .rightBrace) :
    DerivesOutlines (front ++ (inner ++ [closing])) (outlines ++ [⟨name, parts⟩]) := by
  obtain ⟨hfront, hkeyword, hname, hopening⟩ := h
  simpa using hfront.append (.component hkeyword hname hopening hparts hclosing .nil)

end Grammar
end SiteCompiler
