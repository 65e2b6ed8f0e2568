import SiteCompiler.Proofs.Lexical.Printing
import SiteCompiler.Proofs.Grammar.Rules
import Mathlib.Logic.ExistsUnique

/-!
# Well-formed programs

This module says which programs a source can have.  It speaks of names and texts
alone: nothing here mentions a reading or a derivation.

* `IsClassName` - the names of components.
* `IsValue`, `IsPlain`, `IsBody` - the texts that a program keeps.
* `WellFormedBlock`, `WellFormedComponent`, `WellFormed` - programs and their
  parts.

The lemmas behind the definitions put them in terms of tokens that have a text.
-/

namespace SiteCompiler
namespace Image

open Lexical Grammar

/-! ## Names and texts -/

/-- Class names: a letter or an underscore with letters, underscores and digits behind it, in a
spelling that nothing else claims. -/
structure IsClassName (name : String) : Prop where
  spelling : ∃ head tail, name.toList = head :: tail ∧ isWordStart head = true ∧
    ∀ c ∈ tail, isWordStart c = true ∨ c.isDigit = true
  keyword : TokenKind.keyword? name = none
  reserved : name ∉ reservedWords
  restricted : name ∉ restrictedNames

/-- The texts that are written for exactly one token, and not for a brace or the end of input. -/
def IsValue (value : String) : Prop :=
  ∃! token, Scannable token ∧ token.kind ≠ .leftBrace ∧ token.kind ≠ .rightBrace ∧
    token.kind ≠ .endOfInput ∧ token.sourceText = value

/-- The texts without a quote. -/
def IsPlain (text : String) : Prop :=
  '"' ∉ text.toList

/-- The texts of scanned tokens whose braces are balanced. -/
def IsBody (body : String) : Prop :=
  ∃ tokens, (∀ token ∈ tokens, Scannable token ∧ token.kind ≠ .endOfInput) ∧
    Balanced tokens ∧ bodyText tokens = body

/-! ## Programs -/

structure WellFormedDeclaration (declaration : Declaration) : Prop where
  name : IsIdentifier declaration.name
  value : IsValue declaration.value

def WellFormedText : DisplayText → Prop
  | .literal text => IsPlain text
  | .bound name => IsIdentifier name

structure WellFormedElement (element : Element) : Prop where
  name : IsIdentifier element.name
  text : ∀ text ∈ element.text, WellFormedText text
  action : ∀ action ∈ element.action, IsPlain action

structure WellFormedHandler (handler : Handler) : Prop where
  name : IsIdentifier handler.name
  body : IsBody handler.body

def WellFormedBlock : Block → Prop
  | .state fields => ∀ field ∈ fields, WellFormedDeclaration field
  | .style properties => ∀ property ∈ properties, WellFormedDeclaration property
  | .interface elements => ∀ element ∈ elements, WellFormedElement element
  | .event handler => WellFormedHandler handler

structure WellFormedComponent (component : Component) : Prop where
  name : IsClassName component.name
  once : OncePerKind component.blocks
  blocks : ∀ block ∈ component.blocks, WellFormedBlock block

/-- The programs that a source can have. -/
structure WellFormed (program : Program) : Prop where
  names : (program.components.map Component.name).Nodup
  components : ∀ component ∈ program.components, WellFormedComponent component

/-! ## In terms of tokens -/

/-- A character that goes on a word goes on a class name too, a hyphen apart. -/
theorem isWordRest_iff {c : Char} (hc : c ≠ '-') :
    isWordRest c = true ↔ isWordStart c = true ∨ c.isDigit = true := by
  simp [isWordRest, hc]

/-- The names of components are the identifiers that a class can bear. -/
theorem isClassName_iff (name : String) :
    IsClassName name ↔ IsIdentifier name ∧ CanName name := by
  constructor
  · intro h
    obtain ⟨⟨head, tail, htext, hhead, htail⟩, hkeyword, hreserved, hrestricted⟩ := h
    have hhyphen : '-' ∉ name.toList := by
      rw [htext, List.mem_cons]
      rintro (rfl | hmem)
      · exact absurd hhead (by decide)
      · exact absurd (htail '-' hmem) (by decide)
    have hrest : ∀ c ∈ tail, isWordRest c = true := by
      intro c hc
      refine (isWordRest_iff ?_).mpr (htail c hc)
      rintro rfl
      exact hhyphen (by simp [htext, hc])
    exact ⟨⟨⟨[], head, tail, htext, .inl rfl, hhead, hrest⟩, hkeyword⟩, hhyphen, hreserved,
      hrestricted⟩
  · rintro ⟨⟨⟨sign, head, tail, htext, hsign, hhead, htail⟩, hkeyword⟩, hhyphen, hreserved,
      hrestricted⟩
    rcases hsign with rfl | rfl
    · refine ⟨⟨head, tail, htext, hhead, ?_⟩, hkeyword, hreserved, hrestricted⟩
      intro c hc
      refine (isWordRest_iff ?_).mp (htail c hc)
      rintro rfl
      exact hhyphen (by simp [htext, hc])
    · -- A hyphen in front is one hyphen too many.
      exact (hhyphen (by simp [htext])).elim

/-- The tokens that may stand for a value. -/
structure ValueToken (token : Token) : Prop where
  lexeme : IsLexeme token
  notOpening : token.kind ≠ .leftBrace
  notClosing : token.kind ≠ .rightBrace

theorem isValue_iff (value : String) :
    IsValue value ↔ ∃ token, ValueToken token ∧ token.sourceText = value := by
  constructor
  · intro h
    obtain ⟨token, ⟨hscan, hopening, hclosing, hkind, htext⟩, -⟩ := h
    exact ⟨token, ⟨(scannable_iff_isLexeme token).mp ⟨hscan, hkind⟩, hopening, hclosing⟩, htext⟩
  · intro h
    obtain ⟨token, ⟨hlexeme, hopening, hclosing⟩, htext⟩ := h
    obtain ⟨hscan, hkind⟩ := (scannable_iff_isLexeme token).mpr hlexeme
    refine ⟨token, ⟨hscan, hopening, hclosing, hkind, htext⟩, ?_⟩
    rintro other ⟨hother, -, -, hotherKind, hotherText⟩
    have hotherLexeme := (scannable_iff_isLexeme other).mp ⟨hother, hotherKind⟩
    exact eq_of_sourceText_eq hotherLexeme hlexeme (hotherText.trans htext.symm)

theorem isBody_iff (body : String) :
    IsBody body ↔ ∃ tokens, Writable tokens ∧ Balanced tokens ∧ bodyText tokens = body := by
  simp only [IsBody, Writable, scannable_iff_isLexeme]

/-! ## The texts of values -/

theorem isPlain_textOf {value : Token} (h : IsLexeme value) : IsPlain (textOf value) := by
  obtain ⟨text, rest, h⟩ := h
  unfold IsPlain textOf
  by_cases hkind : value.kind = .string
  · obtain ⟨content, hcontent, hlexeme⟩ := h.quoted hkind
    simpa [hkind, hlexeme] using hcontent
  · rw [if_neg hkind, h.sourceText_eq]
    exact h.quote_not_mem hkind

theorem wellFormedText_displayOf {value : Token} (h : IsLexeme value) :
    WellFormedText (displayOf value) := by
  unfold displayOf
  by_cases hkind : value.kind = .identifier
  · rw [if_pos hkind]
    exact h.isIdentifier hkind
  · rw [if_neg hkind]
    exact isPlain_textOf h

end Image
end SiteCompiler
