import SiteCompiler.Proofs.Image.Spelling
import SiteCompiler.Proofs.Grammar.Program

/-!
# The programs of sources

A source is read in two stages, and each has its own rules.  Here the two are put
together.

* `parse_eq_ok_iff` - what is read from a source, by the lexical rules and the
  grammar.
* `exists_source_iff_wellFormed` - the programs that are read from some source.
-/

namespace SiteCompiler
namespace Image

open Lexical Grammar

/-- Scanned tokens have their strings quoted. -/
theorem quoted_of_isLexeme {token : Token} (h : IsLexeme token) : Quoted token := by
  intro hkind
  obtain ⟨text, rest, hlexeme⟩ := h
  obtain ⟨content, -, hquoted⟩ := hlexeme.quoted hkind
  exact ⟨content, hquoted⟩

theorem allQuoted_of_writable {tokens : List Token} (h : Writable tokens) : AllQuoted tokens :=
  fun token htoken => quoted_of_isLexeme (h token htoken)

/-- The strings of a scanned source are quoted. -/
theorem quoted_of_scan {source : String} {placed : List (Placed Span)}
    (h : scan source = .ok placed) : AllQuoted (placed.map Placed.token) := by
  obtain ⟨body, hbody, hlexes⟩ := lexes_of_scan h
  rw [hbody, allQuoted_append]
  exact ⟨allQuoted_of_writable hlexes.writable, by simp [Quoted, Token.finish]⟩

/-- The program of a source is the one that the grammar derives from the tokens that the lexical
rules find in it. -/
theorem parse_eq_ok_iff (source : String) (program : Program) :
    Program.parse source = .ok program ↔
      ∃ tokens, Lexes source.toList tokens ∧ Derives tokens program := by
  -- Once the tokens are known, the grammar alone decides.
  have hread {placed : List (Placed Span)} {body : List Token}
      (hbody : placed.map Placed.token = body ++ [.finish]) (hlexes : Lexes source.toList body) :
      (TokenStream.ofScan placed).parse.result = .ok program ↔ Derives body program := by
    have hwritable := hlexes.writable
    rw [TokenStream.ofScan, parse_eq_ok_iff_accepts,
      tokensBefore_eq hbody hwritable.kind_ne_endOfInput,
      accepts_start_iff (allQuoted_of_writable hwritable)]
  constructor
  · intro h
    cases hscan : scan source with
    | error error => simp [Program.parse, hscan] at h
    | ok placed =>
        obtain ⟨body, hbody, hlexes⟩ := lexes_of_scan hscan
        simp only [Program.parse, hscan, mapError_eq_ok_iff] at h
        exact ⟨body, hlexes, (hread hbody hlexes).mp h⟩
  · intro h
    obtain ⟨tokens, hlexes, hderives⟩ := h
    obtain ⟨placed, hscan, hbody⟩ := scan_of_lexes hlexes
    simp only [Program.parse, hscan, mapError_eq_ok_iff]
    exact (hread hbody hlexes).mpr hderives

/-- What is read from a source is well-formed. -/
theorem wellFormed_of_parse {source : String} {program : Program}
    (h : Program.parse source = .ok program) : WellFormed program := by
  obtain ⟨tokens, hlexes, hcomponents, hnames⟩ := (parse_eq_ok_iff source program).mp h
  have hall := (exists_derivesComponents_iff program.components).mp
    ⟨tokens, hlexes.writable, hcomponents⟩
  exact ⟨hnames, hall⟩

/-- The block stands in a program that is read from some source. -/
def IsDeclared (block : Block) : Prop :=
  ∃ source program, Program.parse source = .ok program ∧
    ∃ component ∈ program.components, block ∈ component.blocks

theorem wellFormedBlock_of_isDeclared {block : Block} (h : IsDeclared block) :
    WellFormedBlock block := by
  obtain ⟨source, program, hparse, component, hcomponent, hblock⟩ := h
  exact ((wellFormed_of_parse hparse).components component hcomponent).blocks block hblock

/-- The programs that are read from some source are exactly the well-formed ones. -/
theorem exists_source_iff_wellFormed (program : Program) :
    (∃ source, Program.parse source = .ok program) ↔ WellFormed program := by
  constructor
  · intro h
    obtain ⟨source, hparse⟩ := h
    exact wellFormed_of_parse hparse
  · intro h
    obtain ⟨hnames, hcomponents⟩ := h
    obtain ⟨tokens, hwritable, hderives⟩ :=
      (exists_derivesComponents_iff program.components).mpr hcomponents
    obtain ⟨source, hlexes⟩ := exists_source hwritable
    exact ⟨source, (parse_eq_ok_iff source program).mpr ⟨tokens, hlexes, hderives, hnames⟩⟩

end Image
end SiteCompiler
