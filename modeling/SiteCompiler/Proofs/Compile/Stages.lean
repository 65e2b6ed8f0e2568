import SiteCompiler.Compile
import SiteCompiler.Proofs.Lexical.Span
import SiteCompiler.Proofs.Grammar.Program
import SiteCompiler.Proofs.Grammar.Refusals
import SiteCompiler.Proofs.Image.Source

/-!
# The stages of a compilation

A source is scanned, its tokens are read, and the program is rendered.  Each
stage sees only what the stage before it left.

* `exists_scanned` - a scanned text ends in the only end of input that it has.
* `parse_of_scan_error`, `parse_of_scan_ok`, `parse_of_scanned` - what is read
  from a source.
* `compile_of_scan_error`, `compile_of_scan_ok` - what is compiled from it.
* `compile_eq_ok_iff`, `compile_of_parse_error` - the site of a source is its
  rendered program, and the errors of the reader are errors of the compilation.
* `exists_wellFormed_of_compile` - every component of a site comes from a well-formed one.
* `parse_eq_ofScan_iff`, `compile_eq_scan_iff`, `compile_eq_parse_iff` - each
  error tells the stage that it comes from.
-/

namespace SiteCompiler
namespace Stages

open Lexical Grammar

/-- A scanned text: tokens, and the end of input behind them. -/
structure Scanned (text : List Char) (body : List (Placed Span)) (finish : Span) : Prop where
  scan : scanText text = .ok (body ++ [⟨.finish, finish⟩])
  body : ∀ placed ∈ body, placed.token.kind ≠ .endOfInput

theorem exists_scanned {text : List Char} {placed : List (Placed Span)}
    (h : scanText text = .ok placed) : ∃ body finish, Scanned text body finish ∧
      placed = body ++ [⟨.finish, finish⟩] := by
  obtain ⟨body, finish, heq, hbody⟩ := exists_scanText_eq h
  exact ⟨body, finish, ⟨by rw [h, heq], hbody⟩, heq⟩

/-- The stream of a scanned text ends at its end of input. -/
theorem ofScan_append {body : List (Placed Span)}
    (hbody : ∀ placed ∈ body, placed.token.kind ≠ .endOfInput) (finish : Span) :
    TokenStream.ofScan (body ++ [⟨.finish, finish⟩]) = ⟨body, finish⟩ := by
  rw [TokenStream.ofScan, ofTokens_append hbody, ofTokens_endOfInput rfl, List.append_nil]

/-- In front of the end of a scanned text stand all its other tokens. -/
theorem tokensBefore_append {body : List (Placed Span)}
    (hbody : ∀ placed ∈ body, placed.token.kind ≠ .endOfInput) (finish : Span) :
    tokensBefore (body ++ [⟨.finish, finish⟩]) = body.map Placed.token := by
  refine tokensBefore_eq (by simp) ?_
  simpa using hbody

/-- The strings of a scanned text are quoted. -/
theorem quoted_of_scanned {source : String} {body : List (Placed Span)} {finish : Span}
    (h : Scanned source.toList body finish) : AllQuoted (body.map Placed.token) := by
  have hall := Image.quoted_of_scan h.scan
  rw [List.map_append, allQuoted_append] at hall
  exact hall.1

theorem parse_of_scan_error {source : String} {error : ScanError}
    (h : scan source = .error error) : Program.parse source = .error (.ofScan error) := by
  simp only [Program.parse, h]

theorem parse_of_scan_ok {source : String} {placed : List (Placed Span)}
    (h : scan source = .ok placed) :
    Program.parse source =
      (TokenStream.ofScan placed).parse.result.mapError (ParseError.map Span.position) := by
  simp only [Program.parse, h]

/-- The tokens of a source are read up to its end of input. -/
theorem parse_of_scanned {source : String} {body : List (Placed Span)} {finish : Span}
    (h : Scanned source.toList body finish) :
    Program.parse source =
      (Progress.start.run finish body).result.mapError (ParseError.map Span.position) := by
  rw [parse_of_scan_ok h.scan, ofScan_append h.body]
  rfl

/-- What is read from a source is read from its tokens. -/
theorem exists_run_of_parse {source : String} {program : Program}
    (h : Program.parse source = .ok program) :
    ∃ body finish, Scanned source.toList body finish ∧
      (Progress.start.run finish body).result = .ok program := by
  cases hscan : scan source with
  | error error => simp [parse_of_scan_error hscan] at h
  | ok placed =>
      obtain ⟨body, finish, hscanned, -⟩ := exists_scanned hscan
      rw [parse_of_scanned hscanned] at h
      exact ⟨body, finish, hscanned, (mapError_eq_ok_iff _ _ _).mp h⟩

theorem compile_of_scan_error {source : String} {error : ScanError}
    (h : scan source = .error error) : compile source = .error (.scan error) := by
  simp only [compile, compilation, h]

theorem compile_of_scan_ok {source : String} {placed : List (Placed Span)}
    (h : scan source = .ok placed) :
    compile source = ((Program.parse source).map Program.render).mapError .parse := by
  simp only [compile, compilation, h, parse_of_scan_ok h]
  cases (TokenStream.ofScan placed).parse.result with
  | error error => rfl
  | ok program => rfl

/-- The site of a source is its rendered program. -/
theorem compile_eq_ok_iff (source : String) (site : Site) :
    compile source = .ok site ↔
      ∃ program, Program.parse source = .ok program ∧ program.render = site := by
  cases hscan : scan source with
  | error error =>
      simp [compile_of_scan_error hscan, parse_of_scan_error hscan]
  | ok placed =>
      rw [compile_of_scan_ok hscan, mapError_eq_ok_iff]
      cases Program.parse source with
      | error error => simp [Except.map]
      | ok program => simp [Except.map]

theorem compile_of_parse {source : String} {program : Program}
    (h : Program.parse source = .ok program) : compile source = .ok program.render :=
  (compile_eq_ok_iff _ _).mpr ⟨program, h, rfl⟩

/-- The components of a compiled source are those of its program, each well formed. -/
theorem exists_wellFormed_of_compile {source : String} {site : Site}
    (h : compile source = .ok site) :
    ∃ program, Program.parse source = .ok program ∧ program.render = site ∧
      ∀ rendered ∈ site.components, ∃ component ∈ program.components,
        rendered = component.render ∧ Image.WellFormedComponent component := by
  obtain ⟨program, hparse, rfl⟩ := (compile_eq_ok_iff source site).mp h
  refine ⟨program, hparse, rfl, ?_⟩
  intro rendered hrendered
  obtain ⟨component, hcomponent, rfl⟩ := List.mem_map.mp hrendered
  exact ⟨component, hcomponent, rfl,
    (Image.wellFormed_of_parse hparse).components component hcomponent⟩

theorem map_name_render (program : Program) :
    program.render.components.map RenderedComponent.name =
      program.components.map Component.name := by
  rw [Program.render, List.map_map]
  rfl

/-- An error of the reader, and not of the scanner, is the error of the compilation. -/
theorem compile_of_parse_error {source : String} {error : ParseError Position}
    (h : Program.parse source = .error error) (hfault : OfTokens error.fault) :
    compile source = .error (.parse error) := by
  cases hscan : scan source with
  | error scanError =>
      rw [parse_of_scan_error hscan] at h
      cases h
      exact (hfault scanError.fault rfl).elim
  | ok placed =>
      rw [compile_of_scan_ok hscan, h]
      rfl

/-! ## Errors by their stages -/

theorem mapError_eq_error_iff {ε δ α : Type} (f : ε → δ) (result : Except ε α) (error : δ) :
    result.mapError f = .error error ↔ ∃ cause, result = .error cause ∧ f cause = error := by
  cases result with
  | error cause => simp [Except.mapError]
  | ok value => simp [Except.mapError]

/-- What is refused in a scanned source is refused for its tokens. -/
theorem ofTokens_of_parse {source : String} {placed : List (Placed Span)}
    (hscan : scan source = .ok placed) {error : ParseError Position}
    (h : Program.parse source = .error error) : OfTokens error.fault := by
  rw [parse_of_scan_ok hscan, mapError_eq_error_iff] at h
  obtain ⟨cause, hrun, rfl⟩ := h
  have hblames := (run_eq_error_iff_blames _ _ cause.fault cause.place).mp hrun
  exact hblames.ofTokens

/-- The reader refuses a source as unreadable exactly if the scanner does. -/
theorem parse_eq_ofScan_iff (source : String) (error : ScanError) :
    Program.parse source = .error (.ofScan error) ↔ scan source = .error error := by
  constructor
  · intro h
    cases hscan : scan source with
    | error other =>
        obtain ⟨fault, position⟩ := error
        obtain ⟨otherFault, otherPosition⟩ := other
        rw [parse_of_scan_error hscan] at h
        cases h
        rfl
    | ok placed => exact (ofTokens_of_parse hscan h error.fault rfl).elim
  · exact parse_of_scan_error

theorem compile_eq_scan_iff (source : String) (error : ScanError) :
    compile source = .error (.scan error) ↔ scan source = .error error := by
  constructor
  · intro h
    cases hscan : scan source with
    | error other =>
        rw [compile_of_scan_error hscan] at h
        cases h
        rfl
    | ok placed =>
        rw [compile_of_scan_ok hscan, mapError_eq_error_iff] at h
        obtain ⟨_, -, hcause⟩ := h
        cases hcause
  · exact compile_of_scan_error

theorem compile_eq_parse_iff {source : String} {placed : List (Placed Span)}
    (hscan : scan source = .ok placed) (error : ParseError Position) :
    compile source = .error (.parse error) ↔ Program.parse source = .error error := by
  rw [compile_of_scan_ok hscan]
  cases Program.parse source with
  | error other => simp [Except.map, Except.mapError]
  | ok program => simp [Except.map, Except.mapError]

end Stages
end SiteCompiler
