import SiteCompiler.Proofs.Compile.Stages
import SiteCompiler.Proofs.Grammar.Quotes
import SiteCompiler.Proofs.Image.Source
import SiteCompiler.Proofs.Lexical.Cursor

/-!
# What cannot go wrong

A compiler that works in place has slices to take, loops to end, quotes to cut off
and depths to count down, and each of these can fail.  For the text of a source none
of them does.  For a list of tokens made by hand only the quotes can fail, and they
fail at one place only.

* `UnquotedByBytes` - a string whose text is its bytes without the first and the
  last.
* `SafeSource`, `safeSource` - nothing fails on the way from a source to its site.
* `SafeTokens`, `safeTokens` - what can fail in a list of tokens.
* `nothing_fails` - both.
-/

namespace SiteCompiler
namespace Safety

open Lexical Grammar Stages Image

/-! ## Sources -/

/-- A string that begins and ends with a quote, and whose text is what lies between the two. -/
structure UnquotedByBytes (token : Token) : Prop where
  quoted : ∃ content, token.lexeme = "\"" ++ content ++ "\""
  sliceable : Sliceable token.lexeme
  text : ∃ text, token.unquote = .ok text ∧
    text.toUTF8 = token.lexeme.toUTF8.extract 1 (token.lexeme.utf8ByteSize - 1)

/-- On the way from a source to its site nothing fails that has no error of its own. -/
structure SafeSource (source : String) : Prop where
  /-- Every slice is taken inside the text, every loop ends, and every reading takes at least one
  character; the tokens are then those of the source, and so is the error. -/
  scanned : Cursor.start.scanFrom? source.toList = some (scan source)
  strings : ∀ placed, scan source = .ok placed → ∀ token ∈ placed.map Placed.token,
    token.kind = .string → UnquotedByBytes token
  parsed : ∀ lexeme place, Program.parse source ≠ .error ⟨.unquotedString lexeme, place⟩
  compiled : ∀ lexeme place, compile source ≠ .error (.parse ⟨.unquotedString lexeme, place⟩)
  bundled : ∀ lexeme place, bundle source ≠ .error (.parse ⟨.unquotedString lexeme, place⟩)

theorem sliceable_of_quoted {lexeme : String} {content : List Char}
    (h : lexeme.toList = '"' :: (content ++ ['"'])) : Sliceable lexeme :=
  sliceable_of_ends h (by decide) (by decide)

theorem unquotedByBytes_of_quoted {token : Token} (h : Quoted token)
    (hkind : token.kind = .string) : UnquotedByBytes token := by
  obtain ⟨content, hchars⟩ := h hkind
  have hsliceable := sliceable_of_quoted hchars
  refine ⟨⟨String.ofList content, ?_⟩, hsliceable, ?_⟩
  · rw [← String.toList_inj, hchars]
    simp
  · have hunquote := h.unquote_eq
    exact ⟨_, hunquote, ((unquote_eq_ok_iff hkind).mp hunquote).2⟩

/-- The strings of a stream that was scanned can all be unquoted. -/
theorem not_holdsUnsliceable_of_scan {source : String} {placed : List (Placed Span)}
    (h : scan source = .ok placed) (lexeme : String) (place : Span) :
    ¬ HoldsUnsliceable (TokenStream.ofScan placed).tokens lexeme place := by
  intro hholds
  cases hholds with
  | @intro _ _ _ _ value _ _ _ _ _ _ heq _ _ _ _ hvalue hends =>
      have hvalueMem : value ∈ placed := by
        have hmem : value ∈ (TokenStream.ofScan placed).tokens := by simp [heq]
        exact (List.takeWhile_sublist _).subset hmem
      subst hvalue
      obtain ⟨content, hchars⟩ := quoted_of_scan h _ (List.mem_map_of_mem hvalueMem) rfl
      exact hends (sliceable_of_quoted hchars)

theorem safeSource (source : String) : SafeSource source := by
  have hparsed (lexeme : String) (place : Position) :
      Program.parse source ≠ .error ⟨.unquotedString lexeme, place⟩ := by
    intro h
    cases hscan : scan source with
    | error error =>
        rw [parse_of_scan_error hscan] at h
        cases h
    | ok placed =>
        rw [parse_of_scan_ok hscan, mapError_eq_error_iff] at h
        obtain ⟨⟨fault, span⟩, hresult, hcause⟩ := h
        cases hcause
        have hholds := (parse_eq_unquotedString_iff _ _ _).mp hresult
        exact not_holdsUnsliceable_of_scan hscan _ _ hholds
  have hcompiled (lexeme : String) (place : Position) :
      compile source ≠ .error (.parse ⟨.unquotedString lexeme, place⟩) := by
    intro h
    cases hscan : scan source with
    | error error =>
        rw [compile_of_scan_error hscan] at h
        cases h
    | ok placed => exact hparsed lexeme place ((compile_eq_parse_iff hscan _).mp h)
  refine ⟨Cursor.scanFrom?_start source.toList, ?strings, hparsed, hcompiled, ?bundled⟩
  case strings =>
    intro placed hscan token htoken hkind
    exact unquotedByBytes_of_quoted (quoted_of_scan hscan token htoken) hkind
  case bundled =>
    intro lexeme place h
    exact hcompiled lexeme place ((map_eq_error_iff _ _ _).mp h)

/-! ## Lists of tokens -/

section Lists

variable {π : Type}

/-- Of a list of tokens only quotes can fail, those of the text or of the action of an element. -/
structure SafeTokens (nowhere : π) (tokens : List (Placed π)) : Prop where
  /-- The depth of a handler body is never counted down from zero. -/
  depth : ∀ front back components draft done name depth words told,
    (TokenStream.ofTokens nowhere tokens).tokens = front ++ back →
      Leads .start front ⟨components, .within draft (.statements done name depth words)⟩ told →
        InBody front components draft done name depth words
  quotes : ∀ lexeme place,
    (TokenStream.ofTokens nowhere tokens).parse.result =
        .error ⟨.unquotedString lexeme, place⟩ ↔
      HoldsUnsliceable (TokenStream.ofTokens nowhere tokens).tokens lexeme place

theorem safeTokens (nowhere : π) (tokens : List (Placed π)) : SafeTokens nowhere tokens := by
  refine ⟨?depth, fun lexeme place => parse_eq_unquotedString_iff _ lexeme place⟩
  case depth =>
    intro front back components draft done name depth words told _ hleads
    exact inBody_of_leads hleads

/-- From the text of a source nothing fails.  From a list of tokens only the quotes of a text or of
an action do, and exactly if they are not there to be cut off. -/
theorem nothing_fails :
    (∀ source, SafeSource source) ∧
      ∀ (nowhere : π) (tokens : List (Placed π)), SafeTokens nowhere tokens :=
  ⟨safeSource, safeTokens⟩

end Lists

end Safety
end SiteCompiler
