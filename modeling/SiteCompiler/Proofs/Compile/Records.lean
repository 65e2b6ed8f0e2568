import SiteCompiler.Proofs.Compile.Stages
import SiteCompiler.Proofs.Grammar.Account

/-!
# Records of a compilation

Whoever reads the records of a compilation learns of every handler that the site
has lost, and of every component that it has.

* `Accounts` - what the reader of a source tells of, by the way in which the
  reading ends.
* `records_account` - of every source.
-/

namespace SiteCompiler
namespace Stages

open Lexical Grammar

/-- What is told of the reading of a source, besides traces, and how the reading ends. -/
inductive Accounts (source : String) :
    Except (ParseError Position) Program → List (Level × String) → Prop
  /-- There is nothing to read. -/
  | unscanned {error : ScanError} :
      scan source = .error error → Accounts source (.error (.ofScan error)) []
  /-- The tokens have one outline, and what is told of it is told. -/
  | read {placed : List (Placed Span)} {outlines : List Outline} :
      scan source = .ok placed →
        (∀ others, DerivesOutlines (tokensBefore placed) others ↔ others = outlines) →
          Accounts source (.ok ⟨outlines.map Outline.component⟩)
            (outlines.flatMap Outline.report)
  /-- What is told is what can be told of the tokens up to the refusal. -/
  | refused {placed : List (Placed Span)} {consumed : List Token} {outlines : List Outline}
      {parts : List Part} {error : ParseError Position} :
      scan source = .ok placed →
        tokensBefore placed =
            consumed ++ (TokenStream.ofScan placed).parse.rest.map Placed.token →
          (∀ others found, Interrupted consumed others found ↔ others = outlines ∧ found = parts) →
            Accounts source (.error error)
              (outlines.flatMap Outline.report ++ parts.flatMap Part.warnings)

theorem told_of_compilation {source : String} {placed : List (Placed Span)}
    (h : scan source = .ok placed) :
    told (compilation source).records = told (TokenStream.ofScan placed).parse.records := by
  simp only [compilation, h]
  rfl

/-- Every source is accounted for: the records of its compilation name, block by block and component
by component, the handlers that are dropped. -/
theorem records_account (source : String) :
    Accounts source (Program.parse source) (told (compilation source).records) := by
  cases hscan : scan source with
  | error error =>
      have hrecords : (compilation source).records = [] := by simp only [compilation, hscan]
      rw [parse_of_scan_error hscan, hrecords]
      exact .unscanned hscan
  | ok placed =>
      obtain ⟨body, finish, hscanned, rfl⟩ := exists_scanned hscan
      have hquoted := quoted_of_scanned hscanned
      have hbefore := tokensBefore_append hscanned.body finish
      have hparse : (TokenStream.ofScan (body ++ [⟨.finish, finish⟩])).parse =
          Progress.start.run finish body := by
        rw [ofScan_append hscanned.body]
        rfl
      rw [parse_of_scanned hscanned, told_of_compilation hscan, hparse]
      cases hresult : (Progress.start.run finish body).result with
      | ok program =>
          obtain ⟨outlines, houtlines, rfl, hrecords⟩ := told_of_run_ok hresult hquoted
          rw [hrecords]
          refine .read hscan fun others => ?_
          rw [hbefore]
          constructor
          · exact fun hothers => houtlines.unique hothers hquoted
          · rintro rfl
            exact houtlines
      | error error =>
          obtain ⟨consumed, outlines, parts, htokens, hinterrupted, hrecords⟩ :=
            told_of_run_error hresult hquoted
          have hconsumed : AllQuoted consumed := by
            rw [htokens, allQuoted_append] at hquoted
            exact hquoted.1
          have hunique (others : List Outline) (found : List Part) :
              Interrupted consumed others found ↔ others = outlines ∧ found = parts := by
            constructor
            · exact fun hothers => hinterrupted.unique hothers hconsumed
            · rintro ⟨rfl, rfl⟩
              exact hinterrupted
          rw [← hbefore, ← hparse] at htokens
          rw [hrecords]
          exact .refused hscan htokens hunique

/-- A second component of a name is refused, and nothing is told of it. -/
example :
    told (compilation ("component A \x7b eventos \x7b a -> \x7b\x7d b -> \x7b\x7d \x7d \x7d " ++
      "component A \x7b\x7d")).records =
      [(.warn, "only the first handler of an 'eventos' block is kept; dropping b"),
        (.debug, "parsed component 'A' with 1 blocks")] := by
  decide +kernel

end Stages
end SiteCompiler
