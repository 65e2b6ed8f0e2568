import SiteCompiler.Proofs.Lexical.Cursor
import SiteCompiler.Proofs.Lexical.Seam

/-!
# Scanning behind a line feed

A scanner keeps an offset and a position, and nothing else, from one line to the
next.  So a source behind another one and a line feed is scanned as it is by
itself, however the source before it ends: with half a unit, with a hyphen, with
a comment.

* `farther` - what is scanned, further behind.
* `Cursor.scanFrom?_behind_line_feed` - a scanner in place that stands behind a
  line feed, whatever stands before.
* `Restarts` - what is scanned from two sources with a line feed between them.
* `scan_restarts` - a source that is scanned lets every other one begin anew
  behind it.
-/

namespace SiteCompiler
namespace Lexical

/-- What is scanned, further behind by a text and a line feed: the same tokens, or the same fault,
in the same columns. -/
def farther (first : List Char) :
    Except ScanError (List (Placed Span)) → Except ScanError (List (Placed Span))
  | .ok placed => .ok (placed.map (Placed.map (Span.behind first)))
  | .error error => .error ⟨error.fault, error.position.behind first⟩

/-- The cursor behind a text and a line feed. -/
theorem Cursor.behind_line_feed (first : List Char) :
    Cursor.behind (first ++ ['\n']) = ⟨first.length + 1, Position.start.behind first⟩ := by
  show Cursor.mk _ _ = _
  rw [afterText_line_feed, List.length_append, List.length_singleton]

/-- A scanner in place that stands behind a line feed finds what is scanned from the rest by itself.
The text before need not be one that is scanned. -/
theorem Cursor.scanFrom?_behind_line_feed (first second : List Char) :
    (Cursor.mk (first.length + 1) (Position.start.behind first)).scanFrom?
        (first ++ '\n' :: second) =
      some (farther first (scanText second)) := by
  have htext : first ++ '\n' :: second = (first ++ ['\n']) ++ second := by simp
  have hrest := Cursor.scanFrom?_behind htext
  rw [Cursor.behind_line_feed] at hrest
  rw [hrest, Option.some.injEq]
  unfold Cursor.outcomeBehind scanText
  cases (split second).fault with
  | none =>
      have hplaces := placeFrom_behind first 0 .start (split second).pieces
      rw [Nat.zero_add] at hplaces
      rw [afterText_line_feed, List.length_append, List.length_singleton]
      exact congrArg Except.ok hplaces
  | some fault =>
      have hposition := Position.afterText_append .start (first ++ ['\n'])
        (Piece.textOf (split second).pieces)
      rw [afterText_line_feed, afterText_behind] at hposition
      simp only [hposition, farther]

/-- The second source begins anew behind the first and a line feed. -/
structure Restarts (first second : String) (body : List (Placed Span)) : Prop where
  /-- The tokens of the first source without its end of input, and all tokens of the second. -/
  scanned : ∀ others, scan second = .ok others →
    scan (first ++ "\n" ++ second) =
      .ok (body ++ others.map (Placed.map (Span.behind first.toList)))
  refused : ∀ error, scan second = .error error →
    scan (first ++ "\n" ++ second) = .error ⟨error.fault, error.position.behind first.toList⟩
  /-- A scanner in place goes on from its offset and its position alone. -/
  inPlace :
    (Cursor.mk (first.toList.length + 1) (Position.start.behind first.toList)).scanFrom?
        (first ++ "\n" ++ second).toList =
      some (farther first.toList (scan second))

theorem toList_append_line_feed (first second : String) :
    (first ++ "\n" ++ second).toList = first.toList ++ '\n' :: second.toList := by
  simp

/-- Behind a source that is scanned, and a line feed, every source begins anew: it has its own
tokens, or its own error, further down. -/
theorem scan_restarts {first : String} {placed : List (Placed Span)}
    (h : scan first = .ok placed) :
    ∃ body finish, placed = body ++ [⟨.finish, finish⟩] ∧
      (∀ token ∈ body, token.token.kind ≠ .endOfInput) ∧
      ∀ second, Restarts first second body := by
  obtain ⟨body, finish, hplaced, hbody⟩ := exists_scanText_eq h
  refine ⟨body, finish, hplaced, hbody, fun second => ?_⟩
  have hboth := scanText_append h second.toList
  rw [← toList_append_line_feed, hplaced, List.dropLast_concat] at hboth
  constructor
  case scanned =>
    intro others hothers
    rw [scan] at hothers ⊢
    rw [hboth, hothers]
  case refused =>
    intro error herror
    rw [scan] at herror ⊢
    rw [hboth, herror]
  case inPlace =>
    rw [toList_append_line_feed]
    exact Cursor.scanFrom?_behind_line_feed first.toList second.toList

/-- Half a unit before the line feed and the other half behind it, and then a lone hyphen. -/
theorem scan_restarts_half_unit :
    scan "10p" = .ok [⟨⟨.number, "10"⟩, ⟨0, 2, ⟨1, 1⟩⟩⟩, ⟨⟨.identifier, "p"⟩, ⟨2, 3, ⟨1, 3⟩⟩⟩,
        ⟨.finish, ⟨3, 3, ⟨1, 4⟩⟩⟩] ∧
      scan ("10p" ++ "\n" ++ "x") =
        .ok [⟨⟨.number, "10"⟩, ⟨0, 2, ⟨1, 1⟩⟩⟩, ⟨⟨.identifier, "p"⟩, ⟨2, 3, ⟨1, 3⟩⟩⟩,
          ⟨⟨.identifier, "x"⟩, ⟨4, 5, ⟨2, 1⟩⟩⟩, ⟨.finish, ⟨5, 5, ⟨2, 2⟩⟩⟩] ∧
      scan ("10p" ++ "\n" ++ "x -") = .error ⟨.unexpected '-', ⟨2, 3⟩⟩ := by
  have hfirst : scan "10p" = .ok [⟨⟨.number, "10"⟩, ⟨0, 2, ⟨1, 1⟩⟩⟩,
      ⟨⟨.identifier, "p"⟩, ⟨2, 3, ⟨1, 3⟩⟩⟩, ⟨.finish, ⟨3, 3, ⟨1, 4⟩⟩⟩] := by
    decide +kernel
  have hsecond : scan "x" =
      .ok [⟨⟨.identifier, "x"⟩, ⟨0, 1, ⟨1, 1⟩⟩⟩, ⟨.finish, ⟨1, 1, ⟨1, 2⟩⟩⟩] := by
    decide +kernel
  have hrefused : scan "x -" = .error ⟨.unexpected '-', ⟨1, 3⟩⟩ := by decide +kernel
  obtain ⟨body, finish, hplaced, -, hrestarts⟩ := scan_restarts hfirst
  obtain ⟨rfl, -⟩ : body = [⟨⟨.number, "10"⟩, ⟨0, 2, ⟨1, 1⟩⟩⟩,
      ⟨⟨.identifier, "p"⟩, ⟨2, 3, ⟨1, 3⟩⟩⟩] ∧ _ := by
    have hlast := congrArg List.dropLast hplaced
    rw [List.dropLast_concat] at hlast
    exact ⟨hlast.symm, trivial⟩
  exact ⟨hfirst, (hrestarts "x").scanned _ hsecond, (hrestarts "x -").refused _ hrefused⟩

end Lexical
end SiteCompiler
