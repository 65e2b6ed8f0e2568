import SiteCompiler.Proofs.Lexical.Front

/-!
# The scanner and its lexical grammar

A source is scanned exactly if it is a sequence of gaps and token texts, and
the scanned tokens are then the ones of that sequence.

* `lexes_of_split`, `split_of_lexes` - the cut of a text and the sequence of
  the rules, in both directions.
* `lexes_of_scan`, `scan_of_lexes` - the same for a whole source.
* `scan_eq_ok_iff_lexes` - what the scanner accepts, and what it returns.
-/

namespace SiteCompiler
namespace Lexical

/-- The tokens among the pieces of a text. -/
def tokensOf (pieces : List Piece) : List Token :=
  pieces.filterMap Piece.token?

theorem tokensOf_cons (piece : Piece) (pieces : List Piece) :
    tokensOf (piece :: pieces) = piece.token?.toList ++ tokensOf pieces := by
  simp only [tokensOf, List.filterMap_cons]
  cases piece.token? <;> rfl

theorem lexes_append {piece : Piece} {rest : List Char} {tokens : List Token}
    (hpiece : Fits piece rest) (hrest : Lexes rest tokens) :
    Lexes (piece.text ++ rest) (piece.token?.toList ++ tokens) := by
  unfold Fits at hpiece
  cases htoken : piece.token? with
  | none =>
      rw [htoken] at hpiece
      exact .gap hpiece hrest
  | some token =>
      rw [htoken] at hpiece
      exact .token hpiece hrest

/-- A text that is cut without a fault is a sequence of gaps and token texts. -/
theorem lexes_of_split {cs : List Char} (h : (split cs).fault = none) :
    Lexes cs (tokensOf (split cs).pieces) := by
  fun_induction split cs with
  | case1 => exact .nil
  | case2 => simp at h
  | case3 c cs reading hreading rest ih =>
      have hpiece := fits_of_reading hreading
      have hlexes := lexes_append hpiece (ih h)
      rw [List.cons_append, List.take_append_drop] at hlexes
      rw [tokensOf_cons]
      exact hlexes

/-- A text whose front is read as a piece is cut behind that piece. -/
theorem split_append {c : Char} {cs rest : List Char} {kind : Option TokenKind}
    (h : Reading.of c (cs ++ rest) = .ok ⟨kind, cs.length⟩) :
    split (c :: cs ++ rest) = ⟨⟨kind, c :: cs⟩ :: (split rest).pieces, (split rest).fault⟩ := by
  rw [List.cons_append, split_cons_of_ok h]
  simp only [List.take_left, List.drop_left]

theorem Lexeme.token?_eq {token : Token} {text rest : List Char} (h : Lexeme token text rest) :
    (Piece.mk (some token.kind) text).token? = some token := by
  cases h with
  | @punctuation c kind _ hmem =>
      have hkind : kind ≠ .color := punctuation_kind_ne hmem (by decide)
      simp [Piece.token?, hkind]
  | word => simp [Piece.token?, wordKind_ne_color]
  | color => simp [Piece.token?]
  | _ => rfl

/-- A sequence of gaps and token texts is cut without a fault, into just these. -/
theorem split_of_lexes {cs : List Char} {tokens : List Token} (h : Lexes cs tokens) :
    (split cs).fault = none ∧ tokensOf (split cs).pieces = tokens := by
  induction h with
  | nil => simp [split_nil, tokensOf]
  | @gap text rest tokens hgap _ ih =>
      obtain ⟨c, cs, rfl, hreading⟩ := hgap.reading
      rw [split_append hreading]
      exact ⟨ih.1, (tokensOf_cons _ _).trans ih.2⟩
  | @token token text rest tokens hlexeme _ ih =>
      obtain ⟨c, cs, rfl, hreading⟩ := hlexeme.reading
      rw [split_append hreading]
      refine ⟨ih.1, ?_⟩
      rw [tokensOf_cons, hlexeme.token?_eq, ih.2]
      rfl

theorem map_token_placeFrom (offset : Nat) (position : Position) (pieces : List Piece) :
    (placeFrom offset position pieces).map Placed.token = tokensOf pieces ++ [.finish] := by
  induction pieces generalizing offset position with
  | nil => rfl
  | cons piece pieces ih =>
      rw [placeFrom, tokensOf_cons]
      cases piece.token? with
      | none => exact ih _ _
      | some token =>
          simp only [List.map_cons, ih]
          rfl

theorem lexes_of_scan {source : String} {placed : List (Placed Span)}
    (h : scan source = .ok placed) :
    ∃ body, placed.map Placed.token = body ++ [.finish] ∧ Lexes source.toList body := by
  cases hfault : (split source.toList).fault with
  | some fault => simp [scan, scanText, hfault] at h
  | none =>
      simp only [scan, scanText, hfault, Except.ok.injEq] at h
      subst h
      exact ⟨_, map_token_placeFrom _ _ _, lexes_of_split hfault⟩

theorem scan_of_lexes {source : String} {body : List Token} (h : Lexes source.toList body) :
    ∃ placed, scan source = .ok placed ∧ placed.map Placed.token = body ++ [.finish] := by
  obtain ⟨hfault, htokens⟩ := split_of_lexes h
  refine ⟨placeFrom 0 .start (split source.toList).pieces, ?_, ?_⟩
  · simp only [scan, scanText, hfault]
  · rw [map_token_placeFrom, htokens]

/-- The scanner accepts exactly the sequences of gaps and token texts, and it returns the tokens
of the sequence and the end of input. -/
theorem scan_eq_ok_iff_lexes (source : String) (tokens : List Token) :
    (scan source).map (List.map Placed.token) = .ok tokens ↔
      ∃ body, tokens = body ++ [.finish] ∧ Lexes source.toList body := by
  constructor
  · intro h
    cases hscan : scan source with
    | error error => simp [hscan, Except.map] at h
    | ok placed =>
        simp only [hscan, Except.map, Except.ok.injEq] at h
        obtain ⟨body, hbody, hlexes⟩ := lexes_of_scan hscan
        exact ⟨body, h.symm.trans hbody, hlexes⟩
  · rintro ⟨body, rfl, hlexes⟩
    obtain ⟨placed, hscan, htokens⟩ := scan_of_lexes hlexes
    rw [hscan, ← htokens]
    rfl

end Lexical
end SiteCompiler
