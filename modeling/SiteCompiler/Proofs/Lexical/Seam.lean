import SiteCompiler.Proofs.Lexical.Span

/-!
# Texts on both sides of a line feed

A line feed ends whatever stands before it, so a scanner that has come to one
without a fault begins anew behind it.  Only the places are other ones: offsets
count the text before, and lines count its line feeds.

* `split_exchange` - the pieces of a text in front of another.
* `split_append_line_feed` - two texts with a line feed between them are cut apart.
* `placeFrom_append`, `placeFrom_behind` - places behind further pieces.
* `scanText_append` - what is scanned from two texts with a line feed between them.
-/

namespace SiteCompiler

/-- The position behind a text and a line feed: further down by all their lines, in the same
column. -/
def Position.behind (text : List Char) (position : Position) : Position :=
  ⟨position.line + (text.count '\n' + 1), position.column⟩

/-- The span behind a text and a line feed. -/
def Span.behind (text : List Char) (span : Span) : Span :=
  ⟨span.start + (text.length + 1), span.stop + (text.length + 1), span.position.behind text⟩

namespace Lexical

/-! ## Readings before a line feed -/

theorem Gap.append {text rest : List Char} (h : Gap text rest) (more : List Char) :
    Gap text (rest ++ '\n' :: more) := by
  cases h with
  | blank hc => exact .blank hc
  | comment hbody =>
      refine .comment ⟨hbody.all, ?_⟩
      intro c hc
      cases rest with
      | nil => simpa using hc.symm
      | cons d rest => exact hbody.stops c hc

theorem Fits.append {piece : Piece} {rest : List Char} (h : Fits piece rest) (more : List Char) :
    Fits piece (rest ++ '\n' :: more) := by
  unfold Fits at h ⊢
  cases htoken : piece.token? with
  | none =>
      rw [htoken] at h
      exact Gap.append h more
  | some token =>
      rw [htoken] at h
      exact Lexeme.append h (atBarrier_cons (by decide) more)

/-- A piece that fits is read. -/
theorem Fits.reading {kind : Option TokenKind} {c : Char} {cs rest : List Char}
    (h : Fits ⟨kind, c :: cs⟩ rest) : Reading.of c (cs ++ rest) = .ok ⟨kind, cs.length⟩ := by
  cases kind with
  | none =>
      have hgap : Gap (c :: cs) rest := gap_of_fits h rfl
      obtain ⟨_, _, heq, hreading⟩ := hgap.reading
      cases heq
      exact hreading
  | some kind =>
      have hlexeme := lexeme_of_fits h rfl
      obtain ⟨_, _, heq, hreading⟩ := hlexeme.reading
      cases heq
      exact hreading

/-- Behind the pieces of a text the cut begins anew with another text, if the pieces still fit in
front of that. -/
theorem split_exchange {behind other : List Char}
    (hfits : ∀ piece rest, Fits piece (rest ++ behind) → Fits piece (rest ++ other))
    {cs : List Char} (hcs : cs = Piece.textOf (split cs).pieces ++ behind) :
    split (Piece.textOf (split cs).pieces ++ other) =
      ⟨(split cs).pieces ++ (split other).pieces, (split other).fault⟩ := by
  fun_induction split cs with
  | case1 => rfl
  | case2 => rfl
  | case3 c cs reading hreading rest ih =>
      have htext : Piece.textOf (⟨reading.kind, c :: cs.take reading.more⟩ :: rest.pieces) =
          c :: cs.take reading.more ++ Piece.textOf rest.pieces := rfl
      rw [htext, List.append_assoc] at hcs
      have hrest : cs.drop reading.more = Piece.textOf rest.pieces ++ behind := by
        have hboth : cs.take reading.more ++ cs.drop reading.more =
            cs.take reading.more ++ (Piece.textOf rest.pieces ++ behind) := by
          rw [List.take_append_drop]
          exact (List.cons.inj hcs).2
        exact List.append_cancel_left hboth
      have hpiece := fits_of_reading hreading
      rw [hrest] at hpiece
      have hread := (hfits _ _ hpiece).reading
      rw [htext, List.append_assoc, split_append hread, ih hrest]
      rfl

/-- Behind a text that is cut without a fault, and a line feed, the cut begins anew. -/
theorem split_append_line_feed {first : List Char} (h : (split first).fault = none)
    (second : List Char) :
    split (first ++ '\n' :: second) =
      ⟨(split first).pieces ++ ⟨none, ['\n']⟩ :: (split second).pieces, (split second).fault⟩ := by
  have htext := split_text h
  have hfits (piece : Piece) (rest : List Char) (hpiece : Fits piece (rest ++ [])) :
      Fits piece (rest ++ '\n' :: second) := by
    rw [List.append_nil] at hpiece
    exact hpiece.append second
  have hcut := split_exchange hfits (by rw [htext, List.append_nil])
  have hblank : Reading.of '\n' ([] ++ second) = .ok ⟨none, 0⟩ := rfl
  rw [htext] at hcut
  rw [hcut, ← List.nil_append second, ← List.cons_append, split_append hblank, List.nil_append]

/-! ## Places further behind -/

theorem after_behind (text : List Char) (position : Position) (c : Char) :
    (position.behind text).after c = (position.after c).behind text := by
  unfold Position.after
  by_cases hc : c = '\n'
  · simp [hc, Position.behind, Nat.add_right_comm]
  · simp [hc, Position.behind]

theorem afterText_behind (text : List Char) (position : Position) (more : List Char) :
    (position.behind text).afterText more = (position.afterText more).behind text := by
  induction more generalizing position with
  | nil => rfl
  | cons c more ih =>
      rw [← List.singleton_append, Position.afterText_append, Position.afterText_append, ← ih]
      congr 1
      exact after_behind text position c

/-- Pieces that begin further behind have their tokens further behind. -/
theorem placeFrom_behind (text : List Char) (offset : Nat) (position : Position)
    (pieces : List Piece) :
    placeFrom (offset + (text.length + 1)) (position.behind text) pieces =
      (placeFrom offset position pieces).map (Placed.map (Span.behind text)) := by
  induction pieces generalizing offset position with
  | nil => rfl
  | cons piece pieces ih =>
      have hrest := ih (offset + piece.text.length) (position.afterText piece.text)
      rw [Nat.add_right_comm, ← afterText_behind] at hrest
      rw [placeFrom, placeFrom, hrest]
      cases piece.token? with
      | none => rfl
      | some token =>
          have hstop : offset + (text.length + 1) + piece.text.length =
              offset + piece.text.length + (text.length + 1) := Nat.add_right_comm _ _ _
          simp only [List.map_cons, Placed.map, Span.behind, hstop]

theorem placeFrom_ne_nil (offset : Nat) (position : Position) (pieces : List Piece) :
    placeFrom offset position pieces ≠ [] := by
  intro h
  have htokens := map_token_placeFrom offset position pieces
  rw [h] at htokens
  simp at htokens

/-- Further pieces are placed behind the ones before them. -/
theorem placeFrom_append (offset : Nat) (position : Position) (pieces more : List Piece) :
    placeFrom offset position (pieces ++ more) =
      (placeFrom offset position pieces).dropLast ++
        placeFrom (offset + (Piece.textOf pieces).length)
          (position.afterText (Piece.textOf pieces)) more := by
  induction pieces generalizing offset position with
  | nil => rfl
  | cons piece pieces ih =>
      have htext : Piece.textOf (piece :: pieces) = piece.text ++ Piece.textOf pieces := rfl
      rw [List.cons_append, placeFrom, placeFrom, ih, htext, List.length_append,
        Position.afterText_append, Nat.add_assoc]
      cases piece.token? with
      | none => rfl
      | some token =>
          simp only
          rw [List.dropLast_cons_of_ne_nil (placeFrom_ne_nil _ _ _), List.cons_append]

/-! ## Scanned texts -/

theorem afterText_line_feed (text : List Char) :
    Position.start.afterText (text ++ ['\n']) = Position.start.behind text := by
  rw [afterText_start, List.rtakeWhile_concat, List.count_append]
  simp [Position.start, Position.behind]

/-- What is scanned from a text and from a text behind a line feed: the tokens of the first without
its end of input, and the tokens or the error of the second, further behind. -/
theorem scanText_append {first : List Char} {placed : List (Placed Span)}
    (h : scanText first = .ok placed) (second : List Char) :
    scanText (first ++ '\n' :: second) =
      match scanText second with
      | .ok others => .ok (placed.dropLast ++ others.map (Placed.map (Span.behind first)))
      | .error error => .error ⟨error.fault, error.position.behind first⟩ := by
  cases hfault : (split first).fault with
  | some fault => simp [scanText, hfault] at h
  | none =>
      simp only [scanText, hfault, Except.ok.injEq] at h
      have htext := split_text hfault
      have hcut := split_append_line_feed hfault second
      have hposition : (Position.start.afterText first).afterText ['\n'] =
          Position.start.behind first := by
        rw [← Position.afterText_append, afterText_line_feed]
      simp only [scanText, hcut]
      cases hsecond : (split second).fault with
      | none =>
          -- The line feed is a piece of its own, and no token.
          have hfeed : placeFrom first.length (Position.start.afterText first)
              (⟨none, ['\n']⟩ :: (split second).pieces) =
                placeFrom (0 + (first.length + 1)) (Position.start.behind first)
                  (split second).pieces := by
            rw [← hposition, Nat.zero_add]
            rfl
          simp only [Except.ok.injEq]
          rw [placeFrom_append, htext, h, Nat.zero_add, hfeed, placeFrom_behind]
      | some fault =>
          have htexts : Piece.textOf ((split first).pieces ++
              ⟨none, ['\n']⟩ :: (split second).pieces) =
                first ++ (['\n'] ++ Piece.textOf (split second).pieces) := by
            rw [Piece.textOf, List.flatMap_append]
            exact congrArg (· ++ _) htext
          simp only [htexts, Position.afterText_append, hposition, afterText_behind]

end Lexical
end SiteCompiler
