import SiteCompiler.Proofs.Lexical.Shape
import Mathlib.Data.List.Chain
import Mathlib.Data.List.DropRight

/-!
# Spans and positions

The scanner keeps offsets, lines and columns in step while it runs.  This module
says what they are without running it: an offset counts characters, and a
position counts line feeds and the characters behind the last of them.

* `positionAt` - the line and the column of an offset, read off the text.
* `Follows` - one span begins where the other ends, up to a gap.
* `Faithful` - a token that is written between its offsets and stands where it
  says.
* `scan_covers` - every scanned text is covered by its tokens and by gaps.
-/

namespace SiteCompiler
namespace Lexical

/-- The characters between two offsets of a text. -/
def between (text : List Char) (start stop : Nat) : List Char :=
  (text.drop start).take (stop - start)

/-- The position of an offset: one line for every line feed before it, one column for every
character behind the last of them. -/
def positionAt (text : List Char) (offset : Nat) : Position :=
  ⟨1 + (text.take offset).count '\n', 1 + ((text.take offset).rtakeWhile (· != '\n')).length⟩

/-- In front of `rest`, the text is a sequence of blanks and comments. -/
inductive Gaps : List Char → List Char → Prop
  | nil {rest : List Char} : Gaps [] rest
  | cons {text more rest : List Char} :
      Gap text (more ++ rest) → Gaps more rest → Gaps (text ++ more) rest

/-- The later span begins no earlier than the other ends, and only gaps stand between them. -/
def Follows (text : List Char) (earlier later : Span) : Prop :=
  earlier.stop ≤ later.start ∧
    Gaps (between text earlier.stop later.start) (text.drop later.start)

/-- A token that stands in the text as its span says. -/
structure Faithful (text : List Char) (placed : Placed Span) : Prop where
  written : placed.token.sourceText.toList = between text placed.place.start placed.place.stop
  position : placed.place.position = positionAt text placed.place.start

/-- A list of tokens that covers a text, up to gaps, from its beginning to its end. -/
structure Covers (text : List Char) (placed : List (Placed Span)) : Prop where
  /-- The end of input is the last token and the only one of its kind; it is empty, and it stands
  behind the whole text. -/
  finish : ∃ tokens finish, placed = tokens ++ [⟨.finish, finish⟩] ∧
    finish.start = text.length ∧ finish.stop = text.length ∧
    ∀ token ∈ tokens, token.token.kind ≠ .endOfInput ∧ token.place.start < token.place.stop
  faithful : ∀ token ∈ placed, Faithful text token
  /-- The empty span in front stands for the beginning of the text, so that the gap before the
  first token counts too. -/
  follows : List.IsChain (Follows text) (⟨0, 0, .start⟩ :: placed.map Placed.place)

/-! ## Positions -/

theorem afterText_start (text : List Char) :
    Position.start.afterText text =
      ⟨1 + text.count '\n', 1 + (text.rtakeWhile (· != '\n')).length⟩ := by
  induction text using List.reverseRecOn with
  | nil => rfl
  | append_singleton text c ih =>
      have hafter : Position.start.afterText (text ++ [c]) =
          (Position.start.afterText text).after c := by
        rw [Position.afterText_append]
        rfl
      rw [hafter, ih, Position.after, List.rtakeWhile_concat, List.count_append]
      by_cases hc : c = '\n'
      · simp [hc, Nat.add_assoc]
      · simp [hc, Nat.add_assoc]

theorem positionAt_append (before after : List Char) :
    positionAt (before ++ after) before.length = Position.start.afterText before := by
  rw [positionAt, List.take_left, afterText_start]

/-! ## Stretches of text -/

theorem between_self (text : List Char) (offset : Nat) : between text offset offset = [] := by
  rw [between, Nat.sub_self, List.take_zero]

theorem between_append_drop (text : List Char) {start stop : Nat} (h : start ≤ stop) :
    between text start stop ++ text.drop stop = text.drop start := by
  have hdrop : text.drop stop = (text.drop start).drop (stop - start) := by
    rw [List.drop_drop]
    congr 1
    omega
  rw [between, hdrop, List.take_append_drop]

theorem drop_length_add (before text after : List Char) :
    (before ++ (text ++ after)).drop (before.length + text.length) = after := by
  rw [← List.drop_drop, List.drop_left, List.drop_left]

theorem between_append (before text after : List Char) :
    between (before ++ (text ++ after)) before.length (before.length + text.length) = text := by
  rw [between, List.drop_left, Nat.add_sub_cancel_left, List.take_left]

/-- What stands between two offsets begins with the part that begins at the first of them. -/
theorem between_cons (before text after : List Char) {stop : Nat}
    (hstop : before.length + text.length ≤ stop) :
    between (before ++ (text ++ after)) before.length stop =
      text ++ between (before ++ (text ++ after)) (before.length + text.length) stop := by
  have hcount : stop - before.length = text.length + (stop - (before.length + text.length)) := by
    omega
  rw [between, between, drop_length_add, List.drop_left, hcount, List.take_length_add_append]

/-- A gap before a span belongs to what stands before it. -/
theorem Follows.gap {before text after : List Char} {later : Span} (hgap : Gap text after)
    {position position' : Position}
    (h : Follows (before ++ (text ++ after))
      ⟨before.length + text.length, before.length + text.length, position⟩ later) :
    Follows (before ++ (text ++ after)) ⟨before.length, before.length, position'⟩ later := by
  obtain ⟨hle, hgaps⟩ := h
  simp only at hle hgaps
  refine ⟨by simp only; omega, ?_⟩
  simp only
  rw [between_cons before text after hle]
  refine .cons ?_ hgaps
  rw [between_append_drop _ hle, drop_length_add]
  exact hgap

/-! ## Placed tokens -/

/-- Every piece of the list stands before the ones behind it as the rules have it. -/
inductive AllFit : List Piece → Prop
  | nil : AllFit []
  | cons {piece : Piece} {pieces : List Piece} :
      Fits piece (Piece.textOf pieces) → AllFit pieces → AllFit (piece :: pieces)

theorem allFit_split {cs : List Char} (h : (split cs).fault = none) :
    AllFit (split cs).pieces := by
  fun_induction split cs with
  | case1 => exact .nil
  | case2 => simp at h
  | case3 c cs reading hreading rest ih =>
      refine .cons ?_ (ih h)
      rw [split_text h]
      exact fits_of_reading hreading

theorem lexeme_of_fits {piece : Piece} {token : Token} {rest : List Char}
    (h : Fits piece rest) (htoken : piece.token? = some token) : Lexeme token piece.text rest := by
  unfold Fits at h
  rw [htoken] at h
  exact h

theorem gap_of_fits {piece : Piece} {rest : List Char}
    (h : Fits piece rest) (htoken : piece.token? = none) : Gap piece.text rest := by
  unfold Fits at h
  rw [htoken] at h
  exact h

/-- The tokens of a list of pieces stand in the text as their spans say. -/
theorem faithful_placeFrom {pieces : List Piece} (hfit : AllFit pieces) (before : List Char) :
    ∀ placed ∈ placeFrom before.length (Position.start.afterText before) pieces,
      Faithful (before ++ Piece.textOf pieces) placed := by
  induction hfit generalizing before with
  | nil =>
      intro placed hplaced
      obtain rfl := List.mem_singleton.mp hplaced
      refine ⟨?_, (positionAt_append before _).symm⟩
      rw [between_self]
      rfl
  | @cons piece pieces hpiece _ ih =>
      intro placed hplaced
      -- The rest of the pieces stands in the same text, behind a longer front.
      have hrest := ih (before ++ piece.text)
      rw [List.length_append, Position.afterText_append, List.append_assoc] at hrest
      have htext : Piece.textOf (piece :: pieces) = piece.text ++ Piece.textOf pieces := rfl
      rw [placeFrom] at hplaced
      rw [htext]
      cases htoken : piece.token? with
      | none =>
          simp only [htoken] at hplaced
          exact hrest placed hplaced
      | some token =>
          simp only [htoken, List.mem_cons] at hplaced
          rcases hplaced with rfl | hplaced
          · have hlexeme := lexeme_of_fits hpiece htoken
            refine ⟨?_, (positionAt_append before _).symm⟩
            rw [between_append, hlexeme.sourceText_eq]
          · exact hrest placed hplaced

/-- Each token of a list of pieces begins behind the one before it, up to a gap. -/
theorem isChain_placeFrom {pieces : List Piece} (hfit : AllFit pieces) (before : List Char)
    (position : Position) :
    List.IsChain (Follows (before ++ Piece.textOf pieces))
      (⟨before.length, before.length, position⟩ ::
        (placeFrom before.length (Position.start.afterText before) pieces).map Placed.place) := by
  induction hfit generalizing before position with
  | nil =>
      refine List.isChain_pair.mpr ⟨Nat.le_refl _, ?_⟩
      rw [between_self]
      exact .nil
  | @cons piece pieces hpiece _ ih =>
      have hrest := ih (before ++ piece.text)
      rw [List.length_append, Position.afterText_append, List.append_assoc] at hrest
      have htext : Piece.textOf (piece :: pieces) = piece.text ++ Piece.textOf pieces := rfl
      rw [placeFrom, htext]
      cases htoken : piece.token? with
      | none =>
          exact (hrest position).imp_head (Follows.gap (gap_of_fits hpiece htoken))
      | some token =>
          refine List.isChain_cons_cons.mpr ⟨⟨Nat.le_refl _, ?_⟩, ?_⟩
          · rw [between_self]
            exact .nil
          · -- Only the end of the earlier span counts.
            refine List.IsChain.imp_head ?_ (hrest position)
            intro later hfollows
            exact hfollows

/-- The tokens of a list of pieces are not empty, and the end of input stands behind them all. -/
theorem exists_placeFrom_eq {pieces : List Piece} (hfit : AllFit pieces) (offset : Nat)
    (position : Position) :
    ∃ tokens finish, placeFrom offset position pieces = tokens ++ [⟨.finish, finish⟩] ∧
      finish.start = offset + (Piece.textOf pieces).length ∧ finish.stop = finish.start ∧
      ∀ placed ∈ tokens, placed.token.kind ≠ .endOfInput ∧
        placed.place.start < placed.place.stop := by
  induction hfit generalizing offset position with
  | nil => exact ⟨[], ⟨offset, offset, position⟩, rfl, rfl, rfl, by simp⟩
  | @cons piece pieces hpiece _ ih =>
      obtain ⟨tokens, finish, heq, hstart, hstop, htokens⟩ :=
        ih (offset + piece.text.length) (position.afterText piece.text)
      have hlength : (Piece.textOf (piece :: pieces)).length =
          piece.text.length + (Piece.textOf pieces).length := by
        simp [Piece.textOf]
      rw [placeFrom, hlength, ← Nat.add_assoc]
      cases htoken : piece.token? with
      | none => exact ⟨tokens, finish, heq, hstart, hstop, htokens⟩
      | some token =>
          have hlexeme := lexeme_of_fits hpiece htoken
          have hpos : 0 < piece.text.length := List.length_pos_of_ne_nil hlexeme.ne_nil
          refine ⟨⟨token, ⟨offset, offset + piece.text.length, position⟩⟩ :: tokens, finish,
            by simp only [heq]; rfl, hstart, hstop, ?_⟩
          intro placed hplaced
          rcases List.mem_cons.mp hplaced with rfl | hplaced
          · exact ⟨hlexeme.kind_ne_endOfInput, Nat.lt_add_of_pos_right hpos⟩
          · exact htokens placed hplaced

/-! ## Scanned sources -/

/-- Behind the tokens of a scanned text stands the only end of input. -/
theorem exists_scanText_eq {text : List Char} {placed : List (Placed Span)}
    (h : scanText text = .ok placed) :
    ∃ body finish, placed = body ++ [⟨.finish, finish⟩] ∧
      ∀ token ∈ body, token.token.kind ≠ .endOfInput := by
  cases hfault : (split text).fault with
  | some fault => simp [scanText, hfault] at h
  | none =>
      obtain ⟨body, finish, heq, -, -, hbody⟩ :=
        exists_placeFrom_eq (allFit_split hfault) 0 .start
      simp only [scanText, hfault, Except.ok.injEq] at h
      exact ⟨body, finish, h.symm.trans heq, fun token htoken => (hbody token htoken).1⟩

/-- A scanned source is covered by its tokens and by gaps, and every token stands where its span
says. -/
theorem scan_covers (source : String) (placed : List (Placed Span))
    (h : scan source = .ok placed) : Covers source.toList placed := by
  cases hfault : (split source.toList).fault with
  | some fault => simp [scan, scanText, hfault] at h
  | none =>
      simp only [scan, scanText, hfault, Except.ok.injEq] at h
      subst h
      have hfit := allFit_split hfault
      have htext := split_text hfault
      refine ⟨?_, ?_, ?_⟩
      · obtain ⟨tokens, finish, heq, hstart, hstop, htokens⟩ := exists_placeFrom_eq hfit 0 .start
        rw [htext, Nat.zero_add] at hstart
        exact ⟨tokens, finish, heq, hstart, hstop.trans hstart, htokens⟩
      · have hfaithful := faithful_placeFrom hfit []
        rw [htext] at hfaithful
        exact hfaithful
      · have hchain := isChain_placeFrom hfit [] .start
        rw [htext] at hchain
        exact hchain

/-- A string across a line break, and a color behind a comment. -/
theorem scan_covers_string_across_lines :
    scan "\"é\n\"//\n#f0" =
        .ok [⟨⟨.string, "\"é\n\""⟩, ⟨0, 4, ⟨1, 1⟩⟩⟩, ⟨⟨.color, "f0"⟩, ⟨7, 10, ⟨3, 1⟩⟩⟩,
          ⟨.finish, ⟨10, 10, ⟨3, 4⟩⟩⟩] ∧
      Covers "\"é\n\"//\n#f0".toList
        [⟨⟨.string, "\"é\n\""⟩, ⟨0, 4, ⟨1, 1⟩⟩⟩, ⟨⟨.color, "f0"⟩, ⟨7, 10, ⟨3, 1⟩⟩⟩,
          ⟨.finish, ⟨10, 10, ⟨3, 4⟩⟩⟩] := by
  refine ⟨by decide +kernel, ?_⟩
  exact scan_covers _ _ (by decide +kernel)

end Lexical
end SiteCompiler
