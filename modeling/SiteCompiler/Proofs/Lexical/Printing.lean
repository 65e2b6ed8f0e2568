import SiteCompiler.Proofs.Lexical.Shape
import Mathlib.Control.Monad.Basic

/-!
# Tokens written down

A token that can be scanned at all can be scanned behind any other: it is enough
to write a blank or a whole comment between the two.

* `IsLexeme` - the tokens that have a text.
* `isLexeme_identifier`, `isLexeme_string`, `isLexeme_keyword` - some that have.
* `eq_of_sourceText_eq` - no two tokens are written alike.
* `IsFiller`, `printed` - tokens in a row, with blanks and comments between them.
* `exists_source` - a source for any tokens that have texts.
* `scannable_iff_isLexeme` - the tokens of all scanned sources.
* `scan_printed` - printed tokens are scanned as the same tokens.
-/

namespace SiteCompiler
namespace Lexical

/-- The tokens that take some text in front of something. -/
def IsLexeme (token : Token) : Prop :=
  ∃ text rest, Lexeme token text rest

/-- Every token of the list has a text. -/
def Writable (tokens : List Token) : Prop :=
  ∀ token ∈ tokens, IsLexeme token

/-- The tokens that stand in some scanned source. -/
def Scannable (token : Token) : Prop :=
  ∃ source placed, scan source = .ok placed ∧ token ∈ placed.map Placed.token

@[simp] theorem writable_nil : Writable [] := by
  simp [Writable]

@[simp] theorem writable_cons (token : Token) (tokens : List Token) :
    Writable (token :: tokens) ↔ IsLexeme token ∧ Writable tokens := by
  simp [Writable]

@[simp] theorem writable_append (tokens more : List Token) :
    Writable (tokens ++ more) ↔ Writable tokens ∧ Writable more := by
  simp [Writable, or_imp, forall_and]

theorem Writable.kind_ne_endOfInput {tokens : List Token} (h : Writable tokens) :
    ∀ token ∈ tokens, token.kind ≠ .endOfInput := by
  intro token htoken
  obtain ⟨text, rest, hlexeme⟩ := h token htoken
  exact hlexeme.kind_ne_endOfInput

/-! ## Tokens of some kinds -/

theorem isLexeme_identifier {name : String} (h : IsIdentifier name) :
    IsLexeme ⟨.identifier, name⟩ := by
  have hword := h.1.lexeme
  rw [wordKind, String.ofList_toList, h.2] at hword
  exact ⟨name.toList, [], hword⟩

/-- Any text without a quote is the text of a string. -/
theorem isLexeme_string {content : List Char} (h : '"' ∉ content) :
    IsLexeme ⟨.string, String.ofList ('"' :: (content ++ ['"']))⟩ :=
  ⟨_, [], .string h⟩

theorem isLexeme_keyword {entry : String × TokenKind} (h : entry ∈ TokenKind.reserved) :
    IsLexeme ⟨entry.2, entry.1⟩ := by
  have hletters : ∀ entry ∈ TokenKind.reserved,
      entry.1.toList ≠ [] ∧ entry.1.toList.all isWordStart = true := by decide
  have hkind : ∀ entry ∈ TokenKind.reserved, TokenKind.keyword? entry.1 = some entry.2 := by
    decide
  obtain ⟨hne, hall⟩ := hletters entry h
  have hlexeme := (isWord_of_letters hne hall).lexeme
  rw [wordKind, String.ofList_toList, hkind entry h] at hlexeme
  exact ⟨entry.1.toList, [], hlexeme⟩

theorem IsLexeme.isIdentifier {token : Token} (h : IsLexeme token)
    (hkind : token.kind = .identifier) : IsIdentifier token.lexeme := by
  obtain ⟨text, rest, hlexeme⟩ := h
  exact hlexeme.isIdentifier hkind

/-! ## One text, one token -/

theorem Lexeme.unique {token other : Token} {text rest : List Char}
    (h : Lexeme token text rest) (hother : Lexeme other text rest) : token = other := by
  obtain ⟨c, cs, rfl, hreading⟩ := h.reading
  obtain ⟨d, ds, heq, hreading'⟩ := hother.reading
  cases heq
  have hkind : token.kind = other.kind := by
    rw [hreading] at hreading'
    simpa [Reading.token] using hreading'
  have hpiece := h.token?_eq
  rw [hkind, hother.token?_eq] at hpiece
  exact (Option.some.inj hpiece).symm

/-- No two tokens are written alike. -/
theorem eq_of_sourceText_eq {token other : Token} (h : IsLexeme token) (hother : IsLexeme other)
    (heq : token.sourceText = other.sourceText) : token = other := by
  obtain ⟨text, rest, h⟩ := h
  obtain ⟨text', rest', hother⟩ := hother
  obtain rfl : text = text' := by
    rw [← h.sourceText_eq, heq, hother.sourceText_eq]
  -- What stood behind the two texts is forgotten.
  exact h.alone.unique hother.alone

/-! ## Tokens in a row -/

/-- Texts made of blanks and of comments, each comment with the line feed that ends it. -/
inductive IsFiller : List Char → Prop
  | nil : IsFiller []
  | blank {c : Char} {rest : List Char} : IsBlank c → IsFiller rest → IsFiller (c :: rest)
  | comment {body rest : List Char} :
      '\n' ∉ body → IsFiller rest → IsFiller ('/' :: '/' :: (body ++ '\n' :: rest))

theorem isFiller_space : IsFiller [' '] :=
  .blank (.inl rfl) .nil

theorem IsFiller.lexes {text rest : List Char} {tokens : List Token} (h : IsFiller text)
    (hrest : Lexes rest tokens) : Lexes (text ++ rest) tokens := by
  induction h with
  | nil => exact hrest
  | @blank c more hc _ ih =>
      have hchar : c :: more ++ rest = [c] ++ (more ++ rest) := rfl
      rw [hchar]
      exact .gap (.blank hc) ih
  | @comment body more hbody _ ih =>
      have hfeed : Lexes (['\n'] ++ (more ++ rest)) tokens :=
        .gap (.blank (.inr (.inr (.inr rfl)))) ih
      have hrun := isRun_of_not_mem hbody (more ++ rest)
      have htext : '/' :: '/' :: (body ++ '\n' :: more) ++ rest =
          '/' :: '/' :: body ++ (['\n'] ++ (more ++ rest)) := by simp
      rw [htext]
      exact .gap (.comment hrun) hfeed

theorem IsFiller.atBarrier {text : List Char} (h : IsFiller text) (hne : text ≠ [])
    (rest : List Char) : AtBarrier (text ++ rest) := by
  cases h with
  | nil => exact (hne rfl).elim
  | blank hc =>
      refine atBarrier_cons ?_ _
      rcases hc with rfl | rfl | rfl | rfl <;> decide
  | comment => exact atBarrier_cons (by decide) _

/-- A text in front, and then the tokens, each written with the text behind it. -/
def printed (front : String) (items : List (Token × String)) : String :=
  front ++ String.join (items.map fun item => item.1.sourceText ++ item.2)

theorem toList_printed (front : String) (items : List (Token × String)) :
    (printed front items).toList =
      front.toList ++ items.flatMap fun item => item.1.sourceText.toList ++ item.2.toList := by
  simp [printed, List.flatMap_map]

/-- Only the last token may have nothing behind it: the end of the text is a barrier too. -/
theorem lexes_items {items : List (Token × String)} (hitems : Writable (items.map Prod.fst))
    (hbehind : ∀ item ∈ items, IsFiller item.2.toList)
    (hbetween : ∀ item ∈ items.dropLast, item.2 ≠ "") :
    Lexes (items.flatMap fun item => item.1.sourceText.toList ++ item.2.toList)
      (items.map Prod.fst) := by
  induction items with
  | nil => exact .nil
  | cons item items ih =>
      obtain ⟨token, behind⟩ := item
      rw [List.map_cons, writable_cons] at hitems
      obtain ⟨⟨text, rest, hlexeme⟩, htokens⟩ := hitems
      obtain ⟨hfiller, hfillers⟩ := List.forall_mem_cons.mp hbehind
      have hothers : Lexes (items.flatMap fun item => item.1.sourceText.toList ++ item.2.toList)
          (items.map Prod.fst) := by
        refine ih htokens hfillers fun other hother => hbetween other ?_
        cases items with
        | nil => cases hother
        | cons next items => exact List.mem_cons_of_mem _ hother
      have hbarrier : AtBarrier (behind.toList ++
          items.flatMap fun item => item.1.sourceText.toList ++ item.2.toList) := by
        by_cases hempty : behind = ""
        · -- Nothing stands behind the last token.
          cases items with
          | nil => simpa [hempty] using atBarrier_nil
          | cons next items => exact (hbetween (token, behind) (by simp) hempty).elim
        · refine hfiller.atBarrier ?_ _
          simpa using hempty
      rw [List.flatMap_cons, List.append_assoc, hlexeme.sourceText_eq]
      exact .token (hlexeme.before_barrier hbarrier) (hfiller.lexes hothers)

theorem lexes_printed {front : String} {items : List (Token × String)}
    (hitems : Writable (items.map Prod.fst)) (hfront : IsFiller front.toList)
    (hbehind : ∀ item ∈ items, IsFiller item.2.toList)
    (hbetween : ∀ item ∈ items.dropLast, item.2 ≠ "") :
    Lexes (printed front items).toList (items.map Prod.fst) := by
  rw [toList_printed]
  exact hfront.lexes (lexes_items hitems hbehind hbetween)

/-- Tokens that have texts are the tokens of some source. -/
theorem exists_source {tokens : List Token} (h : Writable tokens) :
    ∃ source : String, Lexes source.toList tokens := by
  let items := tokens.map fun token => (token, " ")
  have htokens : items.map Prod.fst = tokens := by simp [items, Function.comp_def]
  have hspace : ∀ item ∈ items, item.2 = " " := by
    intro item hitem
    obtain ⟨token, -, rfl⟩ := List.mem_map.mp hitem
    rfl
  refine ⟨printed "" items, ?_⟩
  rw [← htokens]
  refine lexes_printed (by rwa [htokens]) .nil ?_ ?_
  · intro item hitem
    rw [hspace item hitem]
    exact isFiller_space
  · intro item hitem
    rw [hspace item ((List.dropLast_sublist items).subset hitem)]
    decide

theorem Lexes.writable {text : List Char} {tokens : List Token} (h : Lexes text tokens) :
    Writable tokens := by
  induction h with
  | nil => exact writable_nil
  | gap _ _ ih => exact ih
  | token hlexeme _ ih => exact (writable_cons _ _).mpr ⟨⟨_, _, hlexeme⟩, ih⟩

/-- The tokens of all scanned sources are the ones that have a text, the end of input apart. -/
theorem scannable_iff_isLexeme (token : Token) :
    Scannable token ∧ token.kind ≠ .endOfInput ↔ IsLexeme token := by
  constructor
  · intro h
    obtain ⟨⟨source, placed, hscan, hmem⟩, hkind⟩ := h
    obtain ⟨body, hbody, hlexes⟩ := lexes_of_scan hscan
    rw [hbody, List.mem_append, List.mem_singleton] at hmem
    rcases hmem with hmem | rfl
    · exact hlexes.writable token hmem
    · exact (hkind rfl).elim
  · intro h
    have hwritable : Writable [token] := (writable_cons token []).mpr ⟨h, writable_nil⟩
    obtain ⟨source, hlexes⟩ := exists_source hwritable
    obtain ⟨placed, hscan, htokens⟩ := scan_of_lexes hlexes
    refine ⟨⟨source, placed, hscan, by simp [htokens]⟩, ?_⟩
    obtain ⟨text, rest, hlexeme⟩ := h
    exact hlexeme.kind_ne_endOfInput

/-- Scanned tokens that are written again, with at least a blank or a comment between any two of
them, are scanned as the same tokens. -/
theorem scan_printed (front : String) (items : List (Token × String))
    (htokens : ∀ item ∈ items, Scannable item.1 ∧ item.1.kind ≠ .endOfInput)
    (hfront : IsFiller front.toList)
    (hbehind : ∀ item ∈ items, IsFiller item.2.toList)
    (hbetween : ∀ item ∈ items.dropLast, item.2 ≠ "") :
    (scan (printed front items)).map (List.map Placed.token) =
      .ok (items.map Prod.fst ++ [.finish]) := by
  have hwritable : Writable (items.map Prod.fst) := by
    intro token htoken
    obtain ⟨item, hitem, rfl⟩ := List.mem_map.mp htoken
    exact (scannable_iff_isLexeme item.1).mp (htokens item hitem)
  obtain ⟨placed, hscan, hplaced⟩ :=
    scan_of_lexes (lexes_printed hwritable hfront hbehind hbetween)
  rw [hscan, ← hplaced]
  rfl

/-- A number and a word that would be its unit, kept apart by a comment. -/
theorem scan_printed_number_before_unit :
    Scannable ⟨.number, "10"⟩ ∧ Scannable ⟨.identifier, "px"⟩ ∧
      (scan (printed "\t" [(⟨.number, "10"⟩, "//%\n"), (⟨.identifier, "px"⟩, "")])).map
          (List.map Placed.token) =
        .ok [⟨.number, "10"⟩, ⟨.identifier, "px"⟩, .finish] := by
  have hnumber : Scannable ⟨.number, "10"⟩ :=
    ⟨"10", [⟨⟨.number, "10"⟩, ⟨0, 2, ⟨1, 1⟩⟩⟩, ⟨.finish, ⟨2, 2, ⟨1, 3⟩⟩⟩], by decide +kernel,
      by decide⟩
  have hword : Scannable ⟨.identifier, "px"⟩ :=
    ⟨"px", [⟨⟨.identifier, "px"⟩, ⟨0, 2, ⟨1, 1⟩⟩⟩, ⟨.finish, ⟨2, 2, ⟨1, 3⟩⟩⟩], by decide +kernel,
      by decide⟩
  refine ⟨hnumber, hword, ?_⟩
  refine scan_printed "\t" [(⟨.number, "10"⟩, "//%\n"), (⟨.identifier, "px"⟩, "")] ?_ ?_ ?_ ?_
  · simpa using ⟨hnumber, hword⟩
  · exact .blank (.inr (.inl rfl)) .nil
  · have hcomment : IsFiller ('/' :: '/' :: (['%'] ++ ['\n'])) := .comment (by decide) .nil
    simpa using ⟨hcomment, .nil⟩
  · decide

end Lexical
end SiteCompiler
