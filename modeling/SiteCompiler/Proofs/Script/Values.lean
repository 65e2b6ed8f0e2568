import SiteCompiler.Script.Literal
import SiteCompiler.Stylesheet
import SiteCompiler.Proofs.Image.Source
import Mathlib.Data.List.Basic

/-!
# The texts of values

A program keeps the text of a value and forgets its token.  A script, a stylesheet and
the reader of display texts look at the text again, each in its own way, and all of them
find what the scanner knew.

* `isNumeral_iff`, `isPlainNumber_iff` - the plain numbers are the numerals.
* `isNumeral_sourceText_iff`, `isTruthValue_iff` - the texts of numbers and of truth values.
* `literalKind`, `classify_sourceText` - how the text of a token is written in a script.
* `stylesheetValue_sourceText` - what a stylesheet has of it.
* `scanned_text_tells_token` - both for the tokens of a scanned text.
-/

namespace SiteCompiler
namespace Script

open Lexical Grammar Image

/-! ## Numbers -/

theorem isDigits_iff (text : List Char) : isDigits text = true ↔ IsDigits text := by
  simp [isDigits, IsDigits]

/-- Nothing, or a point with digits behind it. -/
def IsFraction (text : List Char) : Prop :=
  text = [] ∨ ∃ decimals, text = '.' :: decimals ∧ IsDigits decimals

/-- A numeral in its three parts. -/
theorem isNumeral_iff (text : List Char) :
    IsNumeral text ↔ ∃ sign whole fraction, text = sign ++ (whole ++ fraction) ∧ IsSign sign ∧
      IsDigits whole ∧ IsFraction fraction := by
  constructor
  · intro h
    cases h with
    | whole hsign hdigits => exact ⟨_, _, [], by simp, hsign, hdigits, .inl rfl⟩
    | fraction hsign hdigits hdecimals =>
        exact ⟨_, _, _, rfl, hsign, hdigits, .inr ⟨_, rfl, hdecimals⟩⟩
  · rintro ⟨sign, whole, fraction, rfl, hsign, hdigits, rfl | ⟨decimals, rfl, hdecimals⟩⟩
    · rw [List.append_nil]
      exact .whole hsign hdigits
    · exact .fraction hsign hdigits hdecimals

theorem isRun_whole {whole fraction : List Char} (hwhole : IsDigits whole)
    (hfraction : IsFraction fraction) : IsRun (· != '.') whole fraction := by
  constructor
  · intro c hc
    simpa using ne_of_class (hwhole.2 c hc) (by decide)
  · rcases hfraction with rfl | ⟨decimals, rfl, -⟩ <;> simp

/-- The digits up to the point and behind it are looked at one after the other. -/
theorem isUnsigned_iff (text : List Char) :
    (match text.dropWhile (· != '.') with
      | [] => isDigits (text.takeWhile (· != '.'))
      | _ :: decimals => isDigits (text.takeWhile (· != '.')) && isDigits decimals) = true ↔
      ∃ whole fraction, text = whole ++ fraction ∧ IsDigits whole ∧ IsFraction fraction := by
  constructor
  · intro h
    have hsplit := List.takeWhile_append_dropWhile (p := (· != '.')) (l := text)
    refine ⟨_, _, hsplit.symm, ?_⟩
    cases hrest : text.dropWhile (· != '.') with
    | nil =>
        rw [hrest] at h
        exact ⟨(isDigits_iff _).mp h, .inl rfl⟩
    | cons point decimals =>
        have hpoint : point = '.' := by
          have hhead := List.head?_dropWhile_not (· != '.') text
          simpa [hrest] using hhead
        rw [hrest, Bool.and_eq_true, isDigits_iff, isDigits_iff] at h
        exact ⟨h.1, .inr ⟨decimals, by rw [hpoint], h.2⟩⟩
  · rintro ⟨whole, fraction, rfl, hwhole, hfraction⟩
    have hrun := isRun_whole hwhole hfraction
    have hrest : (whole ++ fraction).dropWhile (· != '.') = fraction := by
      have hsplit := List.takeWhile_append_dropWhile (p := (· != '.')) (l := whole ++ fraction)
      rw [hrun.takeWhile_eq] at hsplit
      exact List.append_cancel_left hsplit
    rw [hrest, hrun.takeWhile_eq]
    rcases hfraction with rfl | ⟨decimals, rfl, hdecimals⟩
    · exact (isDigits_iff _).mpr hwhole
    · simp [(isDigits_iff _).mpr hwhole, (isDigits_iff _).mpr hdecimals]

/-- The plain numbers are the numerals. -/
theorem isPlainNumber_iff (text : List Char) : isPlainNumber text = true ↔ IsNumeral text := by
  rw [isNumeral_iff]
  refine (isUnsigned_iff _).trans ?_
  constructor
  · rintro ⟨whole, fraction, heq, hparts⟩
    by_cases hhyphen : text.head? = some '-'
    · rw [if_pos hhyphen] at heq
      refine ⟨['-'], whole, fraction, ?_, .inr rfl, hparts⟩
      rw [← heq]
      exact (List.cons_head?_tail hhyphen).symm
    · rw [if_neg hhyphen] at heq
      exact ⟨[], whole, fraction, heq, .inl rfl, hparts⟩
  · rintro ⟨sign, whole, fraction, rfl, rfl | rfl, hparts⟩
    · -- A digit is no hyphen.
      obtain ⟨d, digits, rfl⟩ := List.exists_cons_of_ne_nil hparts.1.1
      have hd : d ≠ '-' := ne_of_class (hparts.1.2 d (by simp)) (by decide)
      exact ⟨d :: digits, fraction, if_neg (by simpa using hd), hparts⟩
    · exact ⟨whole, fraction, if_pos rfl, hparts⟩

/-! ## Tokens by their texts -/

/-- A numeral is a number wherever it is alone. -/
theorem isLexeme_number {text : List Char} (h : IsNumeral text) :
    IsLexeme ⟨.number, String.ofList text⟩ := by
  have hlongest : IsLongest IsNumeral text ([] ++ []) :=
    ⟨h, fun other hother _ => by simpa using hother.length_le⟩
  exact ⟨text, [], .number hlongest ⟨by simp, by simp⟩ (by decide) (by simp)⟩

/-- The tokens that are numerals in the text are the numbers. -/
theorem isNumeral_sourceText_iff {token : Token} (h : IsLexeme token) :
    IsNumeral token.sourceText.toList ↔ token.kind = .number := by
  constructor
  · intro hnumeral
    have heq : token = ⟨.number, String.ofList token.sourceText.toList⟩ :=
      eq_of_sourceText_eq h (isLexeme_number hnumeral) (by simp [Token.sourceText])
    rw [heq]
  · intro hkind
    obtain ⟨text, rest, hlexeme⟩ := h
    rw [hlexeme.sourceText_eq]
    cases hlexeme with
    | number hlongest => exact hlongest.mem
    | punctuation hmem => exact (punctuation_kind_ne hmem (by decide) hkind).elim
    | word => exact (wordKind_ne (by decide) _ hkind).elim
    | _ => cases hkind

theorem exists_content {token : Token} (h : IsLexeme token)
    (hkind : token.kind = .string) :
    ∃ content, '"' ∉ content ∧ token.sourceText.toList = '"' :: (content ++ ['"']) := by
  obtain ⟨text, rest, hlexeme⟩ := h
  obtain ⟨content, hcontent, htext⟩ := hlexeme.quoted hkind
  exact ⟨content, hcontent, by simpa [Token.sourceText, hkind] using htext⟩

theorem head?_sourceText_iff {token : Token} (h : IsLexeme token) :
    token.sourceText.toList.head? = some '"' ↔ token.kind = .string := by
  constructor
  · intro hquote
    obtain ⟨text, rest, hlexeme⟩ := h
    rw [hlexeme.sourceText_eq] at hquote
    by_contra hkind
    exact hlexeme.quote_not_mem hkind (List.mem_of_head? hquote)
  · intro hkind
    obtain ⟨content, -, htext⟩ := exists_content h hkind
    rw [htext, List.head?_cons]

/-- An identifier that spells a truth value. -/
def IsTruthValue (token : Token) : Prop :=
  token.kind = .identifier ∧ (token.lexeme = "true" ∨ token.lexeme = "false")

instance (token : Token) : Decidable (IsTruthValue token) :=
  inferInstanceAs (Decidable (_ ∧ _))

theorem isTruthValue_iff {token : Token} (h : IsLexeme token) :
    IsTruthValue token ↔ token.sourceText = "true" ∨ token.sourceText = "false" := by
  have hword {name : String} (hname : IsIdentifier name) :
      token.sourceText = name ↔ token.kind = .identifier ∧ token.lexeme = name := by
    constructor
    · intro htext
      have heq : token = ⟨.identifier, name⟩ :=
        eq_of_sourceText_eq h (isLexeme_identifier hname) (htext.trans (by simp [Token.sourceText]))
      rw [heq]
      exact ⟨rfl, rfl⟩
    · rintro ⟨hkind, rfl⟩
      simp [Token.sourceText, hkind]
  have htrue : IsIdentifier "true" := ⟨isWord_of_letters (by decide) (by decide), by decide⟩
  have hfalse : IsIdentifier "false" := ⟨isWord_of_letters (by decide) (by decide), by decide⟩
  rw [hword htrue, hword hfalse, IsTruthValue, and_or_left]

/-! ## Literals -/

/-- How a token is to be written in a script. -/
def literalKind (token : Token) : LiteralKind :=
  if token.kind = .string then .string
  else if token.kind = .number then .number
  else if IsTruthValue token then .boolean
  else .bare

/-- The text of a token is written as the token is to be. -/
theorem classify_sourceText {token : Token} (h : IsLexeme token) :
    classify token.sourceText = literalKind token := by
  -- A truth value is no number, so it does not matter which of the two is looked for first.
  have hdisjoint : IsTruthValue token → token.kind ≠ .number := by
    rintro ⟨hkind, -⟩
    simp [hkind]
  simp only [classify, literalKind, head?_sourceText_iff h, ← isTruthValue_iff h,
    isPlainNumber_iff, isNumeral_sourceText_iff h]
  grind

theorem literal_of_ne_bare {raw : String} (h : classify raw ≠ .bare) : literal raw = raw := by
  unfold literal
  split
  case h_1 hbare => exact (h hbare).elim
  case h_2 => rfl

/-- A text that is put in quotes has none of its own. -/
theorem literal_of_bare {token : Token} (h : IsLexeme token)
    (hbare : literalKind token = .bare) :
    '"' ∉ token.sourceText.toList ∧
      literal token.sourceText = "\"" ++ token.sourceText ++ "\"" := by
  have hkind : token.kind ≠ .string := by
    intro hkind
    simp [literalKind, hkind] at hbare
  constructor
  · obtain ⟨text, rest, hlexeme⟩ := h
    rw [hlexeme.sourceText_eq]
    exact hlexeme.quote_not_mem hkind
  · simp only [literal, classify_sourceText h, hbare]

theorem toList_literal_of_bare {token : Token} (h : IsLexeme token)
    (hbare : literalKind token = .bare) :
    (literal token.sourceText).toList = '"' :: (token.sourceText.toList ++ ['"']) := by
  simp [(literal_of_bare h hbare).2]

/-! ## Values in a stylesheet -/

/-- In a stylesheet, the text of a token stands as the token reads, without the quotes of a
string. -/
theorem stylesheetValue_sourceText {token : Token} (h : IsLexeme token) :
    stylesheetValue token.sourceText = textOf token := by
  by_cases hkind : token.kind = .string
  · obtain ⟨text, rest, hlexeme⟩ := h
    obtain ⟨content, -, hcontent⟩ := hlexeme.quoted hkind
    have htext : token.sourceText = token.lexeme := by simp [Token.sourceText, hkind]
    simp [stylesheetValue, betweenQuotes?, textOf, hkind, htext, hcontent]
  · have hhead : token.sourceText.toList.head? ≠ some '"' :=
      fun hquote => hkind ((head?_sourceText_iff h).mp hquote)
    have hnone : betweenQuotes? token.sourceText.toList = none := by
      unfold betweenQuotes?
      split
      case h_1 rest heq => simp [heq] at hhead
      case h_2 => rfl
    simp [stylesheetValue, textOf, hkind, hnone]

/-! ## Scanned texts -/

/-- The text of a scanned token tells how the token is to be written in a script, and what it reads
in a stylesheet.  Where it is put in quotes, it has none of its own. -/
theorem scanned_text_tells_token {source : String} {placed : List (Placed Span)}
    (h : scan source = .ok placed) {token : Token} (htoken : token ∈ placed.map Placed.token)
    (hkind : token.kind ≠ .endOfInput) :
    classify token.sourceText = literalKind token ∧
      token.unquote = .ok (stylesheetValue token.sourceText) ∧
      (classify token.sourceText = .bare →
        '"' ∉ token.sourceText.toList ∧
          literal token.sourceText = "\"" ++ token.sourceText ++ "\"") := by
  have hlexeme : IsLexeme token :=
    (scannable_iff_isLexeme token).mp ⟨⟨source, placed, h, htoken⟩, hkind⟩
  refine ⟨classify_sourceText hlexeme, ?_, ?_⟩
  · rw [stylesheetValue_sourceText hlexeme]
    exact (quoted_of_isLexeme hlexeme).unquote_eq
  · rw [classify_sourceText hlexeme]
    exact literal_of_bare hlexeme

/-- A measure is no number: it is put in quotes. -/
theorem scanned_text_tells_token_measure :
    ∃ placed, scan "10px" = .ok placed ∧
      (⟨.unit, "10px"⟩ : Token) ∈ placed.map Placed.token ∧
      classify "10px" = .bare ∧
      Token.unquote ⟨.unit, "10px"⟩ = .ok (stylesheetValue "10px") ∧
      '"' ∉ "10px".toList ∧ literal "10px" = "\"10px\"" := by
  let placed : List (Placed Span) :=
    [⟨⟨.unit, "10px"⟩, ⟨0, 4, ⟨1, 1⟩⟩⟩, ⟨.finish, ⟨4, 4, ⟨1, 5⟩⟩⟩]
  have hscan : scan "10px" = .ok placed := by decide +kernel
  have hmem : (⟨.unit, "10px"⟩ : Token) ∈ placed.map Placed.token := by decide
  have htext : Token.sourceText ⟨.unit, "10px"⟩ = "10px" := by decide
  obtain ⟨hkind, hvalue, hquoted⟩ := scanned_text_tells_token hscan hmem (by decide)
  rw [htext] at hkind hvalue hquoted
  have hbare : classify "10px" = .bare := hkind.trans (by decide)
  exact ⟨placed, hscan, hmem, hbare, hvalue, hquoted hbare⟩

end Script
end SiteCompiler
