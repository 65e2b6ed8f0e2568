import SiteCompiler.Token.Scan

/-!
# The lexical rules

This module says which texts are tokens and which are gaps.  It is written from
the rules of the language alone: nothing here mentions how a scanner proceeds,
what it looks at first, or how far it looks.

* `IsRun` - a longest run of characters of one class.
* `IsLongest` - a longest beginning of a text that belongs to a language.
* `Lexeme` - the text that a token takes in front of what follows it.
* `Gap` - a blank or a comment in front of what follows it.
* `Lexes` - a text that is a sequence of gaps and token texts.

Every rule names what follows the text, since most of them take as much as
they can.
-/

namespace SiteCompiler
namespace Lexical

/-! ## Longest matches -/

/-- The characters of `text` are all in the class, and the character behind them is not. -/
structure IsRun (cls : Char → Bool) (text rest : List Char) : Prop where
  all : ∀ c ∈ text, cls c = true
  stops : ∀ c ∈ rest.head?, cls c = false

/-- No beginning of `text ++ rest` that belongs to the language is longer than `text`. -/
structure IsLongest (language : List Char → Prop) (text rest : List Char) : Prop where
  mem : language text
  longest : ∀ other, other <+: text ++ rest → language other → other.length ≤ text.length

/-! ## Languages -/

/-- An optional hyphen. -/
def IsSign (text : List Char) : Prop :=
  text = [] ∨ text = ['-']

/-- One digit or more. -/
def IsDigits (text : List Char) : Prop :=
  text ≠ [] ∧ ∀ c ∈ text, c.isDigit = true

/-- Numerals: digits behind an optional hyphen, and perhaps a point with digits behind it. -/
inductive IsNumeral : List Char → Prop
  | whole {sign digits : List Char} :
      IsSign sign → IsDigits digits → IsNumeral (sign ++ digits)
  | fraction {sign digits decimals : List Char} :
      IsSign sign → IsDigits digits → IsDigits decimals →
        IsNumeral (sign ++ (digits ++ '.' :: decimals))

/-- The units that are written in letters. -/
def letterUnits : List String :=
  ["px", "rem", "em", "vh", "vw", "s", "ms"]

/-- The characters that stand for a kind of their own. -/
def punctuation : List (Char × TokenKind) :=
  [('\x7b', .leftBrace), ('\x7d', .rightBrace), ('(', .leftParen), (')', .rightParen),
    ('!', .bang), (':', .colon), ('.', .dot), (',', .comma)]

/-- The kind of a word: the keyword that is spelled so, and otherwise an identifier. -/
def wordKind (text : List Char) : TokenKind :=
  (TokenKind.keyword? (String.ofList text)).getD .identifier

/-- A space, a tab, a carriage return or a line feed. -/
def IsBlank (c : Char) : Prop :=
  c = ' ' ∨ c = '\t' ∨ c = '\r' ∨ c = '\n'

/-! ## Tokens and gaps -/

/-- In front of `rest`, the text is the one that the token takes. -/
inductive Lexeme : Token → List Char → List Char → Prop
  | punctuation {c : Char} {kind : TokenKind} {rest : List Char} :
      (c, kind) ∈ punctuation → Lexeme ⟨kind, String.ofList [c]⟩ [c] rest
  | percentSign {rest : List Char} : Lexeme ⟨.unit, "%"⟩ ['%'] rest
  | equals {rest : List Char} :
      rest.head? ≠ some '>' → Lexeme ⟨.equals, "="⟩ ['='] rest
  | thinArrow {rest : List Char} : Lexeme ⟨.arrow, "->"⟩ ['-', '>'] rest
  | thickArrow {rest : List Char} : Lexeme ⟨.arrow, "=>"⟩ ['=', '>'] rest
  | minusEquals {rest : List Char} : Lexeme ⟨.minusEquals, "-="⟩ ['-', '='] rest
  | plusEquals {rest : List Char} : Lexeme ⟨.plusEquals, "+="⟩ ['+', '='] rest
  /-- A string runs to the next quote, whatever stands between. -/
  | string {content rest : List Char} :
      '"' ∉ content →
        Lexeme ⟨.string, String.ofList ('"' :: (content ++ ['"']))⟩
          ('"' :: (content ++ ['"'])) rest
  /-- A color keeps its digits and leaves its `#`. -/
  | color {digits rest : List Char} :
      IsRun isHexDigit digits rest →
        Lexeme ⟨.color, String.ofList digits⟩ ('#' :: digits) rest
  | word {sign tail rest : List Char} {head : Char} :
      IsSign sign → isWordStart head = true → IsRun isWordRest tail rest →
        Lexeme ⟨wordKind (sign ++ head :: tail), String.ofList (sign ++ head :: tail)⟩
          (sign ++ head :: tail) rest
  /-- A numeral with a percent sign behind it. -/
  | percentage {numeral rest : List Char} :
      IsLongest IsNumeral numeral ('%' :: rest) →
        Lexeme ⟨.unit, String.ofList (numeral ++ ['%'])⟩ (numeral ++ ['%']) rest
  /-- A numeral whose whole run of letters is a unit. -/
  | measure {numeral letters rest : List Char} :
      IsLongest IsNumeral numeral (letters ++ rest) → IsRun isWordStart letters rest →
        String.ofList letters ∈ letterUnits →
          Lexeme ⟨.unit, String.ofList (numeral ++ letters)⟩ (numeral ++ letters) rest
  /-- Any other numeral leaves the letters behind it alone. -/
  | number {numeral letters rest : List Char} :
      IsLongest IsNumeral numeral (letters ++ rest) → IsRun isWordStart letters rest →
        String.ofList letters ∉ letterUnits → (letters ++ rest).head? ≠ some '%' →
          Lexeme ⟨.number, String.ofList numeral⟩ numeral (letters ++ rest)

/-- In front of `rest`, the text is a blank or a comment. -/
inductive Gap : List Char → List Char → Prop
  | blank {c : Char} {rest : List Char} : IsBlank c → Gap [c] rest
  /-- A comment reaches up to the next line feed or to the end. -/
  | comment {body rest : List Char} :
      IsRun (· != '\n') body rest → Gap ('/' :: '/' :: body) rest

/-- The text is a sequence of gaps and token texts, and these are its tokens in order. -/
inductive Lexes : List Char → List Token → Prop
  | nil : Lexes [] []
  | gap {text rest : List Char} {tokens : List Token} :
      Gap text rest → Lexes rest tokens → Lexes (text ++ rest) tokens
  | token {token : Token} {text rest : List Char} {tokens : List Token} :
      Lexeme token text rest → Lexes rest tokens → Lexes (text ++ rest) (token :: tokens)

/-! ## Longest matches are unique -/

theorem isRun_takeWhile (cls : Char → Bool) (text : List Char) :
    IsRun cls (text.takeWhile cls) (text.drop (run cls text)) := by
  induction text with
  | nil => exact ⟨by simp, by simp [run]⟩
  | cons c cs ih =>
      cases hc : cls c with
      | true =>
          have hrun : run cls (c :: cs) = run cls cs + 1 := by simp [run, hc]
          rw [List.takeWhile_cons_of_pos hc, hrun, List.drop_succ_cons]
          exact ⟨by simpa [hc] using ih.all, ih.stops⟩
      | false => exact ⟨by simp [hc], by simp [run, hc]⟩

theorem IsRun.takeWhile_eq {cls : Char → Bool} {text rest : List Char}
    (h : IsRun cls text rest) : (text ++ rest).takeWhile cls = text := by
  rw [List.takeWhile_append_of_pos h.all]
  cases rest with
  | nil => simp
  | cons c cs => simp [h.stops c rfl]

theorem IsRun.unique {cls : Char → Bool} {text rest text' rest' : List Char}
    (h : IsRun cls text rest) (h' : IsRun cls text' rest')
    (happend : text ++ rest = text' ++ rest') : text = text' ∧ rest = rest' := by
  have htext : text = text' := by
    rw [← h.takeWhile_eq, happend, h'.takeWhile_eq]
  subst htext
  exact ⟨rfl, List.append_cancel_left happend⟩

/-- A text without a character runs up to the first of that character. -/
theorem isRun_of_not_mem {c : Char} {text : List Char} (h : c ∉ text) (rest : List Char) :
    IsRun (· != c) text (c :: rest) := by
  refine ⟨fun d hd => ?_, by simp⟩
  simpa using ne_of_mem_of_not_mem hd h

/-- What stands in front of the first of a character is decided, and so is what stands behind. -/
theorem append_cons_unique {c : Char} {text rest text' rest' : List Char} (h : c ∉ text)
    (h' : c ∉ text') (happend : text ++ c :: rest = text' ++ c :: rest') :
    text = text' ∧ rest = rest' := by
  obtain ⟨htext, hrest⟩ :=
    (isRun_of_not_mem h rest).unique (isRun_of_not_mem h' rest') happend
  exact ⟨htext, (List.cons.inj hrest).2⟩

/-- Characters of the class at the front of a text reach no further than their longest run. -/
theorem IsRun.length_le {cls : Char → Bool} {text rest other more : List Char}
    (h : IsRun cls text rest) (hother : ∀ c ∈ other, cls c = true)
    (happend : other ++ more = text ++ rest) : other.length ≤ text.length := by
  have htext : text = other ++ more.takeWhile cls := by
    rw [← h.takeWhile_eq, ← happend, List.takeWhile_append_of_pos hother]
  rw [htext, List.length_append]
  exact Nat.le_add_right _ _

theorem IsLongest.unique {language : List Char → Prop} {text rest text' rest' : List Char}
    (h : IsLongest language text rest) (h' : IsLongest language text' rest')
    (happend : text ++ rest = text' ++ rest') : text = text' ∧ rest = rest' := by
  have hle : text'.length ≤ text.length :=
    h.longest text' (happend ▸ List.prefix_append text' rest') h'.mem
  have hge : text.length ≤ text'.length :=
    h'.longest text (happend ▸ List.prefix_append text rest) h.mem
  exact List.append_inj happend (Nat.le_antisymm hge hle)

end Lexical
end SiteCompiler
