import SiteCompiler.Proofs.Compile.Stages
import SiteCompiler.Proofs.Script.Values

/-!
# Literals of strict code

The body of a class is strict code.  A number of strict code has no needless zero in
front, and a string ends in the line in which it begins, at its own quote.  A script keeps
the numbers and the strings of its source, so its literals are such literals exactly where
the source has written them as such.  What the escapes inside a string stand for is not
looked into.

* `StrictLiteral` - the literals of strict code.
* `Spoiled` - the numbers and strings that are none.
* `strictLiteral_number_iff`, `strictLiteral_string_iff` - numbers and strings by their
  parts.
* `strictLiteral_literal_iff` - which texts of tokens are written as such literals.
* `strict_literals_of_compile` - the literals of a script.
* `leading_zero_is_kept`, `line_feed_is_kept`, `last_backslash_is_kept` - scripts with a
  literal that is none of strict code.
-/

namespace SiteCompiler
namespace Script

open Lexical Grammar Image Stages

/-! ## Literals -/

/-- A backslash escapes the character behind it.  Behind the content, one is left that has nothing
to escape yet. -/
def escapesNext (content : List Char) : Bool :=
  content.foldl (fun escapes c => !escapes && c == '\\') false

/-- What may stand between the quotes of a string. -/
structure StrictContent (content : List Char) : Prop where
  quote : '"' ∉ content
  lineFeed : '\n' ∉ content
  carriageReturn : '\r' ∉ content
  escape : escapesNext content = false

/-- The literals of strict code that a script makes use of. -/
inductive StrictLiteral : List Char → Prop
  | truth {text : String} : text = "true" ∨ text = "false" → StrictLiteral text.toList
  /-- A zero in front is the only digit in front of the point. -/
  | number {sign whole fraction : List Char} : IsSign sign → IsDigits whole →
      (whole.head? = some '0' → whole = ['0']) → IsFraction fraction →
        StrictLiteral (sign ++ (whole ++ fraction))
  | string {content : List Char} : StrictContent content →
      StrictLiteral ('"' :: (content ++ ['"']))

/-- Numbers and strings as a source may have them, but not strict code: a number with a needless
zero in front, and a string that does not end where and how it should. -/
inductive Spoiled : List Char → Prop
  | number {sign digits fraction : List Char} : IsSign sign → IsDigits digits →
      IsFraction fraction → Spoiled (sign ++ ('0' :: digits ++ fraction))
  | string {content : List Char} : '"' ∉ content →
      '\n' ∈ content ∨ '\r' ∈ content ∨ escapesNext content = true →
        Spoiled ('"' :: (content ++ ['"']))

/-! ## Numbers -/

/-- The parts of a numeral are decided by the whole of it. -/
theorem parts_unique {sign whole fraction sign' whole' fraction' : List Char}
    (hsign : IsSign sign) (hwhole : IsDigits whole) (hfraction : IsFraction fraction)
    (hsign' : IsSign sign') (hwhole' : IsDigits whole') (hfraction' : IsFraction fraction')
    (heq : sign ++ (whole ++ fraction) = sign' ++ (whole' ++ fraction')) :
    whole = whole' := by
  obtain ⟨-, hparts⟩ := sign_unique hsign hsign' hwhole hwhole' heq
  exact ((isRun_whole hwhole hfraction).unique (isRun_whole hwhole' hfraction') hparts).1

theorem head?_of_isNumeral {text : List Char} (h : IsNumeral text) : text.head? ≠ some '"' := by
  intro hquote
  exact h.not_mem (by decide) (by decide) (by decide) (List.mem_of_head? hquote)

theorem isDigits_zero {digits : List Char} (h : IsDigits digits) : IsDigits ('0' :: digits) :=
  ⟨List.cons_ne_nil _ _, List.forall_mem_cons.mpr ⟨by decide, h.2⟩⟩

section Numbers

variable {sign whole fraction : List Char}

theorem isNumeral_parts (hsign : IsSign sign) (hwhole : IsDigits whole)
    (hfraction : IsFraction fraction) : IsNumeral (sign ++ (whole ++ fraction)) :=
  (isNumeral_iff _).mpr ⟨sign, whole, fraction, rfl, hsign, hwhole, hfraction⟩

theorem strictLiteral_number_iff (hsign : IsSign sign) (hwhole : IsDigits whole)
    (hfraction : IsFraction fraction) :
    StrictLiteral (sign ++ (whole ++ fraction)) ↔ (whole.head? = some '0' → whole = ['0']) := by
  have hnumeral := isNumeral_parts hsign hwhole hfraction
  constructor
  · intro h
    generalize htext : sign ++ (whole ++ fraction) = text at h hnumeral
    cases h with
    | @truth word hword =>
        have hletter : 'e' ∉ word.toList :=
          hnumeral.not_mem (by decide) (by decide) (by decide)
        rcases hword with rfl | rfl <;> exact (hletter (by decide)).elim
    | number hsign' hwhole' hzero hfraction' =>
        rw [parts_unique hsign hwhole hfraction hsign' hwhole' hfraction' htext]
        exact hzero
    | string => exact (head?_of_isNumeral hnumeral rfl).elim
  · intro hzero
    exact .number hsign hwhole hzero hfraction

theorem spoiled_number_iff (hsign : IsSign sign) (hwhole : IsDigits whole)
    (hfraction : IsFraction fraction) :
    Spoiled (sign ++ (whole ++ fraction)) ↔ whole.head? = some '0' ∧ whole ≠ ['0'] := by
  have hnumeral := isNumeral_parts hsign hwhole hfraction
  constructor
  · intro h
    generalize htext : sign ++ (whole ++ fraction) = text at h hnumeral
    cases h with
    | @number _ digits _ hsign' hdigits hfraction' =>
        rw [parts_unique hsign hwhole hfraction hsign' (isDigits_zero hdigits) hfraction' htext]
        exact ⟨rfl, by simpa using hdigits.1⟩
    | string => exact (head?_of_isNumeral hnumeral rfl).elim
  · rintro ⟨hzero, hothers⟩
    obtain ⟨digits, rfl⟩ := List.head?_eq_some_iff.mp hzero
    have hdigits : IsDigits digits :=
      ⟨by simpa using hothers, fun c hc => hwhole.2 c (List.mem_cons_of_mem _ hc)⟩
    exact .number hsign hdigits hfraction

end Numbers

/-! ## Strings -/

theorem content_unique {content other : List Char}
    (h : '"' :: (content ++ ['"']) = '"' :: (other ++ ['"'])) : content = other :=
  List.append_cancel_right (List.cons.inj h).2

theorem strictLiteral_string_iff (content : List Char) :
    StrictLiteral ('"' :: (content ++ ['"'])) ↔ StrictContent content := by
  constructor
  · intro h
    generalize htext : '"' :: (content ++ ['"']) = text at h
    have hquote : text.head? = some '"' := by rw [← htext, List.head?_cons]
    cases h with
    | truth hword => rcases hword with rfl | rfl <;> simp at hquote
    | number hsign hwhole _ hfraction =>
        exact (head?_of_isNumeral (isNumeral_parts hsign hwhole hfraction) hquote).elim
    | string hcontent => rwa [content_unique htext]
  · exact .string

theorem spoiled_string_iff {content : List Char} (hcontent : '"' ∉ content) :
    Spoiled ('"' :: (content ++ ['"'])) ↔
      '\n' ∈ content ∨ '\r' ∈ content ∨ escapesNext content = true := by
  constructor
  · intro h
    generalize htext : '"' :: (content ++ ['"']) = text at h
    have hquote : text.head? = some '"' := by rw [← htext, List.head?_cons]
    cases h with
    | @number _ digits _ hsign hdigits hfraction =>
        have hnumeral := isNumeral_parts hsign (isDigits_zero hdigits) hfraction
        exact (head?_of_isNumeral hnumeral hquote).elim
    | string _ hspoiled => rwa [content_unique htext]
  · exact .string hcontent

theorem escapesNext_of_not_mem {content : List Char} (h : '\\' ∉ content) :
    escapesNext content = false := by
  unfold escapesNext
  induction content with
  | nil => rfl
  | cons c content ih =>
      obtain ⟨hc, hcontent⟩ := List.ne_and_not_mem_of_not_mem_cons h
      have hstep : (!false && c == '\\') = false := by simpa using hc.symm
      rw [List.foldl_cons, hstep]
      exact ih hcontent

/-! ## The literals of tokens -/

/-- What is spoiled is a number or a string. -/
theorem Spoiled.number_or_string {text : List Char} (h : Spoiled text) :
    IsNumeral text ∨ text.head? = some '"' := by
  cases h with
  | number hsign hdigits hfraction =>
      exact .inl (isNumeral_parts hsign (isDigits_zero hdigits) hfraction)
  | string => exact .inr rfl

theorem strictLiteral_iff_of_isNumeral {text : List Char} (h : IsNumeral text) :
    StrictLiteral text ↔ ¬ Spoiled text := by
  obtain ⟨sign, whole, fraction, rfl, hsign, hwhole, hfraction⟩ := (isNumeral_iff text).mp h
  rw [strictLiteral_number_iff hsign hwhole hfraction, spoiled_number_iff hsign hwhole hfraction,
    not_and, not_not]

theorem strictLiteral_iff_of_quoted {content : List Char} (h : '"' ∉ content) :
    StrictLiteral ('"' :: (content ++ ['"'])) ↔ ¬ Spoiled ('"' :: (content ++ ['"'])) := by
  rw [strictLiteral_string_iff, spoiled_string_iff h, not_or, not_or, Bool.not_eq_true]
  constructor
  · intro hcontent
    exact ⟨hcontent.lineFeed, hcontent.carriageReturn, hcontent.escape⟩
  · rintro ⟨hlineFeed, hcarriageReturn, hescape⟩
    exact ⟨h, hlineFeed, hcarriageReturn, hescape⟩

/-- In quotes, the text of a token that is no string is a string of strict code. -/
theorem strictContent_sourceText {token : Token} (h : IsLexeme token)
    (hkind : token.kind ≠ .string) : StrictContent token.sourceText.toList := by
  obtain ⟨text, rest, hlexeme⟩ := h
  rw [hlexeme.sourceText_eq]
  have hpunctuation : ∀ entry ∈ punctuation, entry.1 ∉ ['"', '\n', '\r', '\\'] := by decide
  have hnone {c : Char} (hc : c ∈ ['"', '\n', '\r', '\\']) : c ∉ text :=
    hlexeme.not_mem hkind (eq_false_of_any (by decide) hc) fun hmem => hpunctuation _ hmem hc
  exact ⟨hnone (by simp), hnone (by simp), hnone (by simp),
    escapesNext_of_not_mem (hnone (by simp))⟩

/-- The text of a token is written as a literal of strict code if it is not spoiled, and otherwise
it is kept as it is. -/
theorem strictLiteral_literal_iff {token : Token} (h : IsLexeme token) :
    (StrictLiteral (literal token.sourceText).toList ↔ ¬ Spoiled token.sourceText.toList) ∧
      (Spoiled token.sourceText.toList → literal token.sourceText = token.sourceText) := by
  by_cases hspoilable :
      IsNumeral token.sourceText.toList ∨ token.sourceText.toList.head? = some '"'
  · have hkept : literal token.sourceText = token.sourceText := by
      refine literal_of_ne_bare ?_
      rw [classify_sourceText h, literalKind]
      rcases hspoilable with hnumeral | hquote
      · simp [(isNumeral_sourceText_iff h).mp hnumeral]
      · simp [(head?_sourceText_iff h).mp hquote]
    rw [hkept]
    refine ⟨?_, fun _ => rfl⟩
    rcases hspoilable with hnumeral | hquote
    · exact strictLiteral_iff_of_isNumeral hnumeral
    · have hkind := (head?_sourceText_iff h).mp hquote
      obtain ⟨content, hcontent, htext⟩ := exists_content h hkind
      rw [htext]
      exact strictLiteral_iff_of_quoted hcontent
  · have hsound : ¬ Spoiled token.sourceText.toList :=
      fun hspoiled => hspoilable hspoiled.number_or_string
    rw [not_or, isNumeral_sourceText_iff h, head?_sourceText_iff h] at hspoilable
    obtain ⟨hnumber, hstring⟩ := hspoilable
    refine ⟨iff_of_true ?_ hsound, fun hspoiled => (hsound hspoiled).elim⟩
    by_cases htruth : IsTruthValue token
    · have hkept : literal token.sourceText = token.sourceText := by
        refine literal_of_ne_bare ?_
        rw [classify_sourceText h, literalKind, if_neg hstring, if_neg hnumber, if_pos htruth]
        decide
      rw [hkept]
      exact .truth ((isTruthValue_iff h).mp htruth)
    · have hbare : literalKind token = .bare := by
        rw [literalKind, if_neg hstring, if_neg hnumber, if_neg htruth]
      rw [toList_literal_of_bare h hbare]
      exact .string (strictContent_sourceText h hstring)

/-! ## The literals of a script -/

/-- Of a source that compiles, a literal that sets a variable is one of strict code unless the
source has spoiled it, and then the script keeps it as it is. -/
theorem strict_literals_of_compile {source : String} {site : Site}
    (h : compile source = .ok site) :
    ∃ program, Program.parse source = .ok program ∧ program.render = site ∧
      ∀ component ∈ program.components, ∀ fields, .state fields ∈ component.blocks →
        ∀ field ∈ fields,
          (StrictLiteral (literal field.value).toList ↔ ¬ Spoiled field.value.toList) ∧
            (Spoiled field.value.toList → literal field.value = field.value) := by
  obtain ⟨program, hparse, hrender⟩ := (compile_eq_ok_iff source site).mp h
  refine ⟨program, hparse, hrender, ?_⟩
  intro component hcomponent fields hblock field hfield
  have hwellFormed := (wellFormed_of_parse hparse).components component hcomponent
  have hfields : ∀ field ∈ fields, WellFormedDeclaration field :=
    hwellFormed.blocks (.state fields) hblock
  obtain ⟨token, htoken, htext⟩ := (isValue_iff _).mp (hfields field hfield).value
  rw [← htext]
  exact strictLiteral_literal_iff htoken.lexeme

def sourceOfLiterals : String :=
  "component A \x7b state \x7b x: -0.5 y: 10px \x7d \x7d"

def programOfLiterals : Program :=
  ⟨[⟨"A", [.state [⟨"x", "-0.5"⟩, ⟨"y", "10px"⟩]]⟩]⟩

/-- A number that has no digit in front of its point but a zero, and a measure. -/
theorem strict_literals_of_compile_number_and_measure :
    compile sourceOfLiterals = .ok programOfLiterals.render ∧
      ∃ program, Program.parse sourceOfLiterals = .ok program ∧
        program.render = programOfLiterals.render ∧
        ∀ component ∈ program.components, ∀ fields, .state fields ∈ component.blocks →
          ∀ field ∈ fields,
            (StrictLiteral (literal field.value).toList ↔ ¬ Spoiled field.value.toList) ∧
              (Spoiled field.value.toList → literal field.value = field.value) := by
  have hparse : Program.parse sourceOfLiterals = .ok programOfLiterals := by decide +kernel
  have hcompile : compile sourceOfLiterals = .ok programOfLiterals.render :=
    compile_of_parse hparse
  exact ⟨hcompile, strict_literals_of_compile hcompile⟩

def spoiledSource : String :=
  "component A \x7b state \x7b x: 007 \x7d \x7d"

def spoiledProgram : Program :=
  ⟨[⟨"A", [.state [⟨"x", "007"⟩]]⟩]⟩

/-- A number with needless zeros is kept with them, and it is no literal of strict code. -/
theorem leading_zero_is_kept :
    compile spoiledSource = .ok spoiledProgram.render ∧
      Declaration.assignment ⟨"x", "007"⟩ = "this.x = 007;" ∧
      ¬ StrictLiteral (literal "007").toList := by
  have hparse : Program.parse spoiledSource = .ok spoiledProgram := by decide +kernel
  have hliteral : (literal "007").toList = [] ++ (['0', '0', '7'] ++ []) := by decide
  have hwhole : IsDigits ['0', '0', '7'] := (isDigits_iff _).mp (by decide)
  refine ⟨compile_of_parse hparse, by decide, ?_⟩
  rw [hliteral, strictLiteral_number_iff (.inl rfl) hwhole (.inl rfl)]
  decide

/-- A string over two lines is kept as it is, and no string of strict code has a line feed in it. -/
theorem line_feed_is_kept :
    compile "component A \x7b state \x7b x: \"a\nb\" \x7d \x7d" =
        .ok (Program.render ⟨[⟨"A", [.state [⟨"x", "\"a\nb\""⟩]]⟩]⟩) ∧
      Declaration.assignment ⟨"x", "\"a\nb\""⟩ = "this.x = \"a\nb\";" ∧
      ¬ StrictLiteral (literal "\"a\nb\"").toList := by
  have hliteral : (literal "\"a\nb\"").toList = '"' :: (['a', '\n', 'b'] ++ ['"']) := by decide
  refine ⟨compile_of_parse (by decide +kernel), by decide, ?_⟩
  rw [hliteral, strictLiteral_iff_of_quoted (by decide), spoiled_string_iff (by decide)]
  decide

/-- A backslash at the end of a string is kept, where it takes the closing quote for a part of the
string. -/
theorem last_backslash_is_kept :
    compile "component A \x7b state \x7b x: \"a\\\" \x7d \x7d" =
        .ok (Program.render ⟨[⟨"A", [.state [⟨"x", "\"a\\\""⟩]]⟩]⟩) ∧
      Declaration.assignment ⟨"x", "\"a\\\""⟩ = "this.x = \"a\\\";" ∧
      ¬ StrictLiteral (literal "\"a\\\"").toList := by
  have hliteral : (literal "\"a\\\"").toList = '"' :: (['a', '\\'] ++ ['"']) := by decide
  refine ⟨compile_of_parse (by decide +kernel), by decide, ?_⟩
  rw [hliteral, strictLiteral_iff_of_quoted (by decide), spoiled_string_iff (by decide)]
  decide

end Script
end SiteCompiler
