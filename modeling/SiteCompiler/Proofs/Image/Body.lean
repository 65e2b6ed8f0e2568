import SiteCompiler.Proofs.Compile.Stages
import SiteCompiler.Proofs.Grammar.Opened
import SiteCompiler.Proofs.Image.Source

/-!
# Handler bodies scanned again

The body of a handler is kept as one text, and nothing of its tokens is lost in
it: scanned by itself, it gives them back, each identifier as a field of `this`.

* `respelled` - the tokens of the word that a token of a body becomes.
* `lexes_bodyText` - a body is scanned again word by word.
* `scan_body_of_parse` - every handler of a parsed source is scanned again as the
  tokens between its braces.
-/

namespace SiteCompiler
namespace Image

open Lexical Grammar Stages

/-- What a token of a body is once it has been written into the method: an identifier is a field of
`this`, and any other token is itself. -/
def respelled (token : Token) : List Token :=
  if token.kind = .identifier then [⟨.identifier, "this"⟩, ⟨.dot, "."⟩, token] else [token]

/-! ## Words -/

theorem lexeme_this (rest : List Char) :
    Lexeme ⟨.identifier, "this"⟩ ['t', 'h', 'i', 's'] ('.' :: rest) := by
  have hsign : IsSign [] := .inl rfl
  have hstart : isWordStart 't' = true := by decide
  have hletters : ['h', 'i', 's'].all isWordRest = true := by decide
  have hpoint : isWordRest '.' = false := by decide
  have hrun : IsRun isWordRest ['h', 'i', 's'] ('.' :: rest) :=
    ⟨List.all_eq_true.mp hletters, by simp [hpoint]⟩
  have hkind : wordKind ['t', 'h', 'i', 's'] = .identifier := by decide
  have hword := Lexeme.word hsign hstart hrun
  rw [List.nil_append, hkind] at hword
  exact hword

/-- The front of the word of an identifier. -/
theorem lexes_this {rest : List Char} {tokens : List Token} (h : Lexes rest tokens) :
    Lexes ("this.".toList ++ rest) (⟨.identifier, "this"⟩ :: ⟨.dot, "."⟩ :: tokens) := by
  have hpoint : Lexes (['.'] ++ rest) (⟨.dot, "."⟩ :: tokens) :=
    .token (.punctuation (by decide)) h
  have htext : "this.".toList ++ rest = ['t', 'h', 'i', 's'] ++ ('.' :: rest) := by simp
  rw [htext]
  exact .token (lexeme_this rest) hpoint

/-- A word is scanned in front of anything that begins like a gap. -/
theorem lexes_word {token : Token} (htoken : IsLexeme token) {rest : List Char}
    {tokens : List Token} (hbarrier : AtBarrier rest) (hrest : Lexes rest tokens) :
    Lexes ((wordOf token).toList ++ rest) (respelled token ++ tokens) := by
  obtain ⟨text, behind, hlexeme⟩ := htoken
  have htext := hlexeme.sourceText_eq
  have hitself : Lexes (text ++ rest) (token :: tokens) :=
    .token (hlexeme.before_barrier hbarrier) hrest
  by_cases hkind : token.kind = .identifier
  · -- The source text of an identifier is its lexeme.
    have hlexemeText : token.lexeme.toList = text := by
      simpa [Token.sourceText, hkind] using htext
    have hthis := lexes_this hitself
    simpa [wordOf, respelled, hkind, hlexemeText] using hthis
  · simpa [wordOf, respelled, hkind, htext] using hitself

/-- The text of a body is scanned as its tokens, each as it was written into the text. -/
theorem lexes_bodyText {body : List Token} (h : Writable body) :
    Lexes (bodyText body).toList (body.flatMap respelled) := by
  induction body with
  | nil => exact .nil
  | cons token body ih =>
      obtain ⟨htoken, hbody⟩ := (writable_cons token body).mp h
      cases body with
      | nil =>
          have hword := lexes_word htoken atBarrier_nil .nil
          simpa [bodyText] using hword
      | cons next body =>
          -- The space in front of the next word ends this one.
          have hspace : Lexes (' ' :: (bodyText (next :: body)).toList)
              ((next :: body).flatMap respelled) :=
            isFiller_space.lexes (ih hbody)
          have hword := lexes_word htoken (atBarrier_cons (by decide) _) hspace
          simpa [bodyText] using hword

/-! ## Bodies -/

theorem writable_of_handlerAt {before after : List Component} {name method : String}
    {earlier later : List Block} {tokens inner body : List Token} (h : Writable tokens)
    (hcomponent : ComponentAt before name after inner tokens)
    (hhandler : HandlerAt earlier method later body inner) : Writable body := by
  cases hcomponent with
  | intro =>
      cases hhandler with
      | intro =>
          simp only [writable_append, writable_cons] at h
          tauto

/-- Nothing of a handler is lost: scanned by itself, its body gives the tokens between its braces,
with `this` and a point in front of every identifier.  The first half says that every handler has
its place in the source, the second speaks of what stands there. -/
theorem scan_body_of_parse {source : String} {program : Program}
    (h : Program.parse source = .ok program)
    {before after : List Component} {component : Component}
    (hcomponents : program.components = before ++ component :: after)
    {earlier later : List Block} {handler : Handler}
    (hblocks : component.blocks = earlier ++ .event handler :: later) :
    ∃ placed, scan source = .ok placed ∧
      (∃ inner body, ComponentAt before component.name after inner (tokensBefore placed) ∧
        HandlerAt earlier handler.name later body inner) ∧
      ∀ inner body, ComponentAt before component.name after inner (tokensBefore placed) →
        HandlerAt earlier handler.name later body inner →
          (scan handler.body).map (List.map Placed.token) =
            .ok (body.flatMap respelled ++ [.finish]) := by
  obtain ⟨tokens, hlexes, hderives⟩ := (parse_eq_ok_iff source program).mp h
  obtain ⟨placed, hscan, hplaced⟩ := scan_of_lexes hlexes
  have hwritable := hlexes.writable
  have hquoted := allQuoted_of_writable hwritable
  refine ⟨placed, hscan, ?_, ?_⟩
  · rw [tokensBefore_eq hplaced hwritable.kind_ne_endOfInput]
    have hopened := hderives.1
    rw [hcomponents] at hopened
    obtain ⟨inner, hcomponent, hinner, -⟩ := exists_componentAt hopened
    rw [hblocks] at hinner
    obtain ⟨body, hhandler⟩ := exists_handlerAt hinner
    exact ⟨inner, body, hcomponent, hhandler⟩
  · rw [tokensBefore_eq hplaced hwritable.kind_ne_endOfInput]
    intro inner body hcomponent hhandler
    have htext := bodyText_eq_of_handlerAt hquoted hderives hcomponents hblocks hcomponent hhandler
    have hbody := lexes_bodyText (writable_of_handlerAt hwritable hcomponent hhandler)
    rw [htext] at hbody
    exact (scan_eq_ok_iff_lexes _ _).mpr ⟨_, rfl, hbody⟩

/-- A handler with a block inside its body. -/
def nestedSource : String :=
  "component A \x7b eventos \x7b f -> \x7b if x \x7b cor = #f0 \x7d \x7d \x7d \x7d"

def nestedHandler : Handler :=
  ⟨"f", "if this.x \x7b this.cor = #f0 \x7d"⟩

/-- The braces and the color of a nested block are scanned again, and so are its identifiers. -/
theorem scan_body_of_parse_nested_block :
    Program.parse nestedSource = .ok ⟨[⟨"A", [.event nestedHandler]⟩]⟩ ∧
      ∃ placed, scan nestedSource = .ok placed ∧
        (∃ inner body, ComponentAt [] "A" [] inner (tokensBefore placed) ∧
          HandlerAt [] "f" [] body inner) ∧
        ∀ inner body, ComponentAt [] "A" [] inner (tokensBefore placed) →
          HandlerAt [] "f" [] body inner →
            (scan "if this.x \x7b this.cor = #f0 \x7d").map (List.map Placed.token) =
              .ok (body.flatMap respelled ++ [.finish]) := by
  have hparse : Program.parse nestedSource = .ok ⟨[⟨"A", [.event nestedHandler]⟩]⟩ := by
    decide +kernel
  have hcomponents : [Component.mk "A" [.event nestedHandler]] =
      [] ++ ⟨"A", [.event nestedHandler]⟩ :: [] := rfl
  have hblocks : [Block.event nestedHandler] = [] ++ .event nestedHandler :: [] := rfl
  exact ⟨hparse, scan_body_of_parse hparse hcomponents hblocks⟩

end Image
end SiteCompiler
