import SiteCompiler.Program.OpenBlock

/-!
# The causes of a refusal

What a reader of tokens refuses lies in the tokens.  Inside a block it is always
the token at hand that is blamed, and nowhere does a reader say that a text has no
tokens at all: that is for the scanner alone to say.

* `BlamesToken`, `blamesToken_of_step` - the causes that are found inside a block.
* `OfTokens` - the causes that are not the scanner's.
-/

namespace SiteCompiler
namespace Grammar

theorem map_eq_ok_iff {ε α β : Type} (f : α → β) (result : Except ε α) (value : β) :
    result.map f = .ok value ↔ ∃ found, result = .ok found ∧ f found = value := by
  cases result with
  | error error => simp [Except.map]
  | ok found => simp [Except.map]

theorem map_eq_error_iff {ε α β : Type} (f : α → β) (result : Except ε α) (error : ε) :
    result.map f = .error error ↔ result = .error error := by
  cases result with
  | error other => simp [Except.map]
  | ok value => simp [Except.map]

/-! ## Inside a block -/

/-- The cause is that this token is not what it should be. -/
inductive BlamesToken (token : Token) : ParseFault → Prop
  | expected (wanted : Expectation) : BlamesToken token (.expected wanted (some token))
  | unquoted : BlamesToken token (.unquotedString token.lexeme)

section Block

variable {token : Token} {fault : ParseFault}

theorem blamesToken_of_expect {α : Type} {kind : TokenKind} {wanted : Expectation} {next : α}
    (h : token.expect kind wanted next = .error fault) : BlamesToken token fault := by
  unfold Token.expect at h
  split at h
  · cases h
  · cases h
    exact .expected wanted

theorem blamesToken_of_unquote (h : token.unquote = .error fault) : BlamesToken token fault := by
  unfold Token.unquote at h
  split at h
  · split at h
    · cases h
    · cases h
      exact .unquoted
  · cases h

theorem blamesToken_of_displayText (h : token.displayText = .error fault) :
    BlamesToken token fault := by
  unfold Token.displayText at h
  split at h
  · cases h
  · exact blamesToken_of_unquote ((map_eq_error_iff _ _ _).mp h)

theorem blamesToken_of_add {pairs : Pairs} {name : String}
    (h : pairs.add name token = .error fault) : BlamesToken token fault := by
  cases pairs with
  | state fields => cases h
  | style properties => cases h
  | element before current =>
      have hassign := (map_eq_error_iff _ _ _).mp h
      unfold Element.assign at hassign
      split at hassign
      · exact blamesToken_of_displayText ((map_eq_error_iff _ _ _).mp hassign)
      split at hassign
      · exact blamesToken_of_unquote ((map_eq_error_iff _ _ _).mp hassign)
      · cases hassign

theorem blamesToken_of_pairs_step {pairs : Pairs} {stage : PairStage}
    (h : pairs.step stage token = .error fault) : BlamesToken token fault := by
  cases stage with
  | name =>
      simp only [Pairs.step] at h
      split at h
      · cases h
      · exact blamesToken_of_expect h
  | colon name => exact blamesToken_of_expect h
  | value name =>
      simp only [Pairs.step] at h
      split at h
      · cases h
        exact .expected (.pairValue name)
      · exact blamesToken_of_add ((map_eq_error_iff _ _ _).mp h)

/-- A block that is refused is refused for the token that was read. -/
theorem blamesToken_of_step {block : OpenBlock} (h : block.step token = .error fault) :
    BlamesToken token fault := by
  cases block with
  | opening kind => exact blamesToken_of_expect h
  | pairs list stage => exact blamesToken_of_pairs_step h
  | elements done =>
      simp only [OpenBlock.step] at h
      split at h
      · cases h
      · exact blamesToken_of_expect h
  | elementOpening done name => exact blamesToken_of_expect h
  | handlers done =>
      simp only [OpenBlock.step] at h
      split at h
      · cases h
      · exact blamesToken_of_expect h
  | handlerArrow done name => exact blamesToken_of_expect h
  | handlerOpening done name => exact blamesToken_of_expect h
  | statements done name depth words => cases h

end Block

/-! ## Outside the scanner -/

/-- The cause lies in the tokens, and not in the text that they come from. -/
def OfTokens (fault : ParseFault) : Prop :=
  ∀ cause, fault ≠ .unreadable cause

theorem BlamesToken.ofTokens {token : Token} {fault : ParseFault} (h : BlamesToken token fault) :
    OfTokens fault := by
  rintro cause rfl
  cases h

end Grammar
end SiteCompiler
