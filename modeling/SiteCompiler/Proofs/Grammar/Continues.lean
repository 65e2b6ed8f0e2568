import SiteCompiler.Program.OpenBlock

/-!
# The moves inside an open block

One token makes of an open block another open block, completes it, or is refused.
All that is proved of blocks rests on this list of the moves that leave a block open.

* `Continues`, `continues_iff` - the moves that leave a block open, and that there
  are no others.
* `step_ne_done` - a block is complete at a closing brace only.
-/

namespace SiteCompiler
namespace Grammar

/-- What one token makes of a block that stays open. -/
inductive Continues : OpenBlock → Token → OpenBlock → Prop
  | opening {kind : BlockKind} {next : OpenBlock} {token : Token} :
      token.kind = .leftBrace → next = kind.enter → Continues (.opening kind) token next
  | pairName {list : Pairs} {token : Token} :
      token.kind = .identifier →
        Continues (.pairs list .name) token (.pairs list (.colon token.lexeme))
  | pairColon {list : Pairs} {name : String} {token : Token} :
      token.kind = .colon →
        Continues (.pairs list (.colon name)) token (.pairs list (.value name))
  | pairValue {list added : Pairs} {name : String} {token : Token} {records : List Record} :
      token.kind ≠ .leftBrace → token.kind ≠ .rightBrace →
        list.add name token = .ok (added, records) →
          Continues (.pairs list (.value name)) token (.pairs added .name)
  | elementClosing {before : List Element} {current : Element} {token : Token} :
      token.kind = .rightBrace →
        Continues (.pairs (.element before current) .name) token (.elements (before ++ [current]))
  | elementName {done : List Element} {token : Token} :
      token.kind = .identifier →
        Continues (.elements done) token (.elementOpening done token.lexeme)
  | elementOpening {done : List Element} {name : String} {token : Token} :
      token.kind = .leftBrace →
        Continues (.elementOpening done name) token
          (.pairs (.element done ⟨name, none, none⟩) .name)
  | handlerName {done : List Handler} {token : Token} :
      token.kind = .identifier →
        Continues (.handlers done) token (.handlerArrow done token.lexeme)
  | handlerArrow {done : List Handler} {name : String} {token : Token} :
      token.kind = .arrow → Continues (.handlerArrow done name) token (.handlerOpening done name)
  | handlerOpening {done : List Handler} {name : String} {token : Token} :
      token.kind = .leftBrace →
        Continues (.handlerOpening done name) token (.statements done name 0 [])
  | word {done : List Handler} {name : String} {depth : Nat} {words : List String}
      {token : Token} :
      token.kind ≠ .leftBrace → token.kind ≠ .rightBrace →
        Continues (.statements done name depth words) token
          (.statements done name depth (words ++ [token.statementWord]))
  | innerOpening {done : List Handler} {name : String} {depth : Nat} {words : List String}
      {token : Token} :
      token.kind = .leftBrace →
        Continues (.statements done name depth words) token
          (.statements done name (depth + 1) (words ++ [token.statementWord]))
  | innerClosing {done : List Handler} {name : String} {depth : Nat} {words : List String}
      {token : Token} :
      token.kind = .rightBrace →
        Continues (.statements done name (depth + 1) words) token
          (.statements done name depth (words ++ [token.statementWord]))
  /-- At depth zero a closing brace ends the body, and nothing is subtracted. -/
  | bodyClosing {done : List Handler} {name : String} {words : List String} {token : Token} :
      token.kind = .rightBrace →
        Continues (.statements done name 0 words) token
          (.handlers (done ++ [⟨name, " ".intercalate words⟩]))

theorem expect_eq_ok_iff {α : Type} (token : Token) (kind : TokenKind) (wanted : Expectation)
    (next found : α) :
    token.expect kind wanted next = .ok found ↔ token.kind = kind ∧ next = found := by
  unfold Token.expect
  by_cases hkind : token.kind = kind <;> simp [hkind]

theorem continues_of_stepStatements {done : List Handler} {name : String} {depth : Nat}
    {words : List String} {token : Token} {next : OpenBlock} {records : List Record}
    (h : stepStatements done name depth words token = .more next records) :
    Continues (.statements done name depth words) token next := by
  by_cases hleft : token.kind = .leftBrace
  · simp only [stepStatements, hleft, if_true] at h
    cases h
    exact .innerOpening hleft
  by_cases hright : token.kind = .rightBrace
  · cases depth with
    | zero =>
        simp only [stepStatements, hright, if_true] at h
        cases h
        exact .bodyClosing hright
    | succ outer =>
        simp only [stepStatements, hright, if_true] at h
        cases h
        exact .innerClosing hright
  · simp only [stepStatements, hleft, hright, if_false] at h
    cases h
    exact .word hleft hright

theorem continues_of_pairs_step {list : Pairs} {stage : PairStage} {token : Token}
    {next : OpenBlock} {records : List Record}
    (h : list.step stage token = .ok (.more next records)) :
    Continues (.pairs list stage) token next := by
  cases stage with
  | name =>
      by_cases hright : token.kind = .rightBrace
      · simp only [Pairs.step, hright, if_true] at h
        cases list with
        | state fields => cases h
        | style properties => cases h
        | element before current =>
            cases h
            exact .elementClosing hright
      · simp only [Pairs.step, hright, if_false, expect_eq_ok_iff] at h
        obtain ⟨hkind, hnext⟩ := h
        cases hnext
        exact .pairName hkind
  | colon name =>
      obtain ⟨hkind, hnext⟩ := (expect_eq_ok_iff _ _ _ _ _).mp h
      cases hnext
      exact .pairColon hkind
  | value name =>
      by_cases hbrace : token.kind = .leftBrace ∨ token.kind = .rightBrace
      · simp [Pairs.step, hbrace] at h
      · obtain ⟨hleft, hright⟩ := not_or.mp hbrace
        match hadd : list.add name token with
        | .error fault => simp [Pairs.step, hbrace, hadd, Except.map] at h
        | .ok (added, told) =>
          simp only [Pairs.step, hbrace, hadd, Except.map, if_false] at h
          cases h
          exact .pairValue hleft hright hadd

/-- A block stays open by these moves and by no others. -/
theorem continues_iff (block next : OpenBlock) (token : Token) :
    (∃ records, block.step token = .ok (.more next records)) ↔ Continues block token next := by
  constructor
  · rintro ⟨records, h⟩
    cases block with
    | opening kind =>
        obtain ⟨hkind, hnext⟩ := (expect_eq_ok_iff _ _ _ _ _).mp h
        cases hnext
        exact .opening hkind rfl
    | pairs list stage => exact continues_of_pairs_step h
    | elements done =>
        by_cases hright : token.kind = .rightBrace
        · simp [OpenBlock.step, hright] at h
        · simp only [OpenBlock.step, hright, if_false, expect_eq_ok_iff] at h
          obtain ⟨hkind, hnext⟩ := h
          cases hnext
          exact .elementName hkind
    | elementOpening done name =>
        obtain ⟨hkind, hnext⟩ := (expect_eq_ok_iff _ _ _ _ _).mp h
        cases hnext
        exact .elementOpening hkind
    | handlers done =>
        by_cases hright : token.kind = .rightBrace
        · -- A block of events is complete at its closing brace.
          simp only [OpenBlock.step, hright, if_true, keepFirst] at h
          split at h <;> cases h
        · simp only [OpenBlock.step, hright, if_false, expect_eq_ok_iff] at h
          obtain ⟨hkind, hnext⟩ := h
          cases hnext
          exact .handlerName hkind
    | handlerArrow done name =>
        obtain ⟨hkind, hnext⟩ := (expect_eq_ok_iff _ _ _ _ _).mp h
        cases hnext
        exact .handlerArrow hkind
    | handlerOpening done name =>
        obtain ⟨hkind, hnext⟩ := (expect_eq_ok_iff _ _ _ _ _).mp h
        cases hnext
        exact .handlerOpening hkind
    | statements done name depth words =>
        exact continues_of_stepStatements (Except.ok.inj h)
  · intro h
    cases h with
    | opening hkind hnext => exact ⟨[], (expect_eq_ok_iff _ _ _ _ _).mpr ⟨hkind, by rw [hnext]⟩⟩
    | pairName hkind => exact ⟨[], by simp [OpenBlock.step, Pairs.step, Token.expect, hkind]⟩
    | pairColon hkind => exact ⟨[], by simp [OpenBlock.step, Pairs.step, Token.expect, hkind]⟩
    | pairValue hleft hright hadd =>
        exact ⟨_, by simp [OpenBlock.step, Pairs.step, hleft, hright, hadd, Except.map]; rfl⟩
    | elementClosing hkind => exact ⟨[], by simp [OpenBlock.step, Pairs.step, Pairs.close, hkind]⟩
    | elementName hkind => exact ⟨[], by simp [OpenBlock.step, Token.expect, hkind]⟩
    | elementOpening hkind => exact ⟨[], by simp [OpenBlock.step, Token.expect, hkind]⟩
    | handlerName hkind => exact ⟨[], by simp [OpenBlock.step, Token.expect, hkind]⟩
    | handlerArrow hkind => exact ⟨[], by simp [OpenBlock.step, Token.expect, hkind]⟩
    | handlerOpening hkind => exact ⟨[], by simp [OpenBlock.step, Token.expect, hkind]⟩
    | word hleft hright => exact ⟨[], by simp [OpenBlock.step, stepStatements, hleft, hright]⟩
    | innerOpening hkind => exact ⟨[], by simp [OpenBlock.step, stepStatements, hkind]⟩
    | innerClosing hkind => exact ⟨[], by simp [OpenBlock.step, stepStatements, hkind]⟩
    | bodyClosing hkind => exact ⟨[], by simp [OpenBlock.step, stepStatements, hkind]⟩

/-- A block is complete at a closing brace only. -/
theorem step_ne_done {token : Token} (hopen : token.kind ≠ .rightBrace) (block : OpenBlock)
    (result : Option Block) (records : List Record) :
    block.step token ≠ .ok (.done result records) := by
  intro h
  have hexpect {kind : TokenKind} {wanted : Expectation} {next : OpenBlock} :
      token.expect kind wanted (BlockStep.more next []) ≠ .ok (.done result records) := by
    rw [Ne, expect_eq_ok_iff]
    rintro ⟨-, hnext⟩
    cases hnext
  cases block with
  | opening | elementOpening | handlerArrow | handlerOpening => exact hexpect h
  | elements | handlers =>
      simp only [OpenBlock.step, hopen, if_false] at h
      exact hexpect h
  | pairs list stage =>
      cases stage with
      | name =>
          simp only [OpenBlock.step, Pairs.step, hopen, if_false] at h
          exact hexpect h
      | colon => exact hexpect h
      | value name =>
          simp only [OpenBlock.step, Pairs.step] at h
          split at h
          · cases h
          · cases hadd : list.add name token <;> simp [hadd, Except.map] at h
  | statements done name depth words =>
      simp only [OpenBlock.step, stepStatements, hopen, if_false, Except.ok.injEq] at h
      split at h <;> cases h

end Grammar
end SiteCompiler
