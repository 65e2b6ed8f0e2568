import SiteCompiler.Proofs.Grammar.Causes
import SiteCompiler.Proofs.Grammar.Steps

/-!
# Refusals of a reading

The steps that a reader refuses, beside the moves that it makes, and the token that
a refused reading blames.

* `Refuses`, `step_eq_error_iff` - the refusals of one step, and that there are no
  others.
* `Blames`, `run_eq_error_iff_blames` - what a refused reading blames: the token at
  which it stops, or the name of a component that is there already.
* `Blames.place_mem`, `Blames.ofTokens` - the blame falls on a token of the reading or
  on its end, and never on the scanner.
-/

namespace SiteCompiler
namespace Grammar

variable {π : Type}

/-! ## One step -/

/-- What one token makes of a reading that does not go on. -/
inductive Refuses : Progress π → Placed π → Refusal π → Prop
  | naming {components : List Component} {placed : Placed π} :
      placed.token.kind ≠ .identifier →
        Refuses ⟨components, .naming⟩ placed
          ⟨⟨.expected .componentName (some placed.token), placed.place⟩, false⟩
  | invalidName {components : List Component} {placed : Placed π} :
      placed.token.kind = .identifier → isComponentName placed.token.lexeme = false →
        Refuses ⟨components, .naming⟩ placed
          ⟨⟨.invalidName placed.token.lexeme, placed.place⟩, true⟩
  | opening {components : List Component} {draft : Draft π} {placed : Placed π} :
      placed.token.kind ≠ .leftBrace →
        Refuses ⟨components, .opening draft⟩ placed
          ⟨⟨.expected .componentOpening (some placed.token), placed.place⟩, false⟩
  /-- The closing brace of a component whose name an earlier one has. -/
  | repeated {components : List Component} {draft : Draft π} {placed : Placed π} :
      placed.token.kind = .rightBrace → draft.name ∈ components.map Component.name →
        Refuses ⟨components, .between draft⟩ placed
          ⟨⟨.duplicateComponent draft.name, draft.place⟩, true⟩
  | twice {components : List Component} {draft : Draft π} {placed : Placed π}
      {kind : BlockKind} :
      placed.token.kind.block? = some kind → draft.refuses kind = true →
        Refuses ⟨components, .between draft⟩ placed
          ⟨⟨.duplicateBlock kind, placed.place⟩, false⟩
  | inside {components : List Component} {draft : Draft π} {placed : Placed π}
      {block : OpenBlock} {fault : ParseFault} :
      block.step placed.token = .error fault →
        Refuses ⟨components, .within draft block⟩ placed ⟨⟨fault, placed.place⟩, false⟩

theorem any_name_eq_true_iff (components : List Component) (name : String) :
    (components.any fun component => component.name = name) = true ↔
      name ∈ components.map Component.name := by
  simp

/-- The reader has these refusals and no others. -/
theorem step_eq_error_iff (progress : Progress π) (placed : Placed π) (refusal : Refusal π) :
    progress.step placed = .error refusal ↔ Refuses progress placed refusal := by
  constructor
  · intro h
    obtain ⟨components, mode⟩ := progress
    cases mode with
    | outside =>
        by_cases hkind : placed.token.kind = .component
        · simp [Progress.step, hkind] at h
        · simp [Progress.step, hkind] at h
    | naming =>
        by_cases hkind : placed.token.kind = .identifier
        · cases hname : isComponentName placed.token.lexeme with
          | true => simp [Progress.step, hkind, hname] at h
          | false =>
              simp [Progress.step, hkind, hname] at h
              subst h
              exact .invalidName hkind hname
        · simp only [Progress.step, ne_eq, hkind, not_false_iff, if_true] at h
          cases h
          exact .naming hkind
    | opening draft =>
        by_cases hkind : placed.token.kind = .leftBrace
        · simp [Progress.step, hkind] at h
        · simp only [Progress.step, hkind, if_false] at h
          cases h
          exact .opening hkind
    | between draft =>
        by_cases hkind : placed.token.kind = .rightBrace
        · cases hany : components.any fun component => component.name = draft.name with
          | true =>
              simp only [Progress.step, Progress.accept, hkind, hany, if_true] at h
              cases h
              exact .repeated hkind ((any_name_eq_true_iff _ _).mp hany)
          | false => simp [Progress.step, Progress.accept, hkind, hany] at h
        · cases hblock : placed.token.kind.block? with
          | none => simp [Progress.step, hkind, hblock] at h
          | some kind =>
              cases hrefuses : draft.refuses kind with
              | true =>
                  simp only [Progress.step, hkind, hblock, hrefuses, if_true, if_false] at h
                  cases h
                  exact .twice hblock hrefuses
              | false => simp [Progress.step, hkind, hblock, hrefuses] at h
    | within draft block =>
        rcases hstep : block.step placed.token with fault | ⟨following, told⟩ | ⟨result, told⟩
        · simp only [Progress.step, hstep] at h
          cases h
          exact .inside hstep
        · simp [Progress.step, hstep] at h
        · simp [Progress.step, hstep] at h
  · intro h
    cases h with
    | naming hkind => simp [Progress.step, Placed.refuse, hkind]
    | invalidName hkind hname => simp [Progress.step, hkind, hname]
    | opening hkind => simp [Progress.step, Placed.refuse, hkind]
    | repeated hkind hname =>
        have hany := (any_name_eq_true_iff _ _).mpr hname
        simp only [Progress.step, Progress.accept, hkind, hany, if_true]
    | twice hblock hrefuses =>
        have hkind : placed.token.kind ≠ .rightBrace := by
          intro heq
          rw [heq, block?_rightBrace] at hblock
          cases hblock
        simp [Progress.step, Placed.refuse, hkind, hblock, hrefuses]
    | inside hstep => simp [Progress.step, Placed.refuse, hstep]

theorem conclude_eq_error_iff (progress : Progress π) (finish : π) (error : ParseError π) :
    progress.conclude finish = .error error ↔
      ∃ expectation, progress.wanted? = some expectation ∧
        error = ⟨.expected expectation none, finish⟩ := by
  unfold Progress.conclude
  cases progress.wanted? with
  | none => simp
  | some expectation => simp [eq_comm]

/-! ## A whole reading -/

/-- A reading of the tokens from the start is refused for this cause, and the place is to blame. -/
inductive Blames (tokens : List (Placed π)) (finish : π) : ParseFault → π → Prop
  /-- The reader gets as far as a token and refuses it. -/
  | token {front back : List (Placed π)} {placed : Placed π} {progress : Progress π}
      {records : List Record} {fault : ParseFault} {consumed : Bool} :
      tokens = front ++ placed :: back → Leads .start front progress records →
        Refuses progress placed ⟨⟨fault, placed.place⟩, consumed⟩ →
          (∀ name, fault ≠ .duplicateComponent name) → Blames tokens finish fault placed.place
  /-- The reader gets to the end, and something is missing there. -/
  | finish {progress : Progress π} {records : List Record} {expectation : Expectation} :
      Leads .start tokens progress records → progress.wanted? = some expectation →
        Blames tokens finish (.expected expectation none) finish
  /-- A component is closed that has the name of an earlier one.  The blame falls on its name, which
  stands behind its keyword, and the keyword behind the earlier components. -/
  | name {front inner back : List (Placed π)} {keyword word closing : Placed π}
      {components : List Component} {name : String} {blocks : List Block}
      {records told : List Record} :
      tokens = front ++ keyword :: word :: (inner ++ closing :: back) →
        Leads .start front ⟨components, .outside⟩ records → keyword.token.kind = .component →
          word.token = ⟨.identifier, name⟩ → name ∈ components.map Component.name →
            Leads .start (front ++ keyword :: word :: inner)
              ⟨components, .between ⟨name, word.place, blocks⟩⟩ told →
                closing.token.kind = .rightBrace →
                  Blames tokens finish (.duplicateComponent name) word.place

/-- A refused reading has got somewhere, and is refused there. -/
theorem exists_leads_of_run_error {origin progress : Progress π} {before tokens : List (Placed π)}
    {records : List Record} (hbefore : Leads origin before progress records) {finish : π}
    {error : ParseError π} (h : (progress.run finish tokens).result = .error error) :
    (∃ front placed back next told consumed, before ++ tokens = front ++ placed :: back ∧
        Leads origin front next told ∧ Refuses next placed ⟨error, consumed⟩) ∨
      ∃ next told, Leads origin (before ++ tokens) next told ∧
        next.conclude finish = .error error := by
  induction tokens generalizing before progress records with
  | nil =>
      rw [List.append_nil]
      exact .inr ⟨progress, records, hbefore, h⟩
  | cons placed tokens ih =>
      match hstep : progress.step placed with
      | .error refusal =>
        simp only [Progress.run, hstep] at h
        cases h
        exact .inl ⟨before, placed, tokens, progress, records, refusal.consumed, rfl, hbefore,
          (step_eq_error_iff _ _ _).mp hstep⟩
      | .ok (next, told) =>
        simp only [Progress.run, hstep] at h
        have hmove := (step_eq_ok_iff _ _ _ _).mp hstep
        have hall := ih (hbefore.snoc hmove) h
        rwa [List.append_assoc, List.singleton_append] at hall

/-- A name that is there already is only found at the closing brace of its component. -/
theorem Refuses.blames {front back : List (Placed π)} {placed : Placed π}
    {progress : Progress π} {records : List Record} {error : ParseError π} {consumed : Bool}
    (hleads : Leads .start front progress records)
    (h : Refuses progress placed ⟨error, consumed⟩) (finish : π) :
    Blames (front ++ placed :: back) finish error.fault error.place := by
  cases h with
  | naming hkind => exact .token rfl hleads (.naming hkind) (by simp)
  | invalidName hkind hname => exact .token rfl hleads (.invalidName hkind hname) (by simp)
  | opening hkind => exact .token rfl hleads (.opening hkind) (by simp)
  | @repeated components draft _ hkind hname =>
      obtain ⟨name, place, blocks⟩ := draft
      obtain ⟨before, keyword, word, inner, told, rfl, hbefore, hkeyword, hword, rfl⟩ :=
        hleads.exists_name rfl
      have htokens : before ++ keyword :: word :: inner ++ placed :: back =
          before ++ keyword :: word :: (inner ++ placed :: back) := by simp
      exact .name htokens hbefore hkeyword hword hname hleads hkind
  | twice hblock hrefuses => exact .token rfl hleads (.twice hblock hrefuses) (by simp)
  | inside hstep =>
      refine .token rfl hleads (.inside hstep) ?_
      rintro name rfl
      cases blamesToken_of_step hstep

/-- A reading of the tokens from the start is refused exactly for what is to blame. -/
theorem run_eq_error_iff_blames (tokens : List (Placed π)) (finish : π) (fault : ParseFault)
    (place : π) :
    (Progress.start.run finish tokens).result = .error ⟨fault, place⟩ ↔
      Blames tokens finish fault place := by
  constructor
  · intro h
    rcases exists_leads_of_run_error .nil h with
      ⟨front, placed, back, next, told, consumed, heq, hleads, hrefuses⟩ |
      ⟨next, told, hleads, hend⟩
    · rw [List.nil_append] at heq
      subst heq
      exact hrefuses.blames hleads finish
    · obtain ⟨expectation, hwanted, herror⟩ := (conclude_eq_error_iff _ _ _).mp hend
      cases herror
      exact .finish hleads hwanted
  · intro h
    cases h with
    | token heq hleads hrefuses _ =>
        have hstep := (step_eq_error_iff _ _ _).mpr hrefuses
        rw [heq, run_append hleads]
        simp only [Progress.run, hstep]
    | finish hleads hwanted =>
        have hrun := run_append hleads finish []
        rw [List.append_nil] at hrun
        rw [hrun]
        exact (conclude_eq_error_iff _ _ _).mpr ⟨_, hwanted, rfl⟩
    | @name _ _ _ _ word _ components name blocks _ _ heq _ _ _ hname hleads hclosing =>
        have hrefuses : Refuses ⟨components, .between ⟨name, word.place, blocks⟩⟩ _ _ :=
          .repeated hclosing hname
        have hstep := (step_eq_error_iff _ _ _).mpr hrefuses
        rw [← List.cons_append, ← List.cons_append, ← List.append_assoc] at heq
        rw [heq, run_append hleads]
        simp only [Progress.run, hstep]

/-- The blame falls on a token of the reading, or on its end. -/
theorem Blames.place_mem {tokens : List (Placed π)} {finish : π} {fault : ParseFault} {place : π}
    (h : Blames tokens finish fault place) : place ∈ tokens.map Placed.place ∨ place = finish := by
  cases h with
  | token heq => exact .inl (by simp [heq])
  | finish => exact .inr rfl
  | name heq => exact .inl (by simp [heq])

/-- What a reading is refused for lies in its tokens. -/
theorem Blames.ofTokens {tokens : List (Placed π)} {finish : π} {fault : ParseFault} {place : π}
    (h : Blames tokens finish fault place) : OfTokens fault := by
  rintro cause rfl
  cases h with
  | token _ _ hrefuses _ =>
      cases hrefuses with
      | inside hstep => exact (blamesToken_of_step hstep).ofTokens cause rfl

end Grammar
end SiteCompiler
