import SiteCompiler.Program.Parse

/-!
# Steps of a reading

Every step of the reader that is not refused is one of nine moves, and a reading
that has come somewhere is a sequence of moves.  What is known of a reading
elsewhere follows from the moves alone.

* `Moves`, `step_eq_ok_iff` - the moves, and that the reader makes no other step.
* `Leads` - the tokens that lead a reader from one progress to another.
* `run_append`, `exists_leads_of_run`, `Leads.exists_first` - a reading begins with
  the moves it makes.
* `Leads.exists_closing` - every component was accepted at a closing brace.
* `Leads.exists_name` - the name of the component that is being read.
-/

namespace SiteCompiler
namespace Grammar

variable {π : Type}

/-! ## Moves -/

/-- What one token makes of a reading that goes on, and what is told of it. -/
inductive Moves : Progress π → Placed π → Progress π → List Record → Prop
  | skipOutside {components : List Component} {placed : Placed π} :
      placed.token.kind ≠ .component →
        Moves ⟨components, .outside⟩ placed ⟨components, .outside⟩ [.skippedOutside placed.token]
  | keyword {components : List Component} {placed : Placed π} :
      placed.token.kind = .component →
        Moves ⟨components, .outside⟩ placed ⟨components, .naming⟩ []
  | name {components : List Component} {placed : Placed π} :
      placed.token.kind = .identifier → isComponentName placed.token.lexeme = true →
        Moves ⟨components, .naming⟩ placed
          ⟨components, .opening ⟨placed.token.lexeme, placed.place, []⟩⟩ []
  | opening {components : List Component} {draft : Draft π} {placed : Placed π} :
      placed.token.kind = .leftBrace →
        Moves ⟨components, .opening draft⟩ placed ⟨components, .between draft⟩ []
  /-- The closing brace of a component whose name is new. -/
  | closing {components : List Component} {draft : Draft π} {placed : Placed π} :
      placed.token.kind = .rightBrace → draft.name ∉ components.map Component.name →
        Moves ⟨components, .between draft⟩ placed
          ⟨components ++ [⟨draft.name, draft.blocks⟩], .outside⟩
          [.parsedComponent draft.name draft.blocks.length]
  | skipInside {components : List Component} {draft : Draft π} {placed : Placed π} :
      placed.token.kind ≠ .rightBrace → placed.token.kind.block? = none →
        Moves ⟨components, .between draft⟩ placed ⟨components, .between draft⟩
          [.skippedInside placed.token draft.name]
  | block {components : List Component} {draft : Draft π} {placed : Placed π}
      {kind : BlockKind} :
      placed.token.kind.block? = some kind → draft.refuses kind = false →
        Moves ⟨components, .between draft⟩ placed ⟨components, .within draft (.opening kind)⟩ []
  | more {components : List Component} {draft : Draft π} {placed : Placed π}
      {block next : OpenBlock} {records : List Record} :
      block.step placed.token = .ok (.more next records) →
        Moves ⟨components, .within draft block⟩ placed ⟨components, .within draft next⟩ records
  | done {components : List Component} {draft : Draft π} {placed : Placed π}
      {block : OpenBlock} {result : Option Block} {records : List Record} :
      block.step placed.token = .ok (.done result records) →
        Moves ⟨components, .within draft block⟩ placed ⟨components, .between (draft.add result)⟩
          records

theorem any_name_eq_false_iff (components : List Component) (name : String) :
    (components.any fun component => component.name = name) = false ↔
      name ∉ components.map Component.name := by
  simp

theorem block?_rightBrace : TokenKind.rightBrace.block? = none := rfl

/-- The reader makes these moves and no others. -/
theorem step_eq_ok_iff (progress next : Progress π) (placed : Placed π) (records : List Record) :
    progress.step placed = .ok (next, records) ↔ Moves progress placed next records := by
  constructor
  · intro h
    obtain ⟨components, mode⟩ := progress
    cases mode with
    | outside =>
        by_cases hkind : placed.token.kind = .component
        · simp only [Progress.step, hkind, if_true] at h
          cases h
          exact .keyword hkind
        · simp only [Progress.step, hkind, if_false] at h
          cases h
          exact .skipOutside hkind
    | naming =>
        by_cases hkind : placed.token.kind = .identifier
        · by_cases hname : isComponentName placed.token.lexeme = true
          · simp only [Progress.step, hkind, hname, ne_eq, not_true, if_true, if_false] at h
            cases h
            exact .name hkind hname
          · simp [Progress.step, hkind, hname] at h
        · simp [Progress.step, Placed.refuse, hkind] at h
    | opening draft =>
        by_cases hkind : placed.token.kind = .leftBrace
        · simp only [Progress.step, hkind, if_true] at h
          cases h
          exact .opening hkind
        · simp [Progress.step, Placed.refuse, hkind] at h
    | between draft =>
        by_cases hkind : placed.token.kind = .rightBrace
        · cases hany : components.any fun component => component.name = draft.name with
          | true => simp [Progress.step, Progress.accept, hkind, hany] at h
          | false =>
              simp only [Progress.step, Progress.accept, hkind, hany, if_true] at h
              cases h
              exact .closing hkind ((any_name_eq_false_iff _ _).mp hany)
        · cases hblock : placed.token.kind.block? with
          | none =>
              simp only [Progress.step, hkind, hblock, if_false] at h
              cases h
              exact .skipInside hkind hblock
          | some kind =>
              cases hrefuses : draft.refuses kind with
              | true => simp [Progress.step, Placed.refuse, hkind, hblock, hrefuses] at h
              | false =>
                  simp only [Progress.step, hkind, hblock, hrefuses, if_false] at h
                  cases h
                  exact .block hblock hrefuses
    | within draft block =>
        match hstep : block.step placed.token with
        | .error fault => simp [Progress.step, Placed.refuse, hstep] at h
        | .ok (.more following told) =>
          simp only [Progress.step, hstep] at h
          cases h
          exact .more hstep
        | .ok (.done result told) =>
          simp only [Progress.step, hstep] at h
          cases h
          exact .done hstep
  · intro h
    cases h with
    | skipOutside hkind => simp [Progress.step, hkind]
    | keyword hkind => simp [Progress.step, Progress.moveTo, hkind]
    | name hkind hname => simp [Progress.step, Progress.moveTo, hkind, hname]
    | opening hkind => simp [Progress.step, Progress.moveTo, hkind]
    | closing hkind hname =>
        have hany := (any_name_eq_false_iff _ _).mpr hname
        simp [Progress.step, Progress.accept, hkind, hany]
    | skipInside hkind hblock => simp [Progress.step, hkind, hblock]
    | block hblock hrefuses =>
        have hkind : placed.token.kind ≠ .rightBrace := by
          intro heq
          rw [heq, block?_rightBrace] at hblock
          cases hblock
        simp [Progress.step, Progress.moveTo, hkind, hblock, hrefuses]
    | more hstep => simp [Progress.step, Progress.moveTo, hstep]
    | done hstep => simp [Progress.step, Progress.moveTo, hstep]

/-- A move leaves the components that were read, or adds the one that it closes. -/
theorem Moves.components_eq {progress next : Progress π} {placed : Placed π}
    {records : List Record} (h : Moves progress placed next records) :
    next.components = progress.components ∨
      ∃ draft, progress.mode = .between draft ∧ placed.token.kind = .rightBrace ∧
        next.components = progress.components ++ [⟨draft.name, draft.blocks⟩] := by
  cases h with
  | closing hkind _ => exact .inr ⟨_, rfl, hkind, rfl⟩
  | _ => exact .inl rfl

/-! ## Sequences of moves -/

/-- The tokens lead a reader from the origin to the progress, and these are the records of it. -/
inductive Leads (origin : Progress π) : List (Placed π) → Progress π → List Record → Prop
  | nil : Leads origin [] origin []
  | snoc {tokens : List (Placed π)} {placed : Placed π} {progress next : Progress π}
      {records told : List Record} :
      Leads origin tokens progress records → Moves progress placed next told →
        Leads origin (tokens ++ [placed]) next (records ++ told)

theorem Leads.eq_of_nil {origin progress : Progress π} {records : List Record}
    (h : Leads origin [] progress records) : progress = origin := by
  generalize hall : ([] : List (Placed π)) = all at h
  cases h with
  | nil => rfl
  | snoc => simp at hall

/-- A reading begins with the move that it makes at its first token. -/
theorem Leads.exists_first {origin progress : Progress π} {placed : Placed π}
    {tokens : List (Placed π)} {records : List Record}
    (h : Leads origin (placed :: tokens) progress records) :
    ∃ next told rest, Moves origin placed next told ∧ Leads next tokens progress rest := by
  generalize hall : placed :: tokens = all at h
  induction h generalizing tokens with
  | nil => cases hall
  | @snoc before last reached next rest told hleads hmove ih =>
      cases before with
      | nil =>
          cases hall
          rw [hleads.eq_of_nil] at hmove
          exact ⟨next, told, [], hmove, .nil⟩
      | cons first before =>
          cases hall
          obtain ⟨second, earlier, later, hfirst, hrest⟩ := ih rfl
          exact ⟨second, earlier, _, hfirst, hrest.snoc hmove⟩

/-- A reading that has come somewhere goes on from there. -/
theorem run_append {origin progress : Progress π} {tokens : List (Placed π)}
    {records : List Record} (h : Leads origin tokens progress records) (finish : π)
    (rest : List (Placed π)) :
    origin.run finish (tokens ++ rest) =
      ⟨(progress.run finish rest).result, (progress.run finish rest).rest,
        records ++ (progress.run finish rest).records⟩ := by
  induction h generalizing rest with
  | nil => rfl
  | @snoc tokens placed progress next records told _ hmove ih =>
      have hstep := (step_eq_ok_iff _ _ _ _).mpr hmove
      rw [List.append_assoc, ih]
      simp only [List.singleton_append, Progress.run, hstep, List.append_assoc]

theorem conclude_eq_ok_iff (progress : Progress π) (finish : π) (program : Program) :
    progress.conclude finish = .ok program ↔ progress = ⟨program.components, .outside⟩ := by
  obtain ⟨components, mode⟩ := progress
  obtain ⟨others⟩ := program
  cases mode <;> simp [Progress.conclude, Progress.wanted?]

theorem exists_leads_of_run_append {origin progress : Progress π} {before tokens : List (Placed π)}
    {records : List Record} (hbefore : Leads origin before progress records) {finish : π}
    {program : Program} (h : (progress.run finish tokens).result = .ok program) :
    ∃ told, Leads origin (before ++ tokens) ⟨program.components, .outside⟩ told := by
  induction tokens generalizing before progress records with
  | nil =>
      have hend := (conclude_eq_ok_iff _ _ _).mp h
      rw [List.append_nil, ← hend]
      exact ⟨records, hbefore⟩
  | cons placed tokens ih =>
      match hstep : progress.step placed with
      | .error refusal => simp [Progress.run, hstep] at h
      | .ok (next, told) =>
        simp only [Progress.run, hstep] at h
        have hmove := (step_eq_ok_iff _ _ _ _).mp hstep
        have hall := ih (hbefore.snoc hmove) h
        rwa [List.append_assoc, List.singleton_append] at hall

/-- A reading that ends in a program has come to its end between components. -/
theorem exists_leads_of_run {origin : Progress π} {tokens : List (Placed π)} {finish : π}
    {program : Program} (h : (origin.run finish tokens).result = .ok program) :
    ∃ records, Leads origin tokens ⟨program.components, .outside⟩ records :=
  exists_leads_of_run_append .nil h

/-- Every component that a reading has added was accepted at a closing brace. -/
theorem Leads.exists_closing {origin progress : Progress π} {tokens : List (Placed π)}
    {records : List Record} (h : Leads origin tokens progress records)
    {before after : List Component} {component : Component}
    (hcomponents : progress.components = before ++ component :: after)
    (horigin : origin.components.length ≤ before.length) :
    ∃ front closing back draft told, tokens = front ++ closing :: back ∧
      Leads origin front ⟨before, .between draft⟩ told ∧ closing.token.kind = .rightBrace ∧
      component = ⟨draft.name, draft.blocks⟩ := by
  induction h generalizing after with
  | nil =>
      rw [hcomponents, List.length_append, List.length_cons] at horigin
      omega
  | @snoc tokens placed progress next records told hleads hmove ih =>
      rcases hmove.components_eq with hsame | ⟨draft, hmode, hkind, hadded⟩
      · rw [hsame] at hcomponents
        obtain ⟨front, closing, back, draft, told, rfl, hrest⟩ := ih hcomponents
        exact ⟨front, closing, back ++ [placed], draft, told, by simp, hrest⟩
      · rw [hadded] at hcomponents
        -- The component is the one that is added now, or it was there before.
        rcases List.eq_nil_or_concat after with rfl | ⟨others, last, rfl⟩
        · obtain ⟨hbefore, hlast⟩ := List.append_inj' hcomponents rfl
          obtain ⟨components, mode⟩ := progress
          cases hmode
          cases hbefore
          exact ⟨tokens, placed, [], draft, records, rfl, hleads, hkind, by simpa using hlast.symm⟩
        · rw [List.concat_eq_append, ← List.cons_append, ← List.append_assoc] at hcomponents
          obtain ⟨hbefore, -⟩ := List.append_inj' hcomponents rfl
          obtain ⟨front, closing, back, draft, told, rfl, hrest⟩ := ih hbefore
          exact ⟨front, closing, back ++ [placed], draft, told, by simp, hrest⟩

/-! ## The component that is being read -/

/-- The component that is being read, once it has a name. -/
def draft? : Mode π → Option (Draft π)
  | .outside | .naming => none
  | .opening draft | .between draft | .within draft _ => some draft

theorem Leads.exists_keyword {tokens : List (Placed π)} {components : List Component}
    {records : List Record} (h : Leads .start tokens ⟨components, .naming⟩ records) :
    ∃ front keyword told, tokens = front ++ [keyword] ∧ keyword.token.kind = .component ∧
      Leads .start front ⟨components, .outside⟩ told := by
  generalize hprogress : (⟨components, .naming⟩ : Progress π) = progress at h
  cases h with
  | nil => cases hprogress
  | snoc hleads hmove =>
      subst hprogress
      cases hmove with
      | keyword hkind => exact ⟨_, _, _, rfl, hkind, hleads⟩

/-- The name of the component that is being read stands behind a keyword, and the keyword behind
the components before. -/
theorem Leads.exists_name {tokens : List (Placed π)} {progress : Progress π}
    {records : List Record} (h : Leads .start tokens progress records) {draft : Draft π}
    (hdraft : draft? progress.mode = some draft) :
    ∃ front keyword name back told, tokens = front ++ keyword :: name :: back ∧
      Leads .start front ⟨progress.components, .outside⟩ told ∧
      keyword.token.kind = .component ∧ name.token = ⟨.identifier, draft.name⟩ ∧
      name.place = draft.place := by
  induction h generalizing draft with
  | nil => cases hdraft
  | @snoc tokens placed progress next records told hleads hmove ih =>
      -- A draft keeps its name and its place as long as it is being read.
      have hkept {older : Draft π} (holder : draft? progress.mode = some older)
          (hcomponents : next.components = progress.components)
          (hname : draft.name = older.name) (hplace : draft.place = older.place) :
          ∃ front keyword name back told, tokens ++ [placed] = front ++ keyword :: name :: back ∧
            Leads .start front ⟨next.components, .outside⟩ told ∧
            keyword.token.kind = .component ∧ name.token = ⟨.identifier, draft.name⟩ ∧
            name.place = draft.place := by
        obtain ⟨front, keyword, name, back, told, rfl, hrest⟩ := ih holder
        rw [hcomponents, hname, hplace]
        exact ⟨front, keyword, name, back ++ [placed], told, by simp, hrest⟩
      cases hmove with
      | skipOutside | keyword | closing => cases hdraft
      | name hkind _ =>
          cases hdraft
          obtain ⟨front, keyword, told, rfl, hkeyword, hfront⟩ := hleads.exists_keyword
          exact ⟨front, keyword, placed, [], told, by simp, hfront, hkeyword, by rw [← hkind], rfl⟩
      | opening | skipInside | block | more | done =>
          cases hdraft
          exact hkept rfl rfl rfl rfl

end Grammar
end SiteCompiler
