import SiteCompiler.Program.Parse

/-!
# Places are only carried along

No step of the reader looks at a place.  So a reading of the same tokens at
other places goes the same way, and its errors are the same at the other places.

* `step_map` - one token under other names for the places.
* `run_map` - a whole reading under other names for the places.
-/

namespace SiteCompiler

variable {π ρ : Type}

/-- The same draft under another name for the place of its name. -/
def Draft.map (f : π → ρ) (draft : Draft π) : Draft ρ :=
  ⟨draft.name, f draft.place, draft.blocks⟩

/-- The same mode under another name for its place. -/
def Mode.map (f : π → ρ) : Mode π → Mode ρ
  | .outside => .outside
  | .naming => .naming
  | .opening draft => .opening (draft.map f)
  | .between draft => .between (draft.map f)
  | .within draft block => .within (draft.map f) block

/-- The same progress under another name for its place. -/
def Progress.map (f : π → ρ) (progress : Progress π) : Progress ρ :=
  ⟨progress.components, progress.mode.map f⟩

/-- The same refusal under another name for the place that it blames. -/
def Refusal.map (f : π → ρ) (refusal : Refusal π) : Refusal ρ :=
  ⟨refusal.error.map f, refusal.consumed⟩

/-- The same outcome under other names for its places. -/
def Outcome.map (f : π → ρ) (outcome : Outcome π) : Outcome ρ :=
  ⟨outcome.result.mapError (ParseError.map f), outcome.rest.map (Placed.map f), outcome.records⟩

theorem mapError_ok {ε δ α : Type} (f : ε → δ) (value : α) :
    (Except.ok value : Except ε α).mapError f = .ok value := rfl

theorem mapError_error {ε δ α : Type} (f : ε → δ) (error : ε) :
    (Except.error error : Except ε α).mapError f = .error (f error) := rfl

namespace Progress

/-- A refused step is the same refusal elsewhere, and any other step leads to the same progress. -/
theorem step_map (f : π → ρ) (progress : Progress π) (placed : Placed π) :
    (progress.map f).step (placed.map f) =
      match progress.step placed with
      | .error refusal => .error (refusal.map f)
      | .ok (next, records) => .ok (next.map f, records) := by
  obtain ⟨components, mode⟩ := progress
  cases mode with
  | outside =>
      by_cases hkind : placed.token.kind = .component <;>
        simp [step, map, Mode.map, moveTo, hkind]
  | naming =>
      by_cases hkind : placed.token.kind = .identifier
      · by_cases hname : isComponentName placed.token.lexeme = true <;>
          simp [step, map, Mode.map, moveTo, Draft.map, Refusal.map, ParseError.map, hkind, hname]
      · simp [step, map, Mode.map, Placed.refuse, Refusal.map, ParseError.map, hkind]
  | opening draft =>
      by_cases hkind : placed.token.kind = .leftBrace
      · simp [step, map, Mode.map, moveTo, hkind]
      · simp [step, map, Mode.map, Placed.refuse, Refusal.map, ParseError.map, hkind]
  | between draft =>
      by_cases hkind : placed.token.kind = .rightBrace
      · -- The error blames the name of the draft, whose place is mapped with the draft.
        by_cases hname : components.any (fun component => component.name = draft.name) = true
        · simp only [step, map, Mode.map, accept, Placed.map_token, Draft.map, Refusal.map,
            ParseError.map, hkind, hname, if_true]
        · simp only [step, map, Mode.map, accept, Placed.map_token, Draft.map, hkind, hname,
            if_true]
          rfl
      · cases hblock : placed.token.kind.block? with
        | none => simp [step, map, Mode.map, Draft.map, hkind, hblock]
        | some kind =>
            have hrefuses : (draft.map f).refuses kind = draft.refuses kind := rfl
            by_cases hrefused : draft.refuses kind = true <;>
              simp [step, map, Mode.map, moveTo, Placed.refuse, Refusal.map, ParseError.map,
                hkind, hblock, hrefuses, hrefused]
  | within draft block =>
      cases hstep : block.step placed.token with
      | error fault =>
          simp [step, map, Mode.map, Placed.refuse, Refusal.map, ParseError.map, hstep]
      | ok found =>
          cases found <;> simp [step, map, Mode.map, moveTo, Draft.map, Draft.add, hstep]

/-- A reading of the same tokens at other places has the same outcome at these places. -/
theorem run_map (f : π → ρ) (finish : π) (progress : Progress π) (tokens : List (Placed π)) :
    (progress.map f).run (f finish) (tokens.map (Placed.map f)) =
      (progress.run finish tokens).map f := by
  induction tokens generalizing progress with
  | nil =>
      obtain ⟨components, mode⟩ := progress
      cases mode <;> rfl
  | cons placed tokens ih =>
      simp only [List.map_cons, run, step_map]
      cases progress.step placed with
      | error refusal =>
          cases hconsumed : refusal.consumed <;>
            simp [Outcome.map, mapError_error, Refusal.map, hconsumed]
      | ok found =>
          obtain ⟨next, records⟩ := found
          simp only [ih]
          rfl

end Progress

end SiteCompiler
