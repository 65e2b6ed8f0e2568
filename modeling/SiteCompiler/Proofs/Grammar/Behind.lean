import SiteCompiler.Proofs.Grammar.Steps

/-!
# Reading on behind other components

All that a reading keeps of the components before it are their names, and it
looks at them only when a component is closed.  So the tokens of a program can
be read behind other components, up to the first name that these have already.

* `Moves.behind`, `Leads.behind` - the same moves behind other components.
* `run_behind_of_new` - a program whose names are new is read behind them.
* `exists_run_behind_eq` - a program is refused at the first name that is not.
-/

namespace SiteCompiler

variable {π : Type}

/-- The same progress with other components in front. -/
def Progress.behind (earlier : List Component) (progress : Progress π) : Progress π :=
  ⟨earlier ++ progress.components, progress.mode⟩

namespace Grammar

/-- The names of the components. -/
def names (components : List Component) : List String :=
  components.map Component.name

/-- No component of the second list has the name of a component of the first. -/
def NewBehind (earlier components : List Component) : Prop :=
  ∀ component ∈ components, component.name ∉ names earlier

theorem Moves.components_subset {progress next : Progress π} {placed : Placed π}
    {records : List Record} (h : Moves progress placed next records) :
    progress.components ⊆ next.components := by
  rcases h.components_eq with heq | ⟨draft, -, -, heq⟩
  · rw [heq]
    exact List.Subset.refl _
  · rw [heq]
    exact List.subset_append_left _ _

theorem Moves.behind {earlier : List Component} {progress next : Progress π}
    {placed : Placed π} {records : List Record} (h : Moves progress placed next records)
    (hnew : NewBehind earlier next.components) :
    Moves (progress.behind earlier) placed (next.behind earlier) records := by
  cases h with
  | skipOutside hkind => exact .skipOutside hkind
  | keyword hkind => exact .keyword hkind
  | name hkind hname => exact .name hkind hname
  | opening hkind => exact .opening hkind
  | @closing components draft _ hkind hname =>
      -- The only move that looks at the components before it.
      have hdraft : draft.name ∉ names earlier := hnew ⟨draft.name, draft.blocks⟩ (by simp)
      have hall : draft.name ∉ (earlier ++ components).map Component.name := by
        rw [List.map_append, List.mem_append]
        exact not_or.mpr ⟨hdraft, hname⟩
      unfold Progress.behind
      rw [← List.append_assoc]
      exact .closing hkind hall
  | skipInside hkind hblock => exact .skipInside hkind hblock
  | block hblock hrefuses => exact .block hblock hrefuses
  | more hstep => exact .more hstep
  | done hstep => exact .done hstep

theorem Leads.behind {earlier : List Component} {origin progress : Progress π}
    {tokens : List (Placed π)} {records : List Record}
    (h : Leads origin tokens progress records)
    (hnew : NewBehind earlier progress.components) :
    Leads (origin.behind earlier) tokens (progress.behind earlier) records := by
  induction h with
  | nil => exact .nil
  | snoc _ hmove ih =>
      have hbefore := ih fun component hmem => hnew component (hmove.components_subset hmem)
      exact hbefore.snoc (hmove.behind hnew)

theorem behind_start (earlier : List Component) :
    (Progress.start : Progress π).behind earlier = ⟨earlier, .outside⟩ := by
  simp [Progress.behind, Progress.start]

section Run

variable {earlier : List Component} {tokens : List (Placed π)} {finish : π} {program : Program}

/-- A program whose names are all new is read behind other components. -/
theorem run_behind_of_new (h : (Progress.start.run finish tokens).result = .ok program)
    (hnew : NewBehind earlier program.components) :
    ((⟨earlier, .outside⟩ : Progress π).run finish tokens).result =
      .ok ⟨earlier ++ program.components⟩ := by
  obtain ⟨records, hleads⟩ := exists_leads_of_run h
  have hbehind := hleads.behind hnew
  rw [behind_start] at hbehind
  have hrun := run_append hbehind finish []
  rw [List.append_nil] at hrun
  rw [hrun]
  rfl

/-- A program is refused behind other components if one of them has the name of one of its own.
The error blames the first such name, where it stands behind its keyword. -/
theorem exists_run_behind_eq (h : (Progress.start.run finish tokens).result = .ok program)
    {before after : List Component} {component : Component}
    (hcomponents : program.components = before ++ component :: after)
    (hbefore : NewBehind earlier before) (hname : component.name ∈ names earlier) :
    ∃ front keyword name back, tokens = front ++ keyword :: name :: back ∧
      (Progress.start.run finish front).result = .ok ⟨before⟩ ∧
      keyword.token.kind = .component ∧ name.token = ⟨.identifier, component.name⟩ ∧
      ((⟨earlier, .outside⟩ : Progress π).run finish tokens).result =
        .error ⟨.duplicateComponent component.name, name.place⟩ := by
  obtain ⟨records, hleads⟩ := exists_leads_of_run h
  obtain ⟨inside, closing, rest, draft, told, rfl, hinside, hclosing, rfl⟩ :=
    hleads.exists_closing hcomponents (Nat.zero_le _)
  obtain ⟨front, keyword, name, back, told, rfl, hfront, hkeyword, htoken, hplace⟩ :=
    hinside.exists_name rfl
  refine ⟨front, keyword, name, back ++ closing :: rest, by simp, ?_, hkeyword, htoken, ?_⟩
  · have hrun := run_append hfront finish []
    rw [List.append_nil] at hrun
    rw [hrun]
    rfl
  · have hbehind := hinside.behind hbefore
    rw [behind_start] at hbehind
    have hany : ((earlier ++ before).any fun other => other.name = draft.name) = true := by
      obtain ⟨other, hother, heq⟩ := List.mem_map.mp hname
      exact List.any_eq_true.mpr ⟨other, List.mem_append_left _ hother, by simpa using heq⟩
    rw [run_append hbehind]
    simp [Progress.behind, Progress.run, Progress.step, Progress.accept, hclosing, hany, hplace]

end Run

end Grammar
end SiteCompiler
