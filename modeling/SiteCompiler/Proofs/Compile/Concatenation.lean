import SiteCompiler.Proofs.Compile.Stages
import SiteCompiler.Proofs.Grammar.Behind
import SiteCompiler.Proofs.Image.Source
import SiteCompiler.Proofs.Lexical.Seam

/-!
# Compiling one source behind another

Two sources that compile by themselves compile together as well, with a line feed
between them, unless they name a component alike.

* `NamesNext` - where a source names the component behind some others.
* `parse_append` - what is read from the two sources together.
* `compile_append` - what is compiled from them.
-/

namespace SiteCompiler
namespace Concatenation

open Lexical Grammar Image Stages

/-- Behind the tokens of the components `earlier`, a keyword stands in the source, and the name
behind the keyword stands at this position. -/
def NamesNext (source : String) (earlier : List Component) (name : String)
    (position : Position) : Prop :=
  ∃ front keyword word back, scan source = .ok (front ++ keyword :: word :: back) ∧
    Derives (front.map Placed.token) ⟨earlier⟩ ∧ keyword.token.kind = .component ∧
    word.token = ⟨.identifier, name⟩ ∧ word.place.position = position

/-! ## The two sources together -/

/-- The tokens of two texts with a line feed between them. -/
theorem scanned_append {first second : List Char} {body others : List (Placed Span)}
    {finish last : Span} (hfirst : Scanned first body finish)
    (hsecond : Scanned second others last) :
    Scanned (first ++ '\n' :: second)
      (body ++ others.map (Placed.map (Span.behind first))) (last.behind first) := by
  constructor
  · rw [scanText_append hfirst.scan, hsecond.scan]
    simp [Placed.map]
  · intro placed hplaced
    rcases List.mem_append.mp hplaced with hplaced | hplaced
    · exact hfirst.body placed hplaced
    · obtain ⟨other, hother, rfl⟩ := List.mem_map.mp hplaced
      exact hsecond.body other hother

theorem map_token_map {π ρ : Type} (f : π → ρ) (tokens : List (Placed π)) :
    (tokens.map (Placed.map f)).map Placed.token = tokens.map Placed.token := by
  simp [Function.comp_def]

section Append

variable {first second : String} {program other : Program}

/-- Behind a source that is a program, the next source is read behind its components. -/
theorem parse_append (hfirst : Program.parse first = .ok program)
    {others : List (Placed Span)} {last : Span} (hsecond : Scanned second.toList others last) :
    Program.parse (first ++ "\n" ++ second) =
      ((⟨program.components, .outside⟩ : Progress Span).run (last.behind first.toList)
        (others.map (Placed.map (Span.behind first.toList)))).result.mapError
          (ParseError.map Span.position) := by
  obtain ⟨body, finish, hscanned, hrun⟩ := exists_run_of_parse hfirst
  obtain ⟨records, hleads⟩ := exists_leads_of_run hrun
  have htext : (first ++ "\n" ++ second).toList = first.toList ++ '\n' :: second.toList := by
    simp
  have hboth := scanned_append hscanned hsecond
  rw [← htext] at hboth
  rw [parse_of_scanned hboth, run_append hleads]

/-- Both programs are read, one behind the other, if all names of the second are new. -/
theorem parse_append_of_new (hfirst : Program.parse first = .ok program)
    (hsecond : Program.parse second = .ok other)
    (hnew : NewBehind program.components other.components) :
    Program.parse (first ++ "\n" ++ second) =
      .ok ⟨program.components ++ other.components⟩ := by
  obtain ⟨others, last, hscanned, hrun⟩ := exists_run_of_parse hsecond
  have hshifted := congrArg Outcome.result
    (Progress.run_map (Span.behind first.toList) last .start others)
  have hsame := run_behind_of_new (hshifted.trans ((mapError_eq_ok_iff _ _ _).mpr hrun)) hnew
  rw [parse_append hfirst hscanned, hsame]
  rfl

/-- The first name of the second program that is not new is blamed, where it stands behind the
first source. -/
theorem exists_parse_append_eq (hfirst : Program.parse first = .ok program)
    (hsecond : Program.parse second = .ok other)
    {before after : List Component} {component : Component}
    (hcomponents : other.components = before ++ component :: after)
    (hbefore : NewBehind program.components before)
    (hname : component.name ∈ names program.components) :
    ∃ position, NamesNext second before component.name position ∧
      Program.parse (first ++ "\n" ++ second) =
        .error ⟨.duplicateComponent component.name,
          position.behind first.toList⟩ := by
  obtain ⟨others, last, hscanned, hrun⟩ := exists_run_of_parse hsecond
  have hshifted := congrArg Outcome.result
    (Progress.run_map (Span.behind first.toList) last .start others)
  obtain ⟨front, keyword, word, back, heq, hfront, hkeyword, hword, hresult⟩ :=
    exists_run_behind_eq (hshifted.trans ((mapError_eq_ok_iff _ _ _).mpr hrun)) hcomponents
      hbefore hname
  -- The tokens that were found stand in the second source too, further up.
  obtain ⟨front, rest, rfl, rfl, hkeywords⟩ := List.map_eq_append_iff.mp heq
  obtain ⟨keyword, words, rfl, rfl, hwords⟩ := List.map_eq_cons_iff.mp hkeywords
  obtain ⟨word, back, rfl, rfl, rfl⟩ := List.map_eq_cons_iff.mp hwords
  have hscan : scan second = .ok (front ++ keyword :: word :: (back ++ [⟨.finish, last⟩])) := by
    have hplaced := hscanned.scan
    rwa [List.append_assoc] at hplaced
  have hquoted : AllQuoted (front.map Placed.token) := by
    have hall := quoted_of_scanned hscanned
    rw [List.map_append, allQuoted_append] at hall
    exact hall.1
  have hfrontAccepted := (run_eq_ok_iff_accepts _ .start _ _).mp hfront
  rw [map_token_map] at hfrontAccepted
  refine ⟨word.place.position, ⟨front, keyword, word, back ++ [⟨.finish, last⟩], hscan,
    (accepts_start_iff hquoted _).mp hfrontAccepted, hkeyword, hword, rfl⟩, ?_⟩
  rw [parse_append hfirst hscanned, hresult]
  rfl

end Append

/-! ## Compiled together -/

/-- The components in front of the first whose name is not new, and that component. -/
theorem exists_first_of_not_new {earlier components : List Component}
    (h : ∃ component ∈ components, component.name ∈ names earlier) :
    ∃ before component after, components = before ++ component :: after ∧
      NewBehind earlier before ∧ component.name ∈ names earlier := by
  obtain ⟨found, hfound⟩ : ∃ found,
      components.find? (fun component => decide (component.name ∈ names earlier)) = some found := by
    rw [← Option.isSome_iff_exists, List.find?_isSome]
    simpa using h
  obtain ⟨hname, before, after, hcomponents, hbefore⟩ := List.find?_eq_some_iff_append.mp hfound
  refine ⟨before, found, after, hcomponents, ?_, by simpa using hname⟩
  intro component hcomponent
  simpa using hbefore component hcomponent

/-- Two sources that compile, with a line feed between them, compile to the components of the one
and of the other if no name stands in both.  Otherwise the first name of the second source that
stands in the first is a duplicate, and the error blames it where it stands behind the first. -/
theorem compile_append {first second : String} {site other : Site}
    (hfirst : compile first = .ok site) (hsecond : compile second = .ok other) :
    ((∀ component ∈ other.components,
        component.name ∉ site.components.map RenderedComponent.name) →
      compile (first ++ "\n" ++ second) = .ok ⟨site.components ++ other.components⟩) ∧
    ((∃ component ∈ other.components,
        component.name ∈ site.components.map RenderedComponent.name) →
      ∃ before component after position,
        other.components = (Program.render ⟨before⟩).components ++ component :: after ∧
        (∀ earlier ∈ before, earlier.name ∉ site.components.map RenderedComponent.name) ∧
        component.name ∈ site.components.map RenderedComponent.name ∧
        NamesNext second before component.name position ∧
        compile (first ++ "\n" ++ second) =
          .error (.parse ⟨.duplicateComponent component.name,
            ⟨position.line + (first.toList.count '\n' + 1), position.column⟩⟩)) := by
  obtain ⟨program, hprogram, rfl⟩ := (compile_eq_ok_iff first site).mp hfirst
  obtain ⟨others, hothers, rfl⟩ := (compile_eq_ok_iff second other).mp hsecond
  rw [map_name_render]
  constructor
  · intro hnew
    have hnewNames : NewBehind program.components others.components := by
      intro component hcomponent
      exact hnew component.render (List.mem_map_of_mem hcomponent)
    refine (compile_eq_ok_iff _ _).mpr ⟨_, parse_append_of_new hprogram hothers hnewNames, ?_⟩
    simp [Program.render]
  · intro hrepeated
    have hnames : ∃ component ∈ others.components, component.name ∈ names program.components := by
      obtain ⟨_, hmem, hname⟩ := hrepeated
      obtain ⟨component, hcomponent, rfl⟩ := List.mem_map.mp hmem
      exact ⟨component, hcomponent, hname⟩
    obtain ⟨before, component, after, hcomponents, hbefore, hname⟩ :=
      exists_first_of_not_new hnames
    obtain ⟨position, hnext, hparse⟩ :=
      exists_parse_append_eq hprogram hothers hcomponents hbefore hname
    refine ⟨before, component.render, after.map Component.render, position, ?_, hbefore, hname,
      hnext, ?_⟩
    · simp [Program.render, hcomponents]
    · refine compile_of_parse_error hparse ?_
      rintro fault ⟨⟩

/-- The second of two names behind a comment is the duplicate, on the line where it then stands. -/
theorem compile_append_repeated_name :
    compile "component A { }" = .ok (Program.render ⟨[⟨"A", []⟩]⟩) ∧
      compile "//\ncomponent B { } component A { }" =
        .ok (Program.render ⟨[⟨"B", []⟩, ⟨"A", []⟩]⟩) ∧
      ∃ before component after position,
        (Program.render ⟨[⟨"B", []⟩, ⟨"A", []⟩]⟩).components =
          (Program.render ⟨before⟩).components ++ component :: after ∧
        (∀ earlier ∈ before, earlier.name ∉ ["A"]) ∧ component.name ∈ ["A"] ∧
        NamesNext "//\ncomponent B { } component A { }" before component.name position ∧
        compile ("component A { }" ++ "\n" ++ "//\ncomponent B { } component A { }") =
          .error (.parse ⟨.duplicateComponent component.name,
            ⟨position.line + 1, position.column⟩⟩) := by
  have hfirst : compile "component A { }" = .ok (Program.render ⟨[⟨"A", []⟩]⟩) :=
    compile_of_parse (by decide +kernel)
  have hsecond : compile "//\ncomponent B { } component A { }" =
      .ok (Program.render ⟨[⟨"B", []⟩, ⟨"A", []⟩]⟩) :=
    compile_of_parse (by decide +kernel)
  refine ⟨hfirst, hsecond, ?_⟩
  exact (compile_append hfirst hsecond).2 ⟨Component.render ⟨"A", []⟩, by simp [Program.render],
    by simp [Program.render, Component.render]⟩

end Concatenation
end SiteCompiler
