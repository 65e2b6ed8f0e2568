import SiteCompiler.Site

/-!
# The two sides of a component

A component is rendered twice, once for the page and once as a script.  Each of its blocks
goes into one of the two and leaves no trace in the other, so that the two sides can be
told apart, exchanged and shuffled without regard to each other.

* `Block.shows`, `Component.shown`, `Component.scripted` - the two sides.
* `markup_shown`, `script_scripted` - each side alone makes one of the two texts.
* `Interleaves` - two lists merged into one that keeps the order of each.
* `sides_are_apart` - what a component has on one side does not matter for the other.
-/

namespace SiteCompiler

/-- Whether a block shows in the page; all other blocks go into the script. -/
def Block.shows : Block → Bool
  | state _ => false
  | style _ => true
  | interface _ => true
  | event _ => false

namespace Component

/-- The component with only those of its blocks that show in the page. -/
def shown (component : Component) : Component :=
  ⟨component.name, component.blocks.filter Block.shows⟩

/-- The component with only those of its blocks that go into the script. -/
def scripted (component : Component) : Component :=
  ⟨component.name, component.blocks.filter fun block => !block.shows⟩

end Component

namespace Sides

/-! ## One side alone -/

theorem markup_of_not_shows {block : Block} (h : block.shows = false) : block.markup = "" := by
  cases block with
  | state => rfl
  | event => rfl
  | style => cases h
  | interface => cases h

theorem method?_of_shows {block : Block} (h : block.shows = true) : block.method? = none := by
  cases block with
  | style => rfl
  | interface => rfl
  | state => cases h
  | event => cases h

theorem join_markup_filter_shows (blocks : List Block) :
    String.join ((blocks.filter Block.shows).map Block.markup) =
      String.join (blocks.map Block.markup) := by
  induction blocks with
  | nil => rfl
  | cons block blocks ih =>
      cases hshows : block.shows with
      | true =>
          rw [List.filter_cons_of_pos hshows, List.map_cons, List.map_cons, String.join_cons,
            String.join_cons, ih]
      | false =>
          rw [List.filter_cons_of_neg (by simp [hshows]), List.map_cons, String.join_cons,
            markup_of_not_shows hshows, String.empty_append, ih]

theorem markup_shown (component : Component) : component.shown.markup = component.markup := by
  simp only [Component.markup, Component.shown, join_markup_filter_shows]

/-- The blocks that show are not among those that are looked for. -/
theorem state?_scripted (component : Component) :
    component.scripted.state? = component.state? := by
  obtain ⟨name, blocks⟩ := component
  induction blocks with
  | nil => rfl
  | cons block blocks ih =>
      cases block with
      | state fields => rfl
      | style | interface | event => exact ih

theorem filterMap_method?_filter (blocks : List Block) :
    (blocks.filter fun block => !block.shows).filterMap Block.method? =
      blocks.filterMap Block.method? := by
  rw [List.filterMap_filter]
  congr 1
  funext block
  cases hshows : block.shows with
  | true => simp [method?_of_shows hshows]
  | false => rfl

theorem methods_scripted (component : Component) :
    component.scripted.methods = component.methods := by
  rw [Component.methods, Component.impliedMethods, state?_scripted]
  simp only [Component.scripted, filterMap_method?_filter]
  rfl

theorem script_scripted (component : Component) :
    component.scripted.script = component.script := by
  rw [Component.script, methods_scripted]
  rfl

section TwoComponents

variable {component other : Component}

theorem markup_eq_of_shown (hname : component.name = other.name)
    (h : component.blocks.filter Block.shows = other.blocks.filter Block.shows) :
    component.markup = other.markup := by
  have hshown : component.shown = other.shown := by
    rw [Component.shown, Component.shown, hname, h]
  rw [← markup_shown component, hshown, markup_shown]

theorem script_eq_of_scripted (hname : component.name = other.name)
    (h : (component.blocks.filter fun block => !block.shows) =
      (other.blocks.filter fun block => !block.shows)) : component.script = other.script := by
  have hscripted : component.scripted = other.scripted := by
    rw [Component.scripted, Component.scripted, hname, h]
  rw [← script_scripted component, hscripted, script_scripted]

end TwoComponents

/-! ## Both sides merged -/

/-- All items of both lists, those of each list in order. -/
inductive Interleaves {α : Type} : List α → List α → List α → Prop
  | nil : Interleaves [] [] []
  | left {x : α} {xs ys zs : List α} : Interleaves xs ys zs → Interleaves (x :: xs) ys (x :: zs)
  | right {y : α} {xs ys zs : List α} : Interleaves xs ys zs → Interleaves xs (y :: ys) (y :: zs)

section Merged

variable {α : Type} {p : α → Bool} {xs ys zs : List α}

/-- A property that tells the two lists apart finds each of them again. -/
theorem Interleaves.filter_eq (h : Interleaves xs ys zs) (hxs : ∀ x ∈ xs, p x = true)
    (hys : ∀ y ∈ ys, p y = false) : zs.filter p = xs ∧ (zs.filter fun z => !p z) = ys := by
  induction h with
  | nil => exact ⟨rfl, rfl⟩
  | @left x xs ys zs _ ih =>
      obtain ⟨hx, hrest⟩ := List.forall_mem_cons.mp hxs
      obtain ⟨hleft, hright⟩ := ih hrest hys
      simp [hx, hleft, hright]
  | @right y xs ys zs _ ih =>
      obtain ⟨hy, hrest⟩ := List.forall_mem_cons.mp hys
      obtain ⟨hleft, hright⟩ := ih hxs hrest
      simp [hy, hleft, hright]

end Merged

/-- Components of one name have the same markup if they have the same style and interface blocks in
the same order, and the same script if they have the same state and event blocks in the same order,
whatever blocks of the other side stand between them.  So the two sides of a component may be merged
in any way that keeps the order on each. -/
theorem sides_are_apart {component other : Component} (hname : component.name = other.name) :
    (component.blocks.filter Block.shows = other.blocks.filter Block.shows →
      component.markup = other.markup) ∧
    ((component.blocks.filter fun block => !block.shows) =
        (other.blocks.filter fun block => !block.shows) →
      component.script = other.script) ∧
    ∀ blocks, Interleaves (component.blocks.filter Block.shows)
        (component.blocks.filter fun block => !block.shows) blocks →
      Component.render ⟨component.name, blocks⟩ = component.render := by
  refine ⟨?markup, ?script, ?render⟩
  case markup => exact markup_eq_of_shown hname
  case script => exact script_eq_of_scripted hname
  case render =>
    intro blocks hblocks
    obtain ⟨hshown, hscripted⟩ := hblocks.filter_eq (p := Block.shows)
      (fun block hblock => (List.mem_filter.mp hblock).2)
      (fun block hblock => by simpa using (List.mem_filter.mp hblock).2)
    have hmarkup : Component.markup ⟨component.name, blocks⟩ = component.markup :=
      markup_eq_of_shown rfl hshown
    have hscript : Component.script ⟨component.name, blocks⟩ = component.script :=
      script_eq_of_scripted rfl hscripted
    rw [Component.render, hmarkup, hscript, Component.render]

def scriptedBlocks : List Block :=
  [.state [⟨"x", "1"⟩], .event ⟨"f", "this.x"⟩, .state [⟨"y", "2"⟩]]

def shownBlocks : List Block :=
  [.style [⟨"cor", "#fff"⟩], .interface [⟨"Texto", some (.bound "x"), none⟩], .style []]

/-- Two states and two styles, one side in front of the other. -/
def componentApart : Component :=
  ⟨"A", shownBlocks ++ scriptedBlocks⟩

/-- Blocks of both sides by turns. -/
def blocksByTurns : List Block :=
  [.state [⟨"x", "1"⟩], .style [⟨"cor", "#fff"⟩], .event ⟨"f", "this.x"⟩,
    .interface [⟨"Texto", some (.bound "x"), none⟩], .state [⟨"y", "2"⟩], .style []]

/-- Each side of a component alone makes its text, although without the other side the state is only
implied; and with both sides by turns the component is rendered the same. -/
theorem sides_are_apart_two_states :
    componentApart.name = componentApart.shown.name ∧
      componentApart.markup = componentApart.shown.markup ∧
      componentApart.name = componentApart.scripted.name ∧
      componentApart.script = componentApart.scripted.script ∧
      Component.render ⟨"A", blocksByTurns⟩ = componentApart.render := by
  have hshown : componentApart.name = componentApart.shown.name := rfl
  have hscripted : componentApart.name = componentApart.scripted.name := rfl
  obtain ⟨hmarkup, -, hrender⟩ := sides_are_apart hshown
  obtain ⟨-, hscript, -⟩ := sides_are_apart hscripted
  have hturns : Interleaves (componentApart.blocks.filter Block.shows)
      (componentApart.blocks.filter fun block => !block.shows) blocksByTurns :=
    .right (.left (.right (.left (.right (.left .nil)))))
  exact ⟨hshown, hmarkup (by decide), hscripted, hscript (by decide), hrender _ hturns⟩

end Sides
end SiteCompiler
