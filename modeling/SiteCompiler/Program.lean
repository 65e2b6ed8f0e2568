/-!
# Programs

A program is the list of components that a source declares, in source order.
The tree is shallow: a component is a name and a list of blocks, and a block
holds declarations, elements or one event handler.  Values are kept as raw
source text; what they mean is decided where they are rendered.
-/

namespace SiteCompiler

/-- One `name: value` pair of a state or style block, the value as it was written. -/
structure Declaration where
  name : String
  value : String
  deriving DecidableEq, Repr

/-- The display text of an element. -/
inductive DisplayText where
  /-- Fixed text, without quotes. -/
  | literal (text : String)
  /-- The value of a state variable; its name is shown until the script runs. -/
  | bound (name : String)
  deriving DecidableEq, Repr

namespace DisplayText

/-- The text that the page shows before any script runs. -/
def placeholder : DisplayText → String
  | literal text => text
  | bound name => name

/-- The variable that the text follows, if it follows one. -/
def binding : DisplayText → Option String
  | literal _ => none
  | bound name => some name

end DisplayText

/-- An element of the page: its name, its text and the method that a click on it calls. -/
structure Element where
  name : String
  text : Option DisplayText
  action : Option String
  deriving DecidableEq, Repr

/-- An event handler: the name of a method and its one line of statements. -/
structure Handler where
  name : String
  body : String
  deriving DecidableEq, Repr

/-- The four keywords that open a block of a component. -/
inductive BlockKind where
  | state
  | style
  | interface
  | events
  deriving DecidableEq, Repr

/-- The spelling of the keyword that opens a block. -/
def BlockKind.keyword : BlockKind → String
  | state => "state"
  | style => "style"
  | interface => "interface"
  | events => "eventos"

/-- A block of a component. -/
inductive Block where
  | state (fields : List Declaration)
  | style (properties : List Declaration)
  | interface (elements : List Element)
  | event (handler : Handler)
  deriving DecidableEq, Repr

/-- The keyword under which a block stands. -/
def Block.kind : Block → BlockKind
  | state _ => .state
  | style _ => .style
  | interface _ => .interface
  | event _ => .events

/-- A declared component. -/
structure Component where
  name : String
  blocks : List Block
  deriving DecidableEq, Repr

namespace Component

/-- The variables of the first state block, if there is a state block. -/
def state? (component : Component) : Option (List Declaration) :=
  component.blocks.findSome? fun
    | .state fields => some fields
    | _ => none

/-- The event handlers, in order. -/
def handlers (component : Component) : List Handler :=
  component.blocks.filterMap fun
    | .event handler => some handler
    | _ => none

end Component

/-- The components of a source, in the order of their declarations. -/
structure Program where
  components : List Component
  deriving DecidableEq, Repr

end SiteCompiler
