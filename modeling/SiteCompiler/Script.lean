import SiteCompiler.Lines
import SiteCompiler.Program
import SiteCompiler.Script.Literal

/-!
# Component scripts

A component becomes one class and one instance of it.  The class has three
fixed methods, one that sets the state, and one for each event handler.

* `Component.methods` - the methods of the class, in the order of the script.
* `Component.script` - the text of the script.
-/

namespace SiteCompiler

/-- A method of a class: its name and the lines of its body. -/
structure Method where
  name : String
  body : List String
  deriving DecidableEq, Repr

/-- The lines of a method, the blank line behind it included. -/
def Method.lines (method : Method) : List String :=
  ["  " ++ method.name ++ "() \x7b"] ++ method.body.map ("    " ++ ·) ++ ["  \x7d", ""]

/-- The text of a method. -/
def Method.text (method : Method) : String :=
  unlines method.lines

/-- The line by which a method reaches the container of its component. -/
def rootLine (component : String) : String :=
  "const root = document.getElementById('" ++ component ++ "') || document;"

/-- The line by which a method shows the state that it has changed. -/
def updateLine : String :=
  "this.updateView();"

/-- What a new instance does. -/
def constructorMethod : Method :=
  ⟨"constructor", ["this.init();", "this.setupEvents();"]⟩

/-- Every marked button calls the method that its mark names, if there is one. -/
def setupMethod (component : String) : Method :=
  ⟨"setupEvents",
    [rootLine component,
      "root.querySelectorAll('button[data-action]').forEach(button => \x7b",
      "  const action = button.getAttribute('data-action');",
      "  if (typeof this[action] === 'function') \x7b",
      "    button.onclick = () => this[action]();",
      "  \x7d",
      "\x7d);"]⟩

/-- Every marked element shows the variable that its mark names, if there is one. -/
def updateMethod (component : String) : Method :=
  ⟨"updateView",
    [rootLine component,
      "root.querySelectorAll('[data-bind]').forEach(element => \x7b",
      "  const binding = element.getAttribute('data-bind');",
      "  if (this[binding] !== undefined) \x7b",
      "    element.textContent = this[binding];",
      "  \x7d",
      "\x7d);"]⟩

/-- The line that gives a variable its first value. -/
def Declaration.assignment (declaration : Declaration) : String :=
  "this." ++ declaration.name ++ " = " ++ literal declaration.value ++ ";"

/-- The method that gives every variable its first value. -/
def initMethod (fields : List Declaration) : Method :=
  ⟨"init", fields.map Declaration.assignment ++ [updateLine]⟩

/-- The method of an event handler; an empty body leaves no line. -/
def Handler.method (handler : Handler) : Method :=
  ⟨handler.name, (if handler.body = "" then [] else [handler.body]) ++ [updateLine]⟩

/-- The method that a block adds; style and interface show in the page only. -/
def Block.method? : Block → Option Method
  | state fields => some (initMethod fields)
  | style _ => none
  | interface _ => none
  | event handler => some handler.method

/-- The text that a block adds to the script. -/
def Block.script (block : Block) : String :=
  (block.method?.map Method.text).getD ""

namespace Component

/-- The method that stands in for a state block where there is none, as every new instance calls
it. -/
def impliedMethods (component : Component) : List Method :=
  if component.state?.isNone then [initMethod []] else []

/-- The methods of the class. -/
def methods (component : Component) : List Method :=
  [constructorMethod, setupMethod component.name, updateMethod component.name] ++
    component.impliedMethods ++ component.blocks.filterMap Block.method?

/-- The script of a component. -/
def script (component : Component) : String :=
  unlines (["class " ++ component.name ++ " \x7b"] ++ component.methods.flatMap Method.lines ++
    ["\x7d", "", "new " ++ component.name ++ "();"])

end Component

end SiteCompiler
