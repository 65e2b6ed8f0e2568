import SiteCompiler.Stylesheet

/-!
# Page markup

The fragment of the page that a component fills.  Only its style and interface
blocks show there; an element carries the markers by which the script of the
component finds it.
-/

namespace SiteCompiler

/-- The tag of an element: buttons have their own, everything else is a plain box. -/
def tagOf (name : String) : String :=
  if name = "Botao" then "button" else "div"

/-- One attribute of a tag, with the blank before it. -/
def tagAttribute (name value : String) : String :=
  " " ++ name ++ "=\"" ++ value ++ "\""

/-- The markup of an element: the variable that its text follows, the method that a click on it
calls, and the text itself, each if there is one. -/
def Element.markup (element : Element) : String :=
  "<" ++ tagOf element.name ++ tagAttribute "class" element.name ++
    ((element.text.bind DisplayText.binding).map (tagAttribute "data-bind")).getD "" ++
    (element.action.map (tagAttribute "data-action")).getD "" ++ ">" ++
    (element.text.map DisplayText.placeholder).getD "" ++ "</" ++ tagOf element.name ++ ">\n"

/-- The markup of a block; state and events show in the script only. -/
def Block.markup : Block → String
  | state _ => ""
  | style properties => stylesheet properties
  | interface elements => String.join (elements.map Element.markup)
  | event _ => ""

/-- The container of a component, around the markup of its blocks. -/
def Component.markup (component : Component) : String :=
  "<div" ++ tagAttribute "class" ("component " ++ component.name) ++
    tagAttribute "id" component.name ++ ">\n" ++
    String.join (component.blocks.map Block.markup) ++ "</div>\n"

end SiteCompiler
