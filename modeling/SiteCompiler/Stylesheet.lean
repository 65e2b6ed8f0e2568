import SiteCompiler.Lines
import SiteCompiler.Program

/-!
# Stylesheets

A style block becomes one rule for the component's container, followed by a
fixed rule for buttons.
-/

namespace SiteCompiler

/-- The properties that have a short name, each with the name that a stylesheet knows. -/
def propertyAliases : List (String × String) :=
  [("cor", "color"), ("fundo", "background-color"), ("tamanho", "font-size")]

/-- The name of a property in a stylesheet; a name without a longer form stands for itself. -/
def stylesheetName (property : String) : String :=
  (propertyAliases.lookup property).getD property

/-- What stands between a quote at the front and another at the end, if both are there. -/
def betweenQuotes? : List Char → Option (List Char)
  | '"' :: rest => if rest.getLast? = some '"' then some rest.dropLast else none
  | _ => none

/-- A value in a stylesheet: a quoted text loses its quotes. -/
def stylesheetValue (raw : String) : String :=
  ((betweenQuotes? raw.toList).map String.ofList).getD raw

/-- The rule that every stylesheet ends with. -/
def buttonRule : List String :=
  ["button \x7b",
    "  padding: 10px 20px;",
    "  border: none;",
    "  border-radius: 5px;",
    "  cursor: pointer;",
    "  margin: 5px;",
    "\x7d"]

/-- One property of a rule. -/
def Declaration.stylesheetLine (declaration : Declaration) : String :=
  "  " ++ stylesheetName declaration.name ++ ": " ++ stylesheetValue declaration.value ++ ";"

/-- The style element of a style block. -/
def stylesheet (properties : List Declaration) : String :=
  unlines (["<style>", ".component \x7b"] ++ properties.map Declaration.stylesheetLine ++
    ["\x7d", ""] ++ buttonRule ++ ["</style>"])

end SiteCompiler
