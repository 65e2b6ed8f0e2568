import SiteCompiler.Markup
import SiteCompiler.Script

/-!
# Sites

A site is the list of its rendered components.  Its page shows their markup,
one after the other, and then loads their scripts; each script is a file of its
own, named after its component.

* `Site.document` - the text of the page.
* `Site.files` - every file of the site, the page last.
* `Program.render` - the site of a program.
-/

namespace SiteCompiler

/-- What the author of a page may choose. -/
structure SiteOptions where
  /-- The title of the page. -/
  title : String
  deriving DecidableEq, Repr

/-- The title of a page whose author chose none. -/
def SiteOptions.standard : SiteOptions :=
  ⟨"Zyra Site"⟩

/-- The markup and the script of a component. -/
structure RenderedComponent where
  name : String
  markup : String
  script : String
  deriving DecidableEq, Repr

namespace RenderedComponent

/-- The name of the file that holds the script. -/
def scriptFile (component : RenderedComponent) : String :=
  component.name ++ ".js"

/-- The line of the page that loads the script. -/
def scriptReference (component : RenderedComponent) : String :=
  "<script src=\"" ++ component.scriptFile ++ "\"></script>\n"

end RenderedComponent

/-- The rendered components of a program, in order. -/
structure Site where
  components : List RenderedComponent
  deriving DecidableEq, Repr

namespace Site

/-- The page of a site. -/
def document (site : Site) (options : SiteOptions) : String :=
  unlines ["<!DOCTYPE html>", "<html>", "<head>", "<meta charset=\"UTF-8\">",
      "<title>" ++ options.title ++ "</title>", "</head>", "<body>"] ++
    String.join (site.components.map RenderedComponent.markup) ++
    String.join (site.components.map RenderedComponent.scriptReference) ++
    unlines ["</body>", "</html>"]

/-- The name of the file that holds the page. -/
def pageFile : String :=
  "index.html"

/-- The files of a site, by name: the scripts in order, then the page. -/
def files (site : Site) (options : SiteOptions) : List (String × String) :=
  site.components.map (fun component => (component.scriptFile, component.script)) ++
    [(pageFile, site.document options)]

end Site

/-- Render a component. -/
def Component.render (component : Component) : RenderedComponent :=
  ⟨component.name, component.markup, component.script⟩

@[simp] theorem Component.script_render (component : Component) :
    component.render.script = component.script := by
  simp only [render]

/-- Render every component of a program. -/
def Program.render (program : Program) : Site :=
  ⟨program.components.map Component.render⟩

end SiteCompiler
