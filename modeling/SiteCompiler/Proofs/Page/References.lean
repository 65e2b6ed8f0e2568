import SiteCompiler.Proofs.Build.SiteFiles
import Mathlib.Data.List.DropRight

/-!
# The scripts that a page loads

Titles, texts and values go into a page as they are, and may look like any other part of
it.  Its scripts can be read off it all the same, from its end: two tags close the page,
a run of script references stands in front of them, and the line in front of those closes
a container or opens the body.

* `loadedName?`, `loadedNames` - the script that a line loads, and the scripts that a page
  loads.
* `IsLines`, `isLines_markup` - the markup of a block is made of whole lines.
* `exists_lines_document` - the end of a page, line by line.
* `page_tells_scripts` - the page of a source loads its scripts, and no others.
-/

namespace SiteCompiler
namespace Page

open Image Publication Stages

/-! ## Reading a page -/

/-- The component whose script a line loads, if it loads one. -/
def loadedName? (line : List Char) : Option String :=
  ((line.dropPrefix? "<script src=\"".toList).bind
    (List.dropSuffix? · ".js\"></script>".toList)).map String.ofList

/-- The components whose scripts are loaded right in front of the last two lines of a page, in
order.  Behind the line feed of the last line there is one more piece, and it is empty. -/
def loadedNames (page : String) : List String :=
  (((page.toList.splitOn '\n').rdrop 3).rtakeWhile fun line =>
    (loadedName? line).isSome).filterMap loadedName?

/-- The line that loads the script of a component. -/
def loadingLine (name : String) : String :=
  "<script src=\"" ++ name ++ ".js\"></script>"

theorem loadedName?_loadingLine (name : String) :
    loadedName? (loadingLine name).toList = some name := by
  have hfront : (loadingLine name).toList.dropPrefix? "<script src=\"".toList =
      some (name.toList ++ ".js\"></script>".toList) := by
    refine List.dropPrefix?_eq_some_iff.mpr ⟨_, ?_, beq_self_eq_true _⟩
    simp [loadingLine]
  have hbehind : (name.toList ++ ".js\"></script>".toList).dropSuffix? ".js\"></script>".toList =
      some name.toList :=
    List.dropSuffix?_eq_some_iff.mpr ⟨_, rfl, beq_self_eq_true _⟩
  rw [loadedName?, hfront, Option.bind_some, hbehind, Option.map_some, String.ofList_toList]

/-- A run of lines that load scripts is read up to the line in front of it that loads none. -/
theorem filterMap_rtakeWhile_append {pieces : List (List Char)} {last : List Char}
    (h : loadedName? last = none) (names : List String) :
    (((pieces ++ last :: names.map fun name => (loadingLine name).toList).rtakeWhile fun line =>
      (loadedName? line).isSome).filterMap loadedName?) = names := by
  have hrun : (pieces ++ last :: names.map fun name => (loadingLine name).toList).rtakeWhile
      (fun line => (loadedName? line).isSome) =
        names.map fun name => (loadingLine name).toList := by
    rw [List.rtakeWhile, List.reverse_append, List.reverse_cons, List.append_assoc,
      List.takeWhile_append_of_pos, List.singleton_append, List.takeWhile_cons_of_neg]
    · simp
    · simp [h]
    · intro line hline
      obtain ⟨name, -, rfl⟩ := List.mem_map.mp (List.mem_reverse.mp hline)
      simp [loadedName?_loadingLine]
  rw [hrun, List.filterMap_map]
  simp [loadedName?_loadingLine]

/-! ## Whole lines -/

/-- Texts of whole lines. -/
def IsLines (text : String) : Prop :=
  ∃ lines, text = unlines lines

theorem isLines_empty : IsLines "" :=
  ⟨[], rfl⟩

theorem isLines_line (text : String) : IsLines (text ++ "\n") :=
  ⟨[text], by simp [unlines]⟩

theorem IsLines.append {text more : String} (h : IsLines text) (hmore : IsLines more) :
    IsLines (text ++ more) := by
  obtain ⟨lines, rfl⟩ := h
  obtain ⟨others, rfl⟩ := hmore
  exact ⟨lines ++ others, (unlines_append lines others).symm⟩

theorem isLines_join {α : Type} {text : α → String} (h : ∀ item, IsLines (text item))
    (items : List α) : IsLines (String.join (items.map text)) := by
  induction items with
  | nil => exact isLines_empty
  | cons item items ih =>
      rw [List.map_cons, String.join_cons]
      exact (h item).append ih

theorem isLines_element (element : Element) : IsLines element.markup := by
  have hline : ">\n" = ">" ++ "\n" := rfl
  rw [Element.markup, hline, ← String.append_assoc]
  exact isLines_line _

theorem isLines_markup (block : Block) : IsLines block.markup := by
  cases block with
  | state fields => exact isLines_empty
  | style properties => exact ⟨_, rfl⟩
  | interface elements => exact isLines_join isLines_element elements
  | event handler => exact isLines_empty

/-- The last line of a container closes it. -/
theorem exists_lines_component (component : Component) :
    ∃ lines, component.markup = unlines (lines ++ ["</div>"]) := by
  obtain ⟨lines, hlines⟩ := isLines_join isLines_markup component.blocks
  refine ⟨("<div" ++ tagAttribute "class" ("component " ++ component.name) ++
    tagAttribute "id" component.name ++ ">") :: lines, ?_⟩
  rw [Component.markup, hlines, ← String.toList_inj]
  simp

theorem isLines_component (component : Component) : IsLines component.markup := by
  obtain ⟨lines, hlines⟩ := exists_lines_component component
  exact ⟨_, hlines⟩

/-! ## The end of a page -/

/-- The lines in front of the body. -/
def openingLines (options : SiteOptions) : List String :=
  ["<!DOCTYPE html>", "<html>", "<head>", "<meta charset=\"UTF-8\">",
    "<title>" ++ options.title ++ "</title>", "</head>"]

/-- The lines behind the references. -/
def closingLines : List String :=
  ["</body>", "</html>"]

/-- What stands in front of the references ends with the line that closes a container or, without
containers, with the line that opens the body. -/
theorem exists_lines_containers (components : List Component) (options : SiteOptions) :
    ∃ lines, ∃ last ∈ ["<body>", "</div>"],
      unlines (openingLines options ++ ["<body>"]) ++
          String.join (components.map Component.markup) =
        unlines (lines ++ [last]) := by
  rcases List.eq_nil_or_concat' components with rfl | ⟨earlier, component, rfl⟩
  · refine ⟨openingLines options, "<body>", by simp, ?_⟩
    rw [List.map_nil, String.join_nil, String.append_empty]
  · obtain ⟨lines, hlines⟩ := isLines_join isLines_component earlier
    obtain ⟨inner, hinner⟩ := exists_lines_component component
    refine ⟨openingLines options ++ ["<body>"] ++ (lines ++ inner), "</div>", by simp, ?_⟩
    rw [List.map_append, String.join_append, hlines, List.map_singleton, String.join_cons,
      String.join_nil, String.append_empty, hinner, ← unlines_append, ← unlines_append]
    simp only [List.append_assoc]

theorem join_scriptReference (components : List RenderedComponent) :
    String.join (components.map RenderedComponent.scriptReference) =
      unlines ((components.map RenderedComponent.name).map loadingLine) := by
  rw [unlines, List.map_map, List.map_map]
  congr 1
  refine List.map_congr_left fun component _ => ?_
  simp [← String.toList_inj, RenderedComponent.scriptReference, RenderedComponent.scriptFile,
    loadingLine]

/-- A page ends with its references and two closing tags. -/
theorem exists_lines_document (program : Program) (options : SiteOptions) :
    ∃ lines, ∃ last ∈ ["<body>", "</div>"],
      program.render.document options =
        unlines (lines ++ last ::
          ((program.components.map Component.name).map loadingLine ++ closingLines)) := by
  obtain ⟨lines, last, hlast, hcontainers⟩ := exists_lines_containers program.components options
  refine ⟨lines, last, hlast, ?_⟩
  have hmarkup : program.render.components.map RenderedComponent.markup =
      program.components.map Component.markup := by
    rw [Program.render, List.map_map]
    rfl
  have hopening : ["<!DOCTYPE html>", "<html>", "<head>", "<meta charset=\"UTF-8\">",
      "<title>" ++ options.title ++ "</title>", "</head>", "<body>"] =
        openingLines options ++ ["<body>"] := rfl
  have hclosing : ["</body>", "</html>"] = closingLines := rfl
  rw [Site.document, hopening, hclosing, hmarkup, hcontainers, join_scriptReference,
    map_name_render, ← unlines_append, ← unlines_append, List.append_assoc, List.append_assoc,
    List.singleton_append]

/-! ## Line by line -/

/-- The pieces of whole lines and the pieces of what stands behind them. -/
theorem exists_splitOn_append (lines : List String) (rest : List Char) :
    ∃ pieces, ((unlines lines).toList ++ rest).splitOn '\n' = pieces ++ rest.splitOn '\n' := by
  induction lines with
  | nil => exact ⟨[], rfl⟩
  | cons line lines ih =>
      obtain ⟨pieces, hpieces⟩ := ih
      refine ⟨line.toList.splitOn '\n' ++ pieces, ?_⟩
      have hcons : (unlines (line :: lines)).toList ++ rest =
          line.toList ++ '\n' :: ((unlines lines).toList ++ rest) := by simp
      rw [hcons, List.splitOn_append_cons_self, hpieces, List.append_assoc]

/-- Lines without line feeds are the pieces of their text, in front of an empty one. -/
theorem splitOn_unlines {lines : List String} (h : ∀ line ∈ lines, '\n' ∉ line.toList) :
    (unlines lines).toList.splitOn '\n' = lines.map String.toList ++ [[]] := by
  induction lines with
  | nil => rfl
  | cons line lines ih =>
      obtain ⟨hline, hlines⟩ := List.forall_mem_cons.mp h
      have hcons : (unlines (line :: lines)).toList =
          line.toList ++ '\n' :: (unlines lines).toList := by simp
      rw [hcons, List.splitOn_append_cons_self_of_not_mem hline, ih hlines, List.map_cons,
        List.cons_append]

theorem lineFeed_not_mem_loadingLine {name : String} (h : '\n' ∉ name.toList) :
    '\n' ∉ (loadingLine name).toList := by
  simp [loadingLine, h]

/-- What is loaded behind a line that loads nothing and in front of the closing lines. -/
theorem loadedNames_unlines {lines names : List String} {last : String}
    (hlast : last ∈ ["<body>", "</div>"]) (hnames : ∀ name ∈ names, '\n' ∉ name.toList) :
    loadedNames (unlines (lines ++ last :: (names.map loadingLine ++ closingLines))) = names := by
  have hends : ∀ line ∈ ["<body>", "</div>"],
      '\n' ∉ line.toList ∧ loadedName? line.toList = none := by decide +kernel
  have hclosing : ∀ line ∈ closingLines, '\n' ∉ line.toList := by decide
  obtain ⟨hfeed, hnone⟩ := hends last hlast
  have hlines : ∀ line ∈ last :: (names.map loadingLine ++ closingLines),
      '\n' ∉ line.toList := by
    intro line hline
    rcases List.mem_cons.mp hline with rfl | hline
    · exact hfeed
    · rcases List.mem_append.mp hline with hloading | hline
      · obtain ⟨name, hname, rfl⟩ := List.mem_map.mp hloading
        exact lineFeed_not_mem_loadingLine (hnames name hname)
      · exact hclosing line hline
  obtain ⟨pieces, hpieces⟩ :=
    exists_splitOn_append lines (unlines (last :: (names.map loadingLine ++ closingLines))).toList
  have hsplit :
      (unlines (lines ++ last :: (names.map loadingLine ++ closingLines))).toList.splitOn '\n' =
        (pieces ++ last.toList :: names.map fun name => (loadingLine name).toList) ++
          (closingLines.map String.toList ++ [[]]) := by
    rw [unlines_append, String.toList_append, hpieces, splitOn_unlines hlines]
    simp [Function.comp_def]
  have hthree : 3 = (closingLines.map String.toList ++ [[]]).length := rfl
  rw [loadedNames, hsplit, hthree, List.rdrop_append_length, filterMap_rtakeWhile_append hnone]

/-! ## Compiled pages -/

theorem loadedNames_of_compile {source : String} {site : Site} (h : compile source = .ok site)
    (options : SiteOptions) :
    loadedNames (site.document options) = site.components.map RenderedComponent.name := by
  obtain ⟨program, hparse, rfl⟩ := (compile_eq_ok_iff source site).mp h
  obtain ⟨lines, last, hlast, hdocument⟩ := exists_lines_document program options
  have hnames : ∀ name ∈ program.components.map Component.name, '\n' ∉ name.toList := by
    intro name hname
    obtain ⟨component, hcomponent, rfl⟩ := List.mem_map.mp hname
    have hclass := ((wellFormed_of_parse hparse).components component hcomponent).name
    exact not_mem_of_isClassName hclass (by decide) (by decide)
  rw [hdocument, loadedNames_unlines hlast hnames, map_name_render]

/-- The page of a source loads the scripts of its components, each of them once and in order,
whatever the title of the page and whatever the texts and the values in it.  So two sources that
have the same page under any two titles have the same components in the same order. -/
theorem page_tells_scripts {source other : String} {site site' : Site}
    (h : compile source = .ok site) (h' : compile other = .ok site')
    (options options' : SiteOptions) :
    (site.document options = site'.document options' →
      site.components.map RenderedComponent.name = site'.components.map RenderedComponent.name) ∧
    loadedNames (site.document options) = site.components.map RenderedComponent.name ∧
      (site.components.map RenderedComponent.name).Nodup := by
  have hread := loadedNames_of_compile h options
  refine ⟨?_, hread, nodup_names_of_compile h⟩
  intro hsame
  rw [← hread, hsame, loadedNames_of_compile h' options']

/-- A title that closes the page and loads a script of its own. -/
def imitatingOptions : SiteOptions :=
  ⟨"</title>\n<script src=\"B.js\"></script>\n</body>\n</html>\n"⟩

def noteSource : String :=
  "component A \x7b " ++
    "interface \x7b Nota \x7b texto: \"\n</div>\n<script src=B.js></script>\n\" \x7d \x7d \x7d " ++
    "component C \x7b \x7d"

def noteWithStateSource : String :=
  "component A \x7b state \x7b x: 1 \x7d " ++
    "interface \x7b Nota \x7b texto: \"\n</div>\n<script src=B.js></script>\n\" \x7d \x7d \x7d " ++
    "component C \x7b eventos \x7b f -> \x7b \x7d \x7d \x7d"

def noteBlock : Block :=
  .interface [⟨"Nota", some (.literal "\n</div>\n<script src=B.js></script>\n"), none⟩]

def noteProgram : Program :=
  ⟨[⟨"A", [noteBlock]⟩, ⟨"C", []⟩]⟩

def noteWithStateProgram : Program :=
  ⟨[⟨"A", [.state [⟨"x", "1"⟩], noteBlock]⟩, ⟨"C", [.event ⟨"f", ""⟩]⟩]⟩

/-- A title and a text that look like the end of a page, with references of their own. -/
theorem page_tells_scripts_imitated_reference :
    compile noteSource = .ok noteProgram.render ∧
      compile noteWithStateSource = .ok noteWithStateProgram.render ∧
      noteProgram.render.document imitatingOptions =
        noteWithStateProgram.render.document imitatingOptions ∧
      noteProgram.render.components.map RenderedComponent.name =
        noteWithStateProgram.render.components.map RenderedComponent.name ∧
      loadedNames (noteProgram.render.document imitatingOptions) = ["A", "C"] ∧
      ["A", "C"].Nodup := by
  have hnote : compile noteSource = .ok noteProgram.render :=
    compile_of_parse (by decide +kernel)
  have hstate : compile noteWithStateSource = .ok noteWithStateProgram.render :=
    compile_of_parse (by decide +kernel)
  have hpage : noteProgram.render.document imitatingOptions =
      noteWithStateProgram.render.document imitatingOptions := by decide +kernel
  obtain ⟨hnames, hloaded, hnodup⟩ :=
    page_tells_scripts hnote hstate imitatingOptions imitatingOptions
  exact ⟨hnote, hstate, hpage, hnames hpage, hloaded, hnodup⟩

end Page
end SiteCompiler
