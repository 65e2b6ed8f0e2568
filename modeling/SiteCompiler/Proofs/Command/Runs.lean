import SiteCompiler.CommandLine
import SiteCompiler.Proofs.Build.Publication

/-!
# Runs of the command

The command is asked to build the site of one source, where no site has been built
yet.  What it answers, and the tree behind it, is said by the bundle of the source
alone.

* `ofArguments_singleton` - one argument asks for a build.
* `FreshRun` - a run where no site has been built yet.
* `HoldsBundle`, `NamesFit` - a directory with the files of a bundle, and the
  bundles that a directory can hold.
* `StopsAtName` - a run that stops at the first name that a directory cannot hold.
* `perform_of_compile_error`, `perform_of_names_fit`, `stops_of_not_names_fit` - the
  three outcomes.
* `freshRun_sourceTree` - every source can be run.
-/

namespace SiteCompiler
namespace Command

open Files Image Publication Stages

/-! ## One argument -/

/-- A text that is no option: at most a hyphen by itself. -/
structure IsOperand (text : String) : Prop where
  ne_empty : text ≠ ""
  noOption : text.toList.head? = some '-' → text = "-"

theorem ofText_eq_operand {text : String} (h : IsOperand text) :
    Argument.ofText text = .operand text := by
  have hhyphen {rest : List Char} (htext : text.toList = '-' :: rest) : rest = [] := by
    rw [h.noOption (by simp [htext])] at htext
    exact (List.cons.inj htext).2.symm
  unfold Argument.ofText
  split
  · rename_i htext
    cases hhyphen htext
  · rename_i htext
    cases hhyphen htext
  · rename_i htext
    cases hhyphen htext
  · rfl

/-- One argument that is no option is the path of a source to build. -/
theorem ofArguments_singleton {text : String} (h : IsOperand text) :
    Request.ofArguments [text] = .build text := by
  simp [Request.ofArguments, Request.ofArgumentsAfter, ofText_eq_operand h, Request.ofOperands,
    h.ne_empty]

/-- A build of one source, next to which no site stands yet. -/
structure FreshRun (tree : FileTree) (input source : String) : Prop where
  sound : Sound tree
  noSite : tree.find? (tree.workingDirectory ++ ["dist"]) = none
  reads : tree.readText input = .ok source

/-! ## Replies -/

section Replies

variable (records : List Record) (message : String)

theorem exit_ofBuild_some : (Reply.ofBuild records (some message)).exit = 1 := rfl

theorem output_ofBuild_some : (Reply.ofBuild records (some message)).output = "" := rfl

/-- The message of a failure comes last. -/
theorem errors_ofBuild_some :
    (Reply.ofBuild records (some message)).errors =
      unlines (Reply.warnings records) ++ ("Error: " ++ message ++ "\n") := by
  simp only [Reply.ofBuild, unlines_append]
  rfl

end Replies

/-! ## The files of a bundle -/

/-- The directory holds the page and the scripts of the bundle, and nothing else. -/
structure HoldsBundle (tree : FileTree) (out : Location) (compiled : Bundle) : Prop where
  directory : tree.find? out = some .directory
  page : tree.find? (out ++ ["index.html"]) = some (.file compiled.document.toUTF8)
  scripts : ∀ entry ∈ compiled.scripts,
    tree.find? (out ++ [entry.1 ++ ".js"]) = some (.file entry.2.toUTF8)
  /-- No two scripts have one file. -/
  distinct : (compiled.scripts.map Prod.fst).Nodup
  nothingElse : ∀ rest, rest ≠ [] → tree.find? (out ++ rest) ≠ none →
    rest = ["index.html"] ∨ ∃ entry ∈ compiled.scripts, rest = [entry.1 ++ ".js"]

/-- No script has a file of too long a name. -/
def NamesFit (compiled : Bundle) : Prop :=
  ∀ entry ∈ compiled.scripts, (entry.1 ++ ".js").utf8ByteSize ≤ nameLimit

/-- A run stops at the first script whose file has too long a name.  The last line of its errors
tells of that file, and the new directory holds the scripts in front of it and nothing else. -/
inductive StopsAtName (tree : FileTree) (compiled : Bundle) (reply : Reply) (after : FileTree) :
    Prop
  | intro {fitting rest : List (String × String)} {name script warnings : String}
      (split : compiled.scripts = fitting ++ (name, script) :: rest)
      (fit : ∀ entry ∈ fitting, (entry.1 ++ ".js").utf8ByteSize ≤ nameLimit)
      (long : nameLimit < (name ++ ".js").utf8ByteSize)
      (told : reply.errors = warnings ++
        ("Error: I/O error on dist/" ++ name ++ ".js: File name too long (os error 36)\n"))
      (left : after = putFiles (tree.put (tree.workingDirectory ++ ["dist"]) .directory)
        (tree.workingDirectory ++ ["dist"]) (fitting.map fun entry => (entry.1 ++ ".js", entry.2)))

theorem error_line_nameTooLong (component : RenderedComponent) :
    "Error: " ++ FileError.message ⟨"dist" ++ "/" ++ component.scriptFile, .nameTooLong⟩ ++ "\n" =
      "Error: I/O error on dist/" ++ component.name ++
        ".js: File name too long (os error 36)\n" := by
  have hdetail : FileFault.nameTooLong.detail = "File name too long (os error 36)" := by decide
  simp [← String.toList_inj, FileError.message, fileReport, hdetail, toList_scriptFile]

theorem namesFit_bundle_iff (site : Site) :
    NamesFit site.bundle ↔
      ∀ component ∈ site.components, component.scriptFile.utf8ByteSize ≤ nameLimit := by
  simp [NamesFit, Site.bundle, RenderedComponent.scriptFile]

theorem isFileName_dist : IsFileName "dist" := by
  constructor <;> decide

theorem isPathText_dist : IsPathText "dist" := by
  constructor <;> decide

theorem nul_not_mem_scriptFile {component : RenderedComponent} (h : IsClassName component.name) :
    '\x00' ∉ component.scriptFile.toList := by
  have hname : '\x00' ∉ component.name.toList :=
    not_mem_of_isClassName h (by decide) (by decide)
  simp [toList_scriptFile, hname]

theorem join_dist {name : String} (h : IsFileName name) :
    Path.join "dist" name = "dist" ++ "/" ++ name := by
  have hstart : ¬ (name.toList.head? = some '/' ∨ "dist" = "") := by
    rintro (hhead | hempty)
    · exact h.single (List.mem_of_head? hhead)
    · exact absurd hempty (by decide)
  rw [Path.join, if_neg hstart, if_neg (by decide)]

/-- Names that fit make paths that fit. -/
theorem isPathText_join_dist {name : String} (h : IsFileName name) (hnul : '\x00' ∉ name.toList)
    (hsize : name.utf8ByteSize ≤ nameLimit) : IsPathText (Path.join "dist" name) := by
  rw [join_dist h]
  refine ⟨by simp [hnul], ?_, by simp⟩
  have hfront : ("dist" ++ "/").utf8ByteSize = 5 := by decide
  rw [String.utf8ByteSize_append, hfront]
  simp only [nameLimit, Path.textLimit] at hsize ⊢
  omega

section Site

variable {site : Site} (hnames : ∀ component ∈ site.components, IsClassName component.name)
include hnames

theorem fits_iff_namesFit (options : SiteOptions) :
    (∀ file ∈ site.files options,
      IsPathText (Path.join "dist" file.1) ∧ file.1.utf8ByteSize ≤ nameLimit) ↔
      NamesFit site.bundle := by
  rw [namesFit_bundle_iff]
  constructor
  · intro h component hcomponent
    exact (h _ ((mem_files_iff site options _).mpr (.inl ⟨component, hcomponent, rfl⟩))).2
  · intro h file hfile
    rcases (mem_files_iff site options file).mp hfile with ⟨component, hcomponent, rfl⟩ | rfl
    · have hname := hnames component hcomponent
      have hsize := h component hcomponent
      exact ⟨isPathText_join_dist (isFileName_scriptFile hname) (nul_not_mem_scriptFile hname)
        hsize, hsize⟩
    · have hnul : '\x00' ∉ Site.pageFile.toList := by decide
      have hsize : Site.pageFile.utf8ByteSize ≤ nameLimit := by decide
      exact ⟨isPathText_join_dist isFileName_pageFile hnul hsize, hsize⟩

end Site

/-- The files of a site, put into a new directory, are those of its bundle. -/
theorem holdsBundle_putFiles {tree : FileTree} (hsound : Sound tree) {out : Location}
    (hout : out ≠ []) (hnone : tree.find? out = none) {site : Site}
    (hnodup : (site.components.map RenderedComponent.name).Nodup) :
    HoldsBundle (putFiles (tree.put out .directory) out (site.files .standard)) out
      site.bundle := by
  have hfound : ∀ file ∈ site.files .standard,
      (putFiles (tree.put out .directory) out (site.files .standard)).find? (out ++ [file.1]) =
        some (.file file.2.toUTF8) :=
    fun file hfile => find?_putFiles_of_mem (nodup_files hnodup .standard) hfile
  refine ⟨?directory, ?page, ?scripts, ?distinct, ?nothingElse⟩
  case directory =>
    rw [find?_putFiles_of_ne (by simp), tree.find?_put_self hout]
  case page =>
    exact hfound _ ((mem_files_iff site .standard _).mpr (.inr rfl))
  case scripts =>
    intro entry hentry
    obtain ⟨component, hcomponent, rfl⟩ := List.mem_map.mp hentry
    exact hfound _ ((mem_files_iff site .standard _).mpr (.inl ⟨component, hcomponent, rfl⟩))
  case distinct =>
    simpa [Site.bundle, Function.comp_def] using hnodup
  case nothingElse =>
    intro rest hrest hstands
    by_contra hother
    have hne : ∀ file ∈ site.files .standard, out ++ rest ≠ out ++ [file.1] := by
      intro file hfile heq
      have hfileRest : rest = [file.1] := List.append_cancel_left heq
      rcases (mem_files_iff site .standard file).mp hfile with ⟨component, hcomponent, rfl⟩ | rfl
      · exact hother (.inr ⟨(component.name, component.script), List.mem_map_of_mem hcomponent,
          hfileRest⟩)
      · exact hother (.inl hfileRest)
    apply hstands
    rw [find?_putFiles_of_ne hne, tree.find?_put_of_ne (by simpa using hrest),
      hsound.find?_append_eq_none hnone]

/-! ## The three outcomes -/

section Outcomes

variable {tree : FileTree} {input source : String} (hrun : FreshRun tree input source)
include hrun

/-- A source that does not compile: its error is told, and nothing is done. -/
theorem perform_of_compile_error {error : CompileError} (h : compile source = .error error) :
    (Request.build input).perform tree =
      (.ofBuild (compilation source).records (some error.message), tree) := by
  simp only [Request.perform, build_of_compile_error hrun.reads h]
  rfl

theorem perform_of_compile_ok {site : Site} (h : compile source = .ok site) :
    (Request.build input).perform tree =
      (.ofBuild (compilation source).records
        (match (site.write tree "dist" .standard).1 with
          | .ok () => none
          | .error error => some error.message),
        (site.write tree "dist" .standard).2) := by
  simp only [Request.perform, Reply.siteDirectory, build_of_compile_ok hrun.reads h]
  rcases site.write tree "dist" .standard with ⟨_ | _, written⟩
  · rfl
  · rfl

/-- A site is written if and only if all its names fit. -/
theorem write_dist_eq_ok_iff {site : Site} (h : compile source = .ok site) (after : FileTree) :
    site.write tree "dist" .standard = (.ok (), after) ↔
      NamesFit site.bundle ∧
        after = putFiles (tree.put (tree.workingDirectory ++ ["dist"]) .directory)
          (tree.workingDirectory ++ ["dist"]) (site.files .standard) := by
  have hclass : ∀ component ∈ site.components, IsClassName component.name :=
    fun component hcomponent => isClassName_of_compile h hcomponent
  rw [write_new_eq_ok_iff hrun.sound isFileName_dist isPathText_dist (by decide) hrun.noSite
    (fun file hfile => isFileName_of_mem_files hclass hfile), fits_iff_namesFit hclass]

/-- A site whose names fit is written as a whole. -/
theorem perform_of_names_fit {site : Site} (h : compile source = .ok site)
    (hfit : NamesFit site.bundle) :
    ((Request.build input).perform tree).1.exit = 0 ∧
      HoldsBundle ((Request.build input).perform tree).2
        (tree.workingDirectory ++ ["dist"]) site.bundle := by
  have hwrite := (write_dist_eq_ok_iff hrun h _).mpr ⟨hfit, rfl⟩
  rw [perform_of_compile_ok hrun h, hwrite]
  exact ⟨rfl, holdsBundle_putFiles hrun.sound (by simp) hrun.noSite (nodup_names_of_compile h)⟩

/-- The first script whose file has too long a name stops the writing. -/
theorem write_dist_of_long {site : Site} (h : compile source = .ok site)
    {front back : List RenderedComponent} {component : RenderedComponent}
    (hcomponents : site.components = front ++ component :: back)
    (hfront : ∀ other ∈ front, other.scriptFile.utf8ByteSize ≤ nameLimit)
    (hlong : nameLimit < component.scriptFile.utf8ByteSize) :
    site.write tree "dist" .standard =
      (.error ⟨"dist" ++ "/" ++ component.scriptFile, .nameTooLong⟩,
        putFiles (tree.put (tree.workingDirectory ++ ["dist"]) .directory)
          (tree.workingDirectory ++ ["dist"])
          (front.map fun other => (other.scriptFile, other.script))) := by
  have hpath : ∀ other ∈ site.components,
      IsFileName other.scriptFile ∧ '\x00' ∉ other.scriptFile.toList := by
    intro other hother
    have hclass := isClassName_of_compile h hother
    exact ⟨isFileName_scriptFile hclass, nul_not_mem_scriptFile hclass⟩
  have hfiles : site.files .standard =
      (front.map fun other => (other.scriptFile, other.script)) ++
        (component.scriptFile, component.script) ::
          ((back.map fun other => (other.scriptFile, other.script)) ++
            [(Site.pageFile, site.document .standard)]) := by
    simp [Site.files, hcomponents]
  have hdone : ∀ file ∈ front.map fun other => (other.scriptFile, other.script),
      IsFileName file.1 ∧ IsPathText (Path.join "dist" file.1) ∧
        file.1.utf8ByteSize ≤ nameLimit := by
    intro file hfile
    obtain ⟨other, hother, rfl⟩ := List.mem_map.mp hfile
    obtain ⟨hname, hnul⟩ := hpath other (hcomponents ▸ List.mem_append_left _ hother)
    exact ⟨hname, isPathText_join_dist hname hnul (hfront other hother), hfront other hother⟩
  obtain ⟨hname, hnul⟩ := hpath component (by simp [hcomponents])
  rw [write_new_of_long hrun.sound isFileName_dist isPathText_dist (by decide) hrun.noSite hfiles
    hdone hname (by simp [join_dist hname, hnul]) hlong, join_dist hname]

/-- A name that does not fit ends the run, with nothing said but the error. -/
theorem stops_of_not_names_fit {site : Site} (h : compile source = .ok site)
    (hfit : ¬ NamesFit site.bundle) :
    ((Request.build input).perform tree).1.exit = 1 ∧
      ((Request.build input).perform tree).1.output = "" ∧
      StopsAtName tree site.bundle ((Request.build input).perform tree).1
        ((Request.build input).perform tree).2 := by
  rw [namesFit_bundle_iff] at hfit
  obtain ⟨front, component, back, hcomponents, hfront, hlong⟩ :
      ∃ front component back, site.components = front ++ component :: back ∧
        (∀ other ∈ front, other.scriptFile.utf8ByteSize ≤ nameLimit) ∧
          nameLimit < component.scriptFile.utf8ByteSize := by
    obtain ⟨found, hfound⟩ : ∃ found, site.components.find? (fun component =>
        decide (nameLimit < component.scriptFile.utf8ByteSize)) = some found := by
      rw [← Option.isSome_iff_exists, List.find?_isSome]
      simpa using hfit
    obtain ⟨hlong, front, back, hcomponents, hfront⟩ := List.find?_eq_some_iff_append.mp hfound
    exact ⟨front, found, back, hcomponents, by simpa using hfront, by simpa using hlong⟩
  have hsplit : site.bundle.scripts =
      (front.map fun other => (other.name, other.script)) ++ (component.name, component.script) ::
        back.map fun other => (other.name, other.script) := by
    simp [Site.bundle, hcomponents]
  have hfits : ∀ entry ∈ front.map fun other => (other.name, other.script),
      (entry.1 ++ ".js").utf8ByteSize ≤ nameLimit := by
    intro entry hentry
    obtain ⟨other, hother, rfl⟩ := List.mem_map.mp hentry
    exact hfront other hother
  rw [perform_of_compile_ok hrun h, write_dist_of_long hrun h hcomponents hfront hlong]
  have htold := errors_ofBuild_some (compilation source).records
    (FileError.message ⟨"dist" ++ "/" ++ component.scriptFile, .nameTooLong⟩)
  rw [error_line_nameTooLong] at htold
  refine ⟨exit_ofBuild_some _ _, output_ofBuild_some _ _, .intro hsplit hfits hlong htold ?left⟩
  case left =>
    simp [RenderedComponent.scriptFile, Function.comp_def]

end Outcomes

/-- Every source can be run. -/
theorem freshRun_sourceTree (source : String) :
    FreshRun (sourceTree source) "main.zy" source :=
  ⟨sound_sourceTree source, rfl, readText_sourceTree source⟩

end Command
end SiteCompiler
