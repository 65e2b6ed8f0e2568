import SiteCompiler.Proofs.Build.SiteFiles
import SiteCompiler.Proofs.Files.Directories
import SiteCompiler.Proofs.Files.Writing

/-!
# What a build leaves behind

A build that succeeds makes the directory of the site with those above it, puts
the files of the site there, and does nothing else to the tree.

* `write_eq_ok_iff`, `exists_of_build` - a writing and a build, step by step.
* `Published` - the tree behind a build, place by place.
* `published_of_write` - what a writing that succeeds does to a tree.
* `write_new_eq_ok_iff`, `write_new_of_long` - a site that is written into a new
  directory, and one whose writing stops there.
* `published_of_build` - what a build that succeeds does to a tree.
-/

namespace SiteCompiler
namespace Publication

open Files Image Stages

/-! ## Step by step -/

theorem write_eq_ok_iff (site : Site) (tree after : FileTree) (directory : String)
    (options : SiteOptions) :
    site.write tree directory options = (.ok (), after) ↔
      ∃ made, tree.makeDirectories directory = (.ok (), made) ∧
        made.writeFiles directory (site.files options) = (.ok (), after) := by
  unfold Site.write
  rcases hmade : tree.makeDirectories directory with ⟨_ | _, made⟩
  · simp
  · simp

section Build

variable {tree : FileTree} {input directory source : String} {options : SiteOptions} {site : Site}

/-- A source that does not compile leaves the tree as it was. -/
theorem build_of_compile_error {error : CompileError} (hread : tree.readText input = .ok source)
    (hcompile : compile source = .error error) :
    build tree input directory options =
      ⟨.error (.compile error), (compilation source).records, tree⟩ := by
  unfold compile at hcompile
  simp only [build, hread, hcompile]

theorem build_of_compile_ok (hread : tree.readText input = .ok source)
    (hcompile : compile source = .ok site) :
    build tree input directory options =
      ⟨((site.write tree directory options).1.mapError .file).map fun _ => site,
        (compilation source).records, (site.write tree directory options).2⟩ := by
  unfold compile at hcompile
  simp only [build, hread, hcompile]
  rcases site.write tree directory options with ⟨_ | _, written⟩
  · rfl
  · rfl

/-- A build that succeeds has read, compiled and written its site. -/
theorem exists_of_build (h : (build tree input directory options).result = .ok site) :
    ∃ source, tree.readText input = .ok source ∧ compile source = .ok site ∧
      site.write tree directory options = (.ok (), (build tree input directory options).tree) := by
  cases hread : tree.readText input with
  | error fault => simp [build, hread] at h
  | ok source =>
      cases hcompile : compile source with
      | error error => simp [build_of_compile_error hread hcompile] at h
      | ok compiled =>
          rw [build_of_compile_ok hread hcompile] at h ⊢
          rcases hwrite : compiled.write tree directory options with ⟨_ | _, written⟩
          · simp [hwrite, Except.mapError, Except.map] at h
          · obtain rfl : compiled = site := by
              simpa [hwrite, Except.mapError, Except.map] using h
            exact ⟨source, rfl, hcompile, hwrite⟩

end Build

/-! ## Place by place -/

/-- The tree behind a build: the directory of the site stands at `out`, as does whatever leads
there, the files of the site stand in it, and all the rest is as it was. -/
structure Published (before after : FileTree) (directory : String) (options : SiteOptions)
    (site : Site) (out : Location) : Prop where
  workingDirectory : after.workingDirectory = before.workingDirectory
  sound : Sound after
  /-- The text of the directory leads to the directory. -/
  reached : after.directory (Path.parse directory.toList) = .ok out
  /-- What the text leads through is a directory, and was one before if it was there. -/
  made : ∀ location, Passes after (Path.parse directory.toList) location →
    after.find? location = some .directory ∧
      (before.find? location = none ∨ before.find? location = some .directory)
  scripts : ∀ component ∈ site.components,
    after.find? (out ++ [component.name ++ ".js"]) = some (.file component.script.toUTF8)
  page : after.find? (out ++ ["index.html"]) = some (.file (site.document options).toUTF8)
  /-- Each file is read back by the path under which it was written. -/
  readable : ∀ file ∈ site.files options,
    after.readText (Path.join directory file.1) = .ok file.2
  /-- Each file is one step away from the directory. -/
  names : ∀ file ∈ site.files options, IsFileName file.1
  distinct : ((site.files options).map Prod.fst).Nodup
  others : ∀ location, ¬ Passes after (Path.parse directory.toList) location →
    (∀ file ∈ site.files options, location ≠ out ++ [file.1]) →
      after.find? location = before.find? location

section Write

variable {tree after : FileTree} {directory : String} {options : SiteOptions} {site : Site}

theorem published_of_write (hsound : Sound tree)
    (hnames : ∀ file ∈ site.files options, IsFileName file.1)
    (hnodup : ((site.files options).map Prod.fst).Nodup)
    (h : site.write tree directory options = (.ok (), after)) :
    ∃ out, Published tree after directory options site out := by
  obtain ⟨made, hmade, hwritten⟩ := (write_eq_ok_iff site tree after directory options).mp h
  have hextended := extended_of_makeDirectories hsound hmade
  obtain ⟨out, hout⟩ := hextended.reached
  obtain ⟨hcan, rfl⟩ := (writeFiles_eq_ok_iff hout hnames after).mp hwritten
  have hfree : ∀ file ∈ site.files options, made.find? (out ++ [file.1]) ≠ some .directory :=
    fun file hfile => (hcan file hfile).free
  have houtDirectory : made.find? out = some .directory :=
    hextended.sound.walk (hextended.sound.start _) hout
  have hsoundAfter := sound_putFiles hextended.sound houtDirectory hfree
  have hkeeps := keepsDirectories_putFiles hfree
  have hworking : (putFiles made out (site.files options)).workingDirectory =
      made.workingDirectory := workingDirectory_putFiles
  have hreached := directory_of_keeps hworking hkeeps hout
  have hfound : ∀ file ∈ site.files options,
      (putFiles made out (site.files options)).find? (out ++ [file.1]) =
        some (.file file.2.toUTF8) :=
    fun file hfile => find?_putFiles_of_mem hnodup hfile
  refine ⟨out, hworking.trans hextended.workingDirectory, hsoundAfter, hreached, ?made,
    ?scripts, ?page, ?readable, hnames, hnodup, ?others⟩
  case made =>
    intro location hpasses
    have hdirectory := hpasses.find?_eq hsoundAfter
    refine ⟨hdirectory, ?_⟩
    -- A directory is in the place of no file, so it was there before the files were.
    have hmadeDirectory : made.find? location = some .directory := by
      rw [← hdirectory, find?_putFiles_of_ne]
      rintro file hfile rfl
      rw [hfound file hfile] at hdirectory
      cases hdirectory
    rcases hextended.entries location with hsame | ⟨hnone, -⟩
    · exact .inr (hsame.symm.trans hmadeDirectory)
    · exact .inl hnone
  case scripts =>
    intro component hcomponent
    exact hfound _ ((mem_files_iff site options _).mpr (.inl ⟨component, hcomponent, rfl⟩))
  case page =>
    exact hfound _ ((mem_files_iff site options _).mpr (.inr rfl))
  case readable =>
    intro file hfile
    exact readText_join hreached (hnames file hfile) (hcan file hfile).text
      (hcan file hfile).size (hfound file hfile)
  case others =>
    intro location hpasses hne
    rw [find?_putFiles_of_ne hne]
    rcases hextended.entries location with hsame | ⟨-, hmadePasses⟩
    · exact hsame
    · exact (hpasses (hmadePasses.of_keeps hworking hkeeps)).elim

end Write

/-! ## A new directory -/

section New

variable {tree : FileTree} {directory : String}

/-- A directory is made next to what stands in the working directory. -/
theorem makeDirectories_new (h : IsFileName directory) (htext : IsPathText directory)
    (hsize : directory.utf8ByteSize ≤ nameLimit)
    (hnew : tree.find? (tree.workingDirectory ++ [directory]) = none) :
    tree.makeDirectories directory =
        (.ok (), tree.put (tree.workingDirectory ++ [directory]) .directory) ∧
      (tree.put (tree.workingDirectory ++ [directory]) .directory).directory
        (Path.parse directory.toList) = .ok (tree.workingDirectory ++ [directory]) := by
  have hjoin : Path.join "" directory = directory := if_pos (.inr rfl)
  have htarget := target?_parse_join "" h
  have hparent (tree : FileTree) :
      tree.directory (Path.parse directory.toList).parent = .ok tree.workingDirectory := by
    have heq : tree.directory (Path.parse (Path.join "" directory).toList).parent =
        tree.directory (Path.parse "".toList) := directory_parent_join h
    rw [hjoin] at heq
    exact heq
  rw [hjoin] at htarget
  have hmade := (makeDirectory_eq_ok_iff tree _ _).mpr
    ⟨directory, _, htarget, hparent tree, hsize, hnew, rfl⟩
  have hpath := (ofString_eq_ok_iff directory _).mpr ⟨htext, rfl⟩
  constructor
  · rw [FileTree.makeDirectories, if_neg h.ne_empty, hpath]
    simp [FileTree.makePath, hmade, FileTree.settle]
  · exact (directory_eq_ok_of_target htarget (hparent _) _).mpr
      ⟨hsize, rfl, tree.find?_put_self (by simp) _⟩

/-- No directory stands in a new one. -/
theorem find?_below_new_ne (hsound : Sound tree)
    (hnew : tree.find? (tree.workingDirectory ++ [directory]) = none) (name : String) :
    (tree.put (tree.workingDirectory ++ [directory]) .directory).find?
      (tree.workingDirectory ++ [directory] ++ [name]) ≠ some .directory := by
  rw [tree.find?_put_of_ne (by simp), hsound.find?_append_eq_none hnew]
  simp

/-- A site is written into a new directory if no path and no name is too long. -/
theorem write_new_eq_ok_iff (hsound : Sound tree) (h : IsFileName directory)
    (htext : IsPathText directory) (hsize : directory.utf8ByteSize ≤ nameLimit)
    (hnew : tree.find? (tree.workingDirectory ++ [directory]) = none)
    {site : Site} {options : SiteOptions}
    (hnames : ∀ file ∈ site.files options, IsFileName file.1) (after : FileTree) :
    site.write tree directory options = (.ok (), after) ↔
      (∀ file ∈ site.files options,
        IsPathText (Path.join directory file.1) ∧ file.1.utf8ByteSize ≤ nameLimit) ∧
      after = putFiles (tree.put (tree.workingDirectory ++ [directory]) .directory)
        (tree.workingDirectory ++ [directory]) (site.files options) := by
  obtain ⟨hmade, hout⟩ := makeDirectories_new h htext hsize hnew
  have hcan (name : String) : CanHold (tree.put (tree.workingDirectory ++ [directory]) .directory)
      directory (tree.workingDirectory ++ [directory]) name ↔
        IsPathText (Path.join directory name) ∧ name.utf8ByteSize ≤ nameLimit := by
    constructor
    · exact fun hholds => ⟨hholds.text, hholds.size⟩
    · exact fun hfits => ⟨hfits.1, hfits.2, find?_below_new_ne hsound hnew name⟩
  rw [write_eq_ok_iff]
  constructor
  · rintro ⟨made, hmakes, hwrites⟩
    rw [hmade] at hmakes
    cases hmakes
    simpa only [hcan] using (writeFiles_eq_ok_iff hout hnames after).mp hwrites
  · intro hwritten
    refine ⟨_, hmade, (writeFiles_eq_ok_iff hout hnames after).mpr ?_⟩
    simpa only [hcan] using hwritten

/-- The writing of a site into a new directory stops at the first file that has too long a name. -/
theorem write_new_of_long (hsound : Sound tree) (h : IsFileName directory)
    (htext : IsPathText directory) (hsize : directory.utf8ByteSize ≤ nameLimit)
    (hnew : tree.find? (tree.workingDirectory ++ [directory]) = none)
    {site : Site} {options : SiteOptions} {done later : List (String × String)}
    {name text : String} (hfiles : site.files options = done ++ (name, text) :: later)
    (hdone : ∀ file ∈ done, IsFileName file.1 ∧ IsPathText (Path.join directory file.1) ∧
      file.1.utf8ByteSize ≤ nameLimit)
    (hname : IsFileName name) (hnul : '\x00' ∉ (Path.join directory name).toList)
    (hlong : nameLimit < name.utf8ByteSize) :
    site.write tree directory options =
      (.error ⟨Path.join directory name, .nameTooLong⟩,
        putFiles (tree.put (tree.workingDirectory ++ [directory]) .directory)
          (tree.workingDirectory ++ [directory]) done) := by
  obtain ⟨hmade, hout⟩ := makeDirectories_new h htext hsize hnew
  have hfree : ∀ file ∈ done, (tree.put (tree.workingDirectory ++ [directory]) .directory).find?
      (tree.workingDirectory ++ [directory] ++ [file.1]) ≠ some .directory :=
    fun file _ => find?_below_new_ne hsound hnew file.1
  have hwritten := (writeFiles_eq_ok_iff hout (fun file hfile => (hdone file hfile).1) _).mpr
    ⟨fun file hfile => ⟨(hdone file hfile).2.1, (hdone file hfile).2.2, hfree file hfile⟩, rfl⟩
  -- The directory is still there behind the files that have been written.
  have houtAfter := directory_of_keeps workingDirectory_putFiles (keepsDirectories_putFiles hfree)
    hout
  have hrefused := writeBytes_join_of_long houtAfter hname hnul hlong text.toUTF8
  rw [Site.write, hmade]
  show FileTree.writeFiles _ directory (site.files options) = _
  rw [hfiles, writeFiles_append_of_ok hwritten, writeFiles_cons, hrefused]

end New

/-! ## Builds -/

/-- A build that succeeds has compiled what its input held before, and its tree is the published
one. -/
theorem published_of_build {tree : FileTree} (hsound : Sound tree) {input directory : String}
    {options : SiteOptions} {site : Site}
    (h : (build tree input directory options).result = .ok site) :
    ∃ source out, tree.readText input = .ok source ∧ compile source = .ok site ∧
      Published tree (build tree input directory options).tree directory options site out := by
  obtain ⟨source, hread, hcompile, hwrite⟩ := exists_of_build h
  have hnames : ∀ file ∈ site.files options, IsFileName file.1 :=
    fun file hfile => isFileName_of_mem_files (fun _ => isClassName_of_compile hcompile) hfile
  have hnodup := nodup_files (nodup_names_of_compile hcompile) options
  obtain ⟨out, hpublished⟩ := published_of_write hsound hnames hnodup hwrite
  exact ⟨source, out, hread, hcompile, hpublished⟩

/-- A directory with a source in it, and nothing besides. -/
def sourceTree (source : String) : FileTree :=
  (FileTree.fresh ["work"]).put ["work", "main.zy"] (.file source.toUTF8)

theorem sound_sourceTree (source : String) : Sound (sourceTree source) := by
  have hfree : (FileTree.fresh ["work"]).find? ["work", "main.zy"] ≠ some .directory := by
    rw [Ne, find?_fresh_eq_some_iff]
    exact fun h => absurd h.2 (by decide)
  exact sound_put (sound_fresh ["work"]) hfree (FileTree.find?_fresh_self ["work"]) _

theorem readText_sourceTree (source : String) :
    (sourceTree source).readText "main.zy" = .ok source := by
  have hname : IsFileName "main.zy" := by constructor <;> decide
  have htext : IsPathText (Path.join "" "main.zy") := by constructor <;> decide
  exact readText_join (directory_parse_empty (sourceTree source)) hname htext (by decide)
    (FileTree.find?_put_self _ (by decide) _)

theorem result_build_one_component :
    (build (sourceTree "component A { }") "main.zy" "out" ⟨"A"⟩).result =
      .ok (Program.render ⟨[⟨"A", []⟩]⟩) := by
  have hcompile : compile "component A { }" = .ok (Program.render ⟨[⟨"A", []⟩]⟩) :=
    compile_of_parse (by decide +kernel)
  have hout : IsFileName "out" := by constructor <;> decide
  have htext : IsPathText "out" := by constructor <;> decide
  have hnames : ∀ file ∈ (Program.render ⟨[⟨"A", []⟩]⟩).files ⟨"A"⟩, IsFileName file.1 :=
    fun file hfile => isFileName_of_mem_files (fun _ => isClassName_of_compile hcompile) hfile
  have hfits : ∀ file ∈ (Program.render ⟨[⟨"A", []⟩]⟩).files ⟨"A"⟩,
      IsPathText (Path.join "out" file.1) ∧ file.1.utf8ByteSize ≤ nameLimit := by
    intro file hfile
    have hname : file.1 ∈ ["A.js", "index.html"] := List.mem_map_of_mem hfile
    rcases List.mem_pair.mp hname with hname | hname <;> rw [hname]
    · exact ⟨by constructor <;> decide, by decide⟩
    · exact ⟨by constructor <;> decide, by decide⟩
  have hwrite := (write_new_eq_ok_iff (sound_sourceTree "component A { }") hout htext (by decide)
    rfl hnames _).mpr ⟨hfits, rfl⟩
  rw [build_of_compile_ok (readText_sourceTree _) hcompile, hwrite]
  rfl

/-- A build of one component into a new directory. -/
theorem published_of_build_one_component :
    Sound (sourceTree "component A { }") ∧
      (build (sourceTree "component A { }") "main.zy" "out" ⟨"A"⟩).result =
        .ok (Program.render ⟨[⟨"A", []⟩]⟩) ∧
      ∃ source out, (sourceTree "component A { }").readText "main.zy" = .ok source ∧
        compile source = .ok (Program.render ⟨[⟨"A", []⟩]⟩) ∧
        Published (sourceTree "component A { }")
          (build (sourceTree "component A { }") "main.zy" "out" ⟨"A"⟩).tree "out" ⟨"A"⟩
          (Program.render ⟨[⟨"A", []⟩]⟩) out :=
  ⟨sound_sourceTree _, result_build_one_component,
    published_of_build (sound_sourceTree _) result_build_one_component⟩

end Publication
end SiteCompiler
