import SiteCompiler.Build
import SiteCompiler.Proofs.Files.Writing

/-!
# Writings that stop

A site is written file by file, and nothing is taken back.  So a writing that
stops leaves the files before the one that was refused, each as a whole, and
nothing of the others, whatever the names of the components are: two of them may
be the same, or lead out of the directory, or to where another file stands.

* `Written` - the tree behind some files, place by place.
* `writeFiles_eq_ok_iff_written`, `writeFiles_eq_error_iff` - all files, or those
  before the first that is refused.
* `WriteEnds` - the ways in which a writing ends.
* `write_eq_iff_ends` - of any site, into any directory of any tree.
-/

namespace SiteCompiler
namespace Publication

open Files

/-- The files have been written into the directory, one after the other: each where its path leads
and as a whole, and nothing else has been done. -/
structure Written (before : FileTree) (directory : String) (files : List (String × String))
    (writes : List (Location × String)) (after : FileTree) : Prop where
  takes : List.Forall₂
    (fun file write => Takes before (Path.join directory file.1) write.1 ∧ write.2 = file.2)
    files writes
  tree : after = putEach before writes
  /-- The last file whose path leads to a place stands there. -/
  contents : ∀ location, after.find? location =
    match lastText writes location with
    | some text => some (.file text.toUTF8)
    | none => before.find? location

section Files

variable {before after : FileTree} {directory : String} {files : List (String × String)}
  {writes : List (Location × String)}

theorem written_putEach
    (h : List.Forall₂
      (fun file write => Takes before (Path.join directory file.1) write.1 ∧ write.2 = file.2)
      files writes) :
    Written before directory files writes (putEach before writes) := by
  have hplaces : ∀ write ∈ writes, write.1 ≠ [] := by
    induction h with
    | nil => simp
    | cons hwrite _ ih => exact List.forall_mem_cons.mpr ⟨hwrite.1.ne_root, ih⟩
  exact ⟨h, rfl, find?_putEach hplaces⟩

/-- A file in its place does not change where the others can be written. -/
theorem forall₂_takes_put_iff {place : Location} (hfree : before.find? place ≠ some .directory)
    (content : ByteArray) :
    List.Forall₂ (fun file write => Takes (before.put place (.file content))
        (Path.join directory file.1) write.1 ∧ write.2 = file.2) files writes ↔
      List.Forall₂
        (fun file write => Takes before (Path.join directory file.1) write.1 ∧ write.2 = file.2)
        files writes := by
  simp only [takes_put_iff hfree]

/-- All files are written if each of them can be, and only then. -/
theorem writeFiles_eq_ok_iff_written :
    before.writeFiles directory files = (.ok (), after) ↔
      ∃ writes, Written before directory files writes after := by
  induction files generalizing before with
  | nil =>
      rw [writeFiles_nil]
      constructor
      · rintro ⟨⟩
        exact ⟨[], written_putEach .nil⟩
      · rintro ⟨writes, htakes, rfl, -⟩
        cases htakes
        rfl
  | cons file files ih =>
      obtain ⟨name, text⟩ := file
      have hiff := writeBytes_eq_ok_iff before (Path.join directory name) text.toUTF8
      rw [writeFiles_cons]
      cases hwrite : before.writeBytes (Path.join directory name) text.toUTF8 with
      | error fault =>
          constructor
          · rintro ⟨⟩
          · rintro ⟨_, htakes, -, -⟩
            obtain _ | ⟨hfirst, -⟩ := htakes
            have hok := (hiff _).mpr ⟨_, hfirst.1, rfl⟩
            rw [hwrite] at hok
            cases hok
      | ok next =>
          show next.writeFiles directory files = (.ok (), after) ↔ _
          rw [ih]
          obtain ⟨place, hplace, rfl⟩ := (hiff next).mp hwrite
          constructor
          · rintro ⟨writes, hrest, rfl, -⟩
            rw [forall₂_takes_put_iff hplace.free] at hrest
            exact ⟨(place, text) :: writes, written_putEach (.cons ⟨hplace, rfl⟩ hrest)⟩
          · rintro ⟨_, htakes, rfl, -⟩
            obtain _ | @⟨_, ⟨other, _⟩, _, writes, ⟨hother, rfl⟩, hrest⟩ := htakes
            -- A path leads to one place.
            have hsame := (hiff _).mpr ⟨other, hother, rfl⟩
            rw [hwrite, Except.ok.injEq] at hsame
            rw [← forall₂_takes_put_iff hother.free, ← hsame] at hrest
            rw [putEach, ← hsame]
            exact ⟨writes, written_putEach hrest⟩

/-- A writing stops at the first file that is refused: those before it have been written, and the
refusal is said of its path. -/
theorem writeFiles_eq_error_iff {error : FileError} :
    before.writeFiles directory files = (.error error, after) ↔
      ∃ done name text later fault, files = done ++ (name, text) :: later ∧
        before.writeFiles directory done = (.ok (), after) ∧
          after.writeBytes (Path.join directory name) text.toUTF8 = .error fault ∧
            error = ⟨Path.join directory name, fault⟩ := by
  constructor
  · intro h
    induction files generalizing before with
    | nil => cases h
    | cons file files ih =>
        obtain ⟨name, text⟩ := file
        rw [writeFiles_cons] at h
        cases hwrite : before.writeBytes (Path.join directory name) text.toUTF8 with
        | error fault =>
            rw [hwrite] at h
            cases h
            exact ⟨[], name, text, files, fault, rfl, writeFiles_nil, hwrite, rfl⟩
        | ok next =>
            rw [hwrite] at h
            obtain ⟨done, other, content, later, fault, rfl, hdone, hfault, rfl⟩ := ih h
            refine ⟨(name, text) :: done, other, content, later, fault, rfl, ?_, hfault, rfl⟩
            rw [writeFiles_cons, hwrite]
            exact hdone
  · rintro ⟨done, name, text, later, fault, rfl, hdone, hfault, rfl⟩
    rw [writeFiles_append_of_ok hdone, writeFiles_cons, hfault]

end Files

/-! ## Sites -/

/-- The ways in which the writing of files into a directory ends: with what result, and with what
tree. -/
inductive WriteEnds (tree : FileTree) (directory : String) (files : List (String × String)) :
    Except FileError Unit → FileTree → Prop where
  /-- The directory is refused. -/
  | unmade {fault : FileFault} {made : FileTree}
      (refused : tree.makeDirectories directory = (.error fault, made))
      (untouched : AddsDirectories tree made) :
      WriteEnds tree directory files (.error ⟨directory, fault⟩) made
  /-- A file is refused: those before it have been written, and none behind it. -/
  | stopped {made after : FileTree} {done later : List (String × String)} {name text : String}
      {writes : List (Location × String)} {fault : FileFault}
      (ready : tree.makeDirectories directory = (.ok (), made))
      (untouched : AddsDirectories tree made)
      (split : files = done ++ (name, text) :: later)
      (first : Written made directory done writes after)
      (refused : after.writeBytes (Path.join directory name) text.toUTF8 = .error fault) :
      WriteEnds tree directory files (.error ⟨Path.join directory name, fault⟩) after
  /-- All files have been written. -/
  | written {made after : FileTree} {writes : List (Location × String)}
      (ready : tree.makeDirectories directory = (.ok (), made))
      (untouched : AddsDirectories tree made)
      (all : Written made directory files writes after) :
      WriteEnds tree directory files (.ok ()) after

/-- The writing of a site ends in one of these ways: its scripts are written in the order of its
components and its document behind them. -/
theorem write_eq_iff_ends (site : Site) (tree : FileTree) (directory : String)
    (options : SiteOptions) (result : Except FileError Unit) (after : FileTree) :
    site.write tree directory options = (result, after) ↔
      WriteEnds tree directory
        (site.components.map (fun component => (component.name ++ ".js", component.script)) ++
          [("index.html", site.document options)])
        result after := by
  have huntouched := addsDirectories_makeDirectories tree directory
  unfold Site.write
  rcases hmake : tree.makeDirectories directory with ⟨fault | ⟨⟩, made⟩
  · constructor
    · rintro ⟨⟩
      rw [hmake] at huntouched
      exact .unmade hmake huntouched
    · rintro (⟨hrefused, -⟩ | ⟨hready, -⟩ | ⟨hready, -⟩)
      · rw [hmake] at hrefused
        cases hrefused
        rfl
      · rw [hmake] at hready
        cases hready
      · rw [hmake] at hready
        cases hready
  · show made.writeFiles directory (site.files options) = (result, after) ↔ _
    rw [hmake] at huntouched
    constructor
    · intro hwrite
      cases result with
      | ok _ =>
          obtain ⟨writes, hall⟩ := writeFiles_eq_ok_iff_written.mp hwrite
          exact .written hmake huntouched hall
      | error error =>
          obtain ⟨done, name, text, later, fault, hfiles, hdone, hrefused, rfl⟩ :=
            writeFiles_eq_error_iff.mp hwrite
          obtain ⟨writes, hfirst⟩ := writeFiles_eq_ok_iff_written.mp hdone
          exact .stopped hmake huntouched hfiles hfirst hrefused
    · rintro (⟨hrefused, -⟩ | ⟨hready, -, hfiles, hfirst, hrefused⟩ | ⟨hready, -, hall⟩)
      · rw [hmake] at hrefused
        cases hrefused
      · rw [hmake] at hready
        cases hready
        have hdone := writeFiles_eq_ok_iff_written.mpr ⟨_, hfirst⟩
        exact writeFiles_eq_error_iff.mpr ⟨_, _, _, _, _, hfiles, hdone, hrefused, rfl⟩
      · rw [hmake] at hready
        cases hready
        exact writeFiles_eq_ok_iff_written.mpr ⟨_, hall⟩

end Publication
end SiteCompiler
