import SiteCompiler.FileTree.Operation
import SiteCompiler.Proofs.Files.Directories
import Mathlib.Data.List.Forall2

/-!
# Places of files

Any text may be given as the path of a file: it may lead up and down, start at
the root or end in a directory.  What is written there goes to one place, and the
paths of other files lead where they led before.

* `Takes` - a file can be written where a path leads, and in which place.
* `writeBytes_eq_ok_iff` - a file is written in its place, or not at all.
* `takes_put_iff` - a file that is written leaves all other paths as they were.
* `putEach`, `find?_putEach` - files in their places; of several in one place the
  last remains.
* `AddsDirectories`, `addsDirectories_makeDirectories` - a directory may be
  refused, but no file is touched for it.
-/

namespace SiteCompiler
namespace Files

/-! ## One file -/

/-- A file can be written where the path leads, and this is its place: the name of the file in a
directory that is there. -/
structure Takes (tree : FileTree) (text : String) (place : Location) : Prop where
  path : IsPathText text
  ending : (Path.parse text.toList).ending = .plain
  inside : ∃ name above, (Path.parse text.toList).target? = some name ∧
    tree.directory (Path.parse text.toList).parent = .ok above ∧
      name.utf8ByteSize ≤ nameLimit ∧ place = above ++ [name]
  free : tree.find? place ≠ some .directory

section OneFile

variable {tree : FileTree} {text : String} {place location : Location}

theorem Takes.ne_root (h : Takes tree text place) : place ≠ [] := by
  rintro rfl
  exact h.free tree.find?_root

/-- A file is written in the place to which its path leads, and nothing else is done. -/
theorem writeBytes_eq_ok_iff (tree : FileTree) (text : String) (content : ByteArray)
    (written : FileTree) :
    tree.writeBytes text content = .ok written ↔
      ∃ place, Takes tree text place ∧ written = tree.put place (.file content) := by
  unfold FileTree.writeBytes
  simp only [bind_eq_ok_iff, ofString_eq_ok_iff]
  constructor
  · rintro ⟨_, ⟨htext, rfl⟩, hwritten⟩
    split at hwritten
    case h_1 name htarget hending =>
      simp only [bind_eq_ok_iff, FileTree.locate, child_eq_ok_iff] at hwritten
      obtain ⟨_, ⟨above, habove, hsize, rfl⟩, hput⟩ := hwritten
      split at hput
      · cases hput
      · rename_i hfree
        cases hput
        exact ⟨_, ⟨htext, hending, ⟨name, above, htarget, habove, hsize, rfl⟩, hfree⟩, rfl⟩
    case h_2 =>
      obtain ⟨_, -, herror⟩ := (bind_eq_ok_iff _ _ _).mp hwritten
      cases herror
    case h_3 =>
      obtain ⟨_, -, herror⟩ := (bind_eq_ok_iff _ _ _).mp hwritten
      cases herror
  · rintro ⟨place, ⟨htext, hending, ⟨name, above, htarget, habove, hsize, rfl⟩, hfree⟩, rfl⟩
    refine ⟨_, ⟨htext, rfl⟩, ?_⟩
    simp only [htarget, hending, bind_eq_ok_iff, FileTree.locate, child_eq_ok_iff]
    refine ⟨_, ⟨above, habove, hsize, rfl⟩, ?_⟩
    split
    · contradiction
    · rfl

/-! ## Files and the paths of others -/

/-- No directory comes into being with a file. -/
theorem keepsDirectories_of_put (hplace : place ≠ []) (content : ByteArray) :
    KeepsDirectories (tree.put place (.file content)) tree := by
  intro other hother
  by_cases hsame : other = place
  · rw [hsame, tree.find?_put_self hplace] at hother
    cases hother
  · rwa [tree.find?_put_of_ne hsame] at hother

/-- A path leads to the same directory before and behind a file that is written. -/
theorem directory_put_iff (hfree : tree.find? place ≠ some .directory) (content : ByteArray)
    (path : Path) (location : Location) :
    (tree.put place (.file content)).directory path = .ok location ↔
      tree.directory path = .ok location := by
  have hplace : place ≠ [] := by
    rintro rfl
    exact hfree tree.find?_root
  have hworking := tree.workingDirectory_put place (.file content)
  constructor
  · exact directory_of_keeps hworking.symm (keepsDirectories_of_put hplace content)
  · exact directory_of_keeps hworking (keepsDirectories_put hfree _)

/-- A file that is written does not stand in the way of other files. -/
theorem find?_put_ne_directory_iff (hfree : tree.find? place ≠ some .directory)
    (content : ByteArray) (location : Location) :
    (tree.put place (.file content)).find? location ≠ some .directory ↔
      tree.find? location ≠ some .directory := by
  by_cases hsame : location = place
  · subst hsame
    have hlocation : location ≠ [] := by
      rintro rfl
      exact hfree tree.find?_root
    simp [tree.find?_put_self hlocation, hfree]
  · rw [tree.find?_put_of_ne hsame]

/-- A file that is written makes no difference to where other files can be written. -/
theorem takes_put_iff (hfree : tree.find? place ≠ some .directory) (content : ByteArray)
    (text : String) (location : Location) :
    Takes (tree.put place (.file content)) text location ↔ Takes tree text location := by
  have hiff := find?_put_ne_directory_iff hfree content location
  constructor
  · rintro ⟨htext, hending, hinside, hlocation⟩
    simp only [directory_put_iff hfree] at hinside
    exact ⟨htext, hending, hinside, hiff.mp hlocation⟩
  · rintro ⟨htext, hending, hinside, hlocation⟩
    simp only [← directory_put_iff hfree content] at hinside
    exact ⟨htext, hending, hinside, hiff.mpr hlocation⟩

end OneFile

/-! ## Files in their places -/

/-- The tree with these texts in these places, one after the other, whatever stood there before. -/
def putEach (tree : FileTree) : List (Location × String) → FileTree
  | [] => tree
  | (place, text) :: writes => putEach (tree.put place (.file text.toUTF8)) writes

/-- The last text that is put in a place, if any is. -/
def lastText : List (Location × String) → Location → Option String
  | [], _ => none
  | (place, text) :: writes, location =>
    (lastText writes location).or (if location = place then some text else none)

/-- In every place stands the last text that was put there, and elsewhere what stood there
before. -/
theorem find?_putEach {tree : FileTree} {writes : List (Location × String)}
    (hplaces : ∀ write ∈ writes, write.1 ≠ []) (location : Location) :
    (putEach tree writes).find? location =
      match lastText writes location with
      | some text => some (.file text.toUTF8)
      | none => tree.find? location := by
  induction writes generalizing tree with
  | nil => rfl
  | cons write writes ih =>
      obtain ⟨place, text⟩ := write
      obtain ⟨hplace, hrest⟩ := List.forall_mem_cons.mp hplaces
      rw [putEach, ih hrest, lastText]
      cases lastText writes location with
      | some later => rfl
      | none =>
          by_cases hsame : location = place
          · rw [hsame, tree.find?_put_self hplace]
            simp
          · rw [tree.find?_put_of_ne hsame]
            simp [hsame]

/-! ## Directories without files -/

/-- Nothing was done but to make directories where nothing stood: no file was made, changed or
lost. -/
structure AddsDirectories (before after : FileTree) : Prop where
  workingDirectory : after.workingDirectory = before.workingDirectory
  entries : ∀ location, after.find? location = before.find? location ∨
    before.find? location = none ∧ after.find? location = some .directory

namespace AddsDirectories

variable {before between after tree made : FileTree} {path : Path}

theorem refl (tree : FileTree) : AddsDirectories tree tree :=
  ⟨rfl, fun _ => .inl rfl⟩

theorem trans (h : AddsDirectories before between) (hmore : AddsDirectories between after) :
    AddsDirectories before after := by
  refine ⟨hmore.workingDirectory.trans h.workingDirectory, fun location => ?_⟩
  rcases h.entries location with hsame | ⟨hnone, hmade⟩
  · rw [← hsame]
    exact hmore.entries location
  · rcases hmore.entries location with hkept | ⟨hfree, -⟩
    · exact .inr ⟨hnone, hkept.trans hmade⟩
    · rw [hmade] at hfree
      cases hfree

theorem of_makeDirectory (h : tree.makeDirectory path = .ok made) : AddsDirectories tree made := by
  obtain ⟨name, above, -, -, -, hfind, rfl⟩ := (makeDirectory_eq_ok_iff tree made path).mp h
  refine ⟨rfl, fun location => ?_⟩
  by_cases hsame : location = above ++ [name]
  · subst hsame
    exact .inr ⟨hfind, tree.find?_put_self (by simp) .directory⟩
  · exact .inl (tree.find?_put_of_ne hsame .directory)

theorem of_settle {attempt : Except FileFault FileTree}
    (h : ∀ made, attempt = .ok made → AddsDirectories tree made) :
    AddsDirectories tree (tree.settle path attempt).2 := by
  cases attempt with
  | error fault => exact refl tree
  | ok made => exact h made rfl

theorem of_makePath (tree : FileTree) (path : Path) :
    AddsDirectories tree (tree.makePath path).2 := by
  fun_induction FileTree.makePath tree path with
  | case1 => exact refl tree
  | case2 path hattempt hsegments fault above habove ih =>
      rw [habove] at ih
      exact ih
  | case3 path hattempt hsegments above habove ih =>
      rw [habove] at ih
      exact ih.trans (of_settle fun _ => of_makeDirectory)
  | case4 path hattempt => exact of_settle fun _ => of_makeDirectory

end AddsDirectories

/-- Whether a directory is made or refused, what was done for it is to make directories. -/
theorem addsDirectories_makeDirectories (tree : FileTree) (text : String) :
    AddsDirectories tree (tree.makeDirectories text).2 := by
  unfold FileTree.makeDirectories
  split
  · exact .refl tree
  split
  · exact .refl tree
  · exact .of_makePath tree _

end Files
end SiteCompiler
