import SiteCompiler.Build
import SiteCompiler.Proofs.Files.Places
import SiteCompiler.Proofs.Files.Walks

/-!
# Writing files into a directory

Files are written one after the other into a directory that is there.  What
comes of it is said by the places of the files alone.

* `CanHold` - a directory can hold a file of some name.
* `putFiles` - the files by name, each in its place.
* `writeFiles_eq_ok_iff` - all files are written if the directory can hold each
  of them, and nothing else is done.
-/

namespace SiteCompiler
namespace Files

/-! ## One file -/

/-- The directory can hold a file of that name: the path of the name is one, the name is not too
long, and no directory stands in the way. -/
structure CanHold (tree : FileTree) (directory : String) (out : Location) (name : String) :
    Prop where
  text : IsPathText (Path.join directory name)
  size : name.utf8ByteSize ≤ nameLimit
  free : tree.find? (out ++ [name]) ≠ some .directory

section OneFile

variable {tree : FileTree} {directory : String} {out : Location} {name : String}

theorem directory_parent_join (h : IsFileName name) :
    tree.directory (Path.parse (Path.join directory name).toList).parent =
      tree.directory (Path.parse directory.toList) := by
  rw [parent_parse_join directory h]
  rfl

theorem locate_join_eq_ok_iff (hout : tree.directory (Path.parse directory.toList) = .ok out)
    (h : IsFileName name) (location : Location) :
    tree.locate (Path.parse (Path.join directory name).toList) name = .ok location ↔
      name.utf8ByteSize ≤ nameLimit ∧ location = out ++ [name] := by
  rw [FileTree.locate, directory_parent_join h, hout]
  exact child_eq_ok_iff out location name

/-- A file is written in its place in the directory, if the directory can hold it. -/
theorem writeBytes_join_eq_ok_iff
    (hout : tree.directory (Path.parse directory.toList) = .ok out) (h : IsFileName name)
    (content : ByteArray) (written : FileTree) :
    tree.writeBytes (Path.join directory name) content = .ok written ↔
      CanHold tree directory out name ∧ written = tree.put (out ++ [name]) (.file content) := by
  have htarget := target?_parse_join directory h
  rw [writeBytes_eq_ok_iff]
  constructor
  · rintro ⟨place, ⟨htext, -, ⟨other, above, hother, habove, hsize, rfl⟩, hfree⟩, rfl⟩
    rw [htarget] at hother
    cases hother
    rw [directory_parent_join h, hout] at habove
    cases habove
    exact ⟨⟨htext, hsize, hfree⟩, rfl⟩
  · rintro ⟨⟨htext, hsize, hfree⟩, rfl⟩
    have habove := (directory_parent_join h).trans hout
    exact ⟨_, ⟨htext, ending_parse_join directory h, ⟨name, out, htarget, habove, hsize, rfl⟩,
      hfree⟩, rfl⟩

/-- A file of too long a name is refused for that, whether its whole path is too long or not. -/
theorem writeBytes_join_of_long (hout : tree.directory (Path.parse directory.toList) = .ok out)
    (h : IsFileName name) (hnul : '\x00' ∉ (Path.join directory name).toList)
    (hlong : nameLimit < name.utf8ByteSize) (content : ByteArray) :
    tree.writeBytes (Path.join directory name) content = .error .nameTooLong := by
  by_cases hpath : Path.textLimit < (Path.join directory name).utf8ByteSize
  · have hrefused : Path.ofString (Path.join directory name) = .error .nameTooLong := by
      rw [Path.ofString, if_neg hnul, if_pos hpath]
    rw [FileTree.writeBytes, hrefused]
    rfl
  · have htarget := target?_parse_join directory h
    have hending := ending_parse_join directory h
    have hne : Path.join directory name ≠ "" := by
      intro hempty
      rw [hempty] at htarget
      cases htarget
    have hread := (ofString_eq_ok_iff (Path.join directory name) _).mpr
      ⟨⟨hnul, Nat.not_lt.mp hpath, hne⟩, rfl⟩
    have hlocate : tree.locate (Path.parse (Path.join directory name).toList) name =
        .error .nameTooLong := by
      rw [FileTree.locate, directory_parent_join h, hout]
      exact if_pos hlong
    simp only [FileTree.writeBytes, hread, htarget, hending, hlocate, bind, Except.bind]

theorem readBytes_join (hout : tree.directory (Path.parse directory.toList) = .ok out)
    (h : IsFileName name) (htext : IsPathText (Path.join directory name))
    (hsize : name.utf8ByteSize ≤ nameLimit) {content : ByteArray}
    (hfind : tree.find? (out ++ [name]) = some (.file content)) :
    tree.readBytes (Path.join directory name) = .ok content := by
  have hpath := (ofString_eq_ok_iff (Path.join directory name) _).mpr ⟨htext, rfl⟩
  have hlocate := (locate_join_eq_ok_iff hout h _).mpr ⟨hsize, rfl⟩
  have htarget := target?_parse_join directory h
  have hending := ending_parse_join directory h
  simp only [FileTree.readBytes, hpath, hlocate, htarget, hending, hfind, bind, Except.bind]

theorem fromUTF8?_toUTF8 (text : String) : String.fromUTF8? text.toUTF8 = some text := by
  unfold String.fromUTF8?
  rw [String.toUTF8_eq_toByteArray, dif_pos text.isValidUTF8]
  rfl

/-- What is read in the place of a text is the text. -/
theorem readText_join (hout : tree.directory (Path.parse directory.toList) = .ok out)
    (h : IsFileName name) (htext : IsPathText (Path.join directory name))
    (hsize : name.utf8ByteSize ≤ nameLimit) {text : String}
    (hfind : tree.find? (out ++ [name]) = some (.file text.toUTF8)) :
    tree.readText (Path.join directory name) = .ok text := by
  simp only [FileTree.readText, readBytes_join hout h htext hsize hfind, fromUTF8?_toUTF8, bind,
    Except.bind]

/-- A file makes no difference to what the directory can hold besides. -/
theorem canHold_put_iff (hfree : tree.find? (out ++ [name]) ≠ some .directory)
    (content : ByteArray) (other : String) :
    CanHold (tree.put (out ++ [name]) (.file content)) directory out other ↔
      CanHold tree directory out other := by
  have hiff := find?_put_ne_directory_iff hfree content (out ++ [other])
  constructor
  · rintro ⟨htext, hsize, hother⟩
    exact ⟨htext, hsize, hiff.mp hother⟩
  · rintro ⟨htext, hsize, hother⟩
    exact ⟨htext, hsize, hiff.mpr hother⟩

end OneFile

/-! ## All files -/

/-- The tree with some files in a directory, whatever stood in their places before. -/
def putFiles (tree : FileTree) (out : Location) : List (String × String) → FileTree
  | [] => tree
  | (name, text) :: files => putFiles (tree.put (out ++ [name]) (.file text.toUTF8)) out files

section AllFiles

variable {tree : FileTree} {directory : String} {out : Location} {files : List (String × String)}

theorem writeFiles_nil : tree.writeFiles directory [] = (.ok (), tree) := rfl

theorem writeFiles_cons (name text : String) :
    tree.writeFiles directory ((name, text) :: files) =
      match tree.writeBytes (Path.join directory name) text.toUTF8 with
      | .error fault => (.error ⟨Path.join directory name, fault⟩, tree)
      | .ok written => written.writeFiles directory files := rfl

/-- Files that have been written do not matter to how the others are written behind them. -/
theorem writeFiles_append_of_ok {after : FileTree}
    (h : tree.writeFiles directory files = (.ok (), after))
    (later : List (String × String)) :
    tree.writeFiles directory (files ++ later) = after.writeFiles directory later := by
  induction files generalizing tree with
  | nil =>
      rw [writeFiles_nil] at h
      cases h
      rfl
  | cons file files ih =>
      obtain ⟨name, text⟩ := file
      rw [writeFiles_cons] at h
      rw [List.cons_append, writeFiles_cons]
      cases hwrite : tree.writeBytes (Path.join directory name) text.toUTF8 with
      | error fault =>
          rw [hwrite] at h
          cases h
      | ok next =>
          rw [hwrite] at h
          exact ih h

/-- All files are written if the directory can hold them, and only then. -/
theorem writeFiles_eq_ok_iff (hout : tree.directory (Path.parse directory.toList) = .ok out)
    (hnames : ∀ file ∈ files, IsFileName file.1) (written : FileTree) :
    tree.writeFiles directory files = (.ok (), written) ↔
      (∀ file ∈ files, CanHold tree directory out file.1) ∧ written = putFiles tree out files := by
  induction files generalizing tree with
  | nil => simp [writeFiles_nil, putFiles, eq_comm]
  | cons file files ih =>
      obtain ⟨name, text⟩ := file
      obtain ⟨hname, hrest⟩ := List.forall_mem_cons.mp hnames
      have hiff := writeBytes_join_eq_ok_iff hout hname text.toUTF8
      rw [writeFiles_cons, putFiles, List.forall_mem_cons]
      cases hwrite : tree.writeBytes (Path.join directory name) text.toUTF8 with
      | error fault =>
          have hcannot : ¬ CanHold tree directory out name := by
            intro hcan
            have hok := (hiff _).mpr ⟨hcan, rfl⟩
            rw [hwrite] at hok
            cases hok
          simp [hcannot]
      | ok next =>
          obtain ⟨hcan, rfl⟩ := (hiff next).mp hwrite
          have houtNext := directory_of_keeps (tree.workingDirectory_put _ (.file text.toUTF8))
            (keepsDirectories_put hcan.free _) hout
          simp only [ih houtNext hrest, canHold_put_iff hcan.free, hcan, true_and]

theorem workingDirectory_putFiles :
    (putFiles tree out files).workingDirectory = tree.workingDirectory := by
  induction files generalizing tree with
  | nil => rfl
  | cons file files ih => rw [putFiles, ih, tree.workingDirectory_put]

/-- Where none of the files is, nothing is changed. -/
theorem find?_putFiles_of_ne {location : Location}
    (h : ∀ file ∈ files, location ≠ out ++ [file.1]) :
    (putFiles tree out files).find? location = tree.find? location := by
  induction files generalizing tree with
  | nil => rfl
  | cons file files ih =>
      obtain ⟨hne, hrest⟩ := List.forall_mem_cons.mp h
      rw [putFiles, ih hrest, tree.find?_put_of_ne hne]

/-- Of files of different names, each is in its place. -/
theorem find?_putFiles_of_mem (hnodup : (files.map Prod.fst).Nodup) {file : String × String}
    (hfile : file ∈ files) :
    (putFiles tree out files).find? (out ++ [file.1]) = some (.file file.2.toUTF8) := by
  induction files generalizing tree with
  | nil => cases hfile
  | cons first files ih =>
      obtain ⟨hfirst, hrest⟩ := List.nodup_cons.mp hnodup
      rw [putFiles]
      rcases List.mem_cons.mp hfile with rfl | hfile
      · -- The files behind the first have other names.
        have hothers : ∀ other ∈ files, out ++ [file.1] ≠ out ++ [other.1] := by
          intro other hother heq
          have hname : file.1 = other.1 := by simpa using heq
          exact hfirst (hname ▸ List.mem_map_of_mem hother)
        rw [find?_putFiles_of_ne hothers, tree.find?_put_self (by simp)]
      · exact ih hrest hfile

theorem keepsDirectories_putFiles
    (h : ∀ file ∈ files, tree.find? (out ++ [file.1]) ≠ some .directory) :
    KeepsDirectories tree (putFiles tree out files) := by
  intro location hlocation
  rw [find?_putFiles_of_ne, hlocation]
  rintro file hfile rfl
  exact h file hfile hlocation

theorem sound_putFiles (hsound : Sound tree) (hout : tree.find? out = some .directory)
    (h : ∀ file ∈ files, tree.find? (out ++ [file.1]) ≠ some .directory) :
    Sound (putFiles tree out files) := by
  induction files generalizing tree with
  | nil => exact hsound
  | cons file files ih =>
      obtain ⟨hfirst, hrest⟩ := List.forall_mem_cons.mp h
      have hparent : tree.find? (out ++ [file.1]).dropLast = some .directory := by
        rwa [List.dropLast_concat]
      refine ih (sound_put hsound hfirst hparent _) (keepsDirectories_put hfirst _ out hout) ?_
      intro other hother
      by_cases hsame : out ++ [other.1] = out ++ [file.1]
      · simp [hsame, tree.find?_put_self]
      · rw [tree.find?_put_of_ne hsame]
        exact hrest other hother

end AllFiles

end Files
end SiteCompiler
