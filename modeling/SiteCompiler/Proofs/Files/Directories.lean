import SiteCompiler.Proofs.Files.Walks

/-!
# Making directories

Directories are made one at a time, each in one that is there already.  What is
made lies on the path that was asked for, and nothing else changes.

* `makeDirectory_eq_ok_iff` - one directory is made.
* `Extended` - the steps of a path lead somewhere, at the cost of some new
  directories on its way.
* `extended_of_makePath`, `extended_of_makeDirectories` - the directories above
  are made first.
-/

namespace SiteCompiler
namespace Files

/-- A directory is made where nothing stands yet, in a directory that is there. -/
theorem makeDirectory_eq_ok_iff (tree made : FileTree) (path : Path) :
    tree.makeDirectory path = .ok made ↔
      ∃ name place, path.target? = some name ∧ tree.directory path.parent = .ok place ∧
        name.utf8ByteSize ≤ nameLimit ∧ tree.find? (place ++ [name]) = none ∧
        made = tree.put (place ++ [name]) .directory := by
  unfold FileTree.makeDirectory
  cases htarget : path.target? with
  | none =>
      cases hdirectory : tree.directory path with
      | error fault => simp [bind, Except.bind]
      | ok place => simp [bind, Except.bind]
  | some name =>
      simp only [FileTree.locate, bind_eq_ok_iff, child_eq_ok_iff]
      constructor
      · rintro ⟨location, ⟨place, hplace, hfits, rfl⟩, hmade⟩
        cases hfind : tree.find? (place ++ [name]) with
        | none =>
            simp only [hfind, Option.isSome_none, Bool.false_eq_true, if_false] at hmade
            cases hmade
            exact ⟨name, place, rfl, hplace, hfits, hfind, rfl⟩
        | some entry => simp [hfind] at hmade
      · rintro ⟨_, place, heq, hplace, hfits, hfind, rfl⟩
        cases heq
        exact ⟨place ++ [name], ⟨place, hplace, hfits, rfl⟩, by simp [hfind]⟩

/-- What was there is still there, the steps of the path lead to a directory, and all that is new
are directories to which they lead. -/
structure Extended (before after : FileTree) (path : Path) : Prop where
  sound : Sound after
  workingDirectory : after.workingDirectory = before.workingDirectory
  reached : ∃ place, after.directory path = .ok place
  entries : ∀ location, after.find? location = before.find? location ∨
    before.find? location = none ∧ Passes after path location

namespace Extended

variable {before between after tree : FileTree} {path : Path}

theorem keepsDirectories (h : Extended before after path) : KeepsDirectories before after := by
  intro location hlocation
  rcases h.entries location with hsame | ⟨hnone, -⟩
  · rw [hsame, hlocation]
  · rw [hnone] at hlocation
    cases hlocation

/-- Nothing has to be made where the path leads somewhere already. -/
theorem refl (h : Sound tree) {place : Location} (hplace : tree.directory path = .ok place) :
    Extended tree tree path :=
  ⟨h, rfl, ⟨place, hplace⟩, fun _ => .inl rfl⟩

theorem of_makeDirectory (h : Sound tree) {made : FileTree}
    (hmade : tree.makeDirectory path = .ok made) : Extended tree made path := by
  obtain ⟨name, place, htarget, hplace, hfits, hfind, rfl⟩ :=
    (makeDirectory_eq_ok_iff tree made path).mp hmade
  have hfree : tree.find? (place ++ [name]) ≠ some .directory := by simp [hfind]
  have hparent : tree.find? (place ++ [name]).dropLast = some .directory := by
    rw [List.dropLast_concat]
    exact h.walk (h.start path.parent) hplace
  have hnew : (tree.put (place ++ [name]) .directory).find? (place ++ [name]) =
      some .directory := tree.find?_put_self (by simp) .directory
  have hplaceAfter := directory_of_keeps (tree.workingDirectory_put _ .directory)
    (keepsDirectories_put hfree .directory) hplace
  have hreached := (directory_eq_ok_of_target htarget hplaceAfter _).mpr ⟨hfits, rfl, hnew⟩
  refine ⟨sound_put h hfree hparent .directory, rfl, ⟨_, hreached⟩, fun location => ?_⟩
  by_cases hsame : location = place ++ [name]
  · subst hsame
    exact .inr ⟨hfind, passes_of_directory hreached⟩
  · exact .inl (tree.find?_put_of_ne hsame .directory)

/-- The directories above a path first, then the path itself. -/
theorem behind_parent (habove : Extended before between path.parent)
    (h : Extended between after path) : Extended before after path := by
  refine ⟨h.sound, h.workingDirectory.trans habove.workingDirectory, h.reached,
    fun location => ?_⟩
  rcases habove.entries location with hbetween | ⟨hnone, hpasses⟩
  · rw [← hbetween]
    exact h.entries location
  · exact .inr ⟨hnone, (hpasses.of_keeps h.workingDirectory h.keepsDirectories).of_parent⟩

end Extended

theorem extended_of_settle {tree : FileTree} (h : Sound tree) {path : Path}
    {attempt : Except FileFault FileTree} {made : FileTree}
    (hattempt : ∀ made, attempt = .ok made → Extended tree made path)
    (hsettle : tree.settle path attempt = (.ok (), made)) : Extended tree made path := by
  unfold FileTree.settle at hsettle
  split at hsettle
  · cases hsettle
    exact hattempt made rfl
  · rename_i fault
    cases hplace : tree.directory path with
    | error other =>
        simp [FileTree.hasDirectory, hplace, Except.isOk, Except.toBool] at hsettle
    | ok place =>
        obtain ⟨-, rfl⟩ := Prod.mk.inj hsettle
        exact .refl h hplace

/-- The directory of a path is made behind the directories above it. -/
theorem extended_of_makePath {tree made : FileTree} (h : Sound tree) {path : Path}
    (hmade : tree.makePath path = (.ok (), made)) : Extended tree made path := by
  fun_induction FileTree.makePath tree path generalizing made with
  | case1 => cases hmade
  | case2 => cases hmade
  | case3 path hattempt hsegments above habove ih =>
      have hparent := ih habove
      exact hparent.behind_parent
        (extended_of_settle hparent.sound (fun _ => .of_makeDirectory hparent.sound) hmade)
  | case4 path hattempt =>
      exact extended_of_settle h (fun _ => .of_makeDirectory h) hmade

theorem directory_parse_empty (tree : FileTree) :
    tree.directory (Path.parse "".toList) = .ok tree.workingDirectory := rfl

/-- The directory that a text names is made with those above it; the empty text names the working
directory. -/
theorem extended_of_makeDirectories {tree made : FileTree} (h : Sound tree) {text : String}
    (hmade : tree.makeDirectories text = (.ok (), made)) :
    Extended tree made (Path.parse text.toList) := by
  unfold FileTree.makeDirectories at hmade
  split at hmade
  · rename_i hempty
    cases hmade
    subst hempty
    exact .refl h (directory_parse_empty tree)
  split at hmade
  · cases hmade
  · rename_i path hpath
    obtain ⟨-, rfl⟩ := (ofString_eq_ok_iff text path).mp hpath
    exact extended_of_makePath h hmade

end Files
end SiteCompiler
