import SiteCompiler.FileTree.Operation
import SiteCompiler.Proofs.Files.Names

/-!
# Walks through a tree

What an operation sees of a tree are the directories that a path leads through.
A change that leaves all directories in place leaves every walk in place.

* `Sound` - a plain tree: whatever stands somewhere stands in a directory.
* `sound_fresh` - a fresh tree is one.
* `KeepsDirectories` - the directories of one tree are there in another.
* `Passes` - the places to which the steps of a path lead.
* `sound_put` - a tree stays sound if something new is put into a directory.
-/

namespace SiteCompiler
namespace Files

/-! ## Binds that succeed -/

theorem bind_eq_ok_iff {ε α β : Type} (first : Except ε α) (next : α → Except ε β) (value : β) :
    (first >>= next) = .ok value ↔ ∃ found, first = .ok found ∧ next found = .ok value := by
  cases first with
  | error error => simp [bind, Except.bind]
  | ok found => simp [bind, Except.bind]

theorem child_eq_ok_iff (location place : Location) (name : String) :
    Location.child location name = .ok place ↔
      name.utf8ByteSize ≤ nameLimit ∧ place = location ++ [name] := by
  unfold Location.child
  by_cases hsize : nameLimit < name.utf8ByteSize
  · simp [hsize, Nat.not_le.mpr hsize]
  · simp [hsize, Nat.not_lt.mp hsize, eq_comm]

/-! ## Sound trees -/

/-- A plain tree: the working directory is there, and all that stands somewhere stands in a
directory. -/
structure Sound (tree : FileTree) : Prop where
  workingDirectory : tree.find? tree.workingDirectory = some .directory
  parents : ∀ location entry, tree.find? location = some entry →
    tree.find? location.dropLast = some .directory

/-- The directories of the one tree are directories of the other. -/
def KeepsDirectories (before after : FileTree) : Prop :=
  ∀ location, before.find? location = some .directory → after.find? location = some .directory

theorem Sound.start {tree : FileTree} (h : Sound tree) (path : Path) :
    tree.find? (tree.start path) = some .directory := by
  unfold FileTree.start
  split
  · exact tree.find?_root
  · exact h.workingDirectory

/-- Nothing stands below a place where nothing stands. -/
theorem Sound.find?_append_eq_none {tree : FileTree} (h : Sound tree) {location : Location}
    (hnone : tree.find? location = none) (rest : List String) :
    tree.find? (location ++ rest) = none := by
  induction rest generalizing location with
  | nil => rwa [List.append_nil]
  | cons name rest ih =>
      have hname : tree.find? (location ++ [name]) = none := by
        rw [Option.eq_none_iff_forall_ne_some]
        intro entry hentry
        have hparent := h.parents _ entry hentry
        rw [List.dropLast_concat, hnone] at hparent
        cases hparent
      have hrest := ih hname
      rwa [List.append_assoc] at hrest

theorem eq_of_mem_fresh {place location : Location} {entry : Entry}
    (h : (place, entry) ∈ (FileTree.fresh location).entries) :
    entry = .directory ∧ place <+: location := by
  obtain ⟨depth, -, heq⟩ := List.mem_map.mp h
  cases heq
  exact ⟨rfl, List.take_prefix _ _⟩

/-- A fresh tree holds the directories above its working directory, and nothing else. -/
theorem find?_fresh_eq_some_iff (place location : Location) (entry : Entry) :
    (FileTree.fresh location).find? place = some entry ↔
      entry = .directory ∧ place <+: location := by
  by_cases hroot : place = []
  · subst hroot
    simp [eq_comm]
  have hfind : (FileTree.fresh location).find? place =
      (FileTree.fresh location).entries.lookup place := if_neg hroot
  have honly {found : Entry} (h : (FileTree.fresh location).entries.lookup place = some found) :
      found = .directory ∧ place <+: location := by
    obtain ⟨front, back, hentries, -⟩ := List.lookup_eq_some_iff.mp h
    exact eq_of_mem_fresh (by simp [hentries])
  rw [hfind]
  constructor
  · exact honly
  · rintro ⟨rfl, hprefix⟩
    have hmem : (place, Entry.directory) ∈ (FileTree.fresh location).entries := by
      have hpos : 0 < place.length := List.length_pos_iff.mpr hroot
      have hlength := hprefix.length_le
      refine List.mem_map.mpr ⟨place.length - 1, List.mem_range.mpr (by omega), ?_⟩
      rw [Nat.sub_add_cancel hpos, ← List.prefix_iff_eq_take.mp hprefix]
    obtain ⟨found, hfound⟩ : ∃ found,
        (FileTree.fresh location).entries.lookup place = some found := by
      rw [← Option.isSome_iff_exists, List.lookup_isSome_iff]
      exact ⟨_, hmem, by simp⟩
    obtain ⟨rfl, -⟩ := honly hfound
    exact hfound

theorem sound_fresh (location : Location) : Sound (FileTree.fresh location) := by
  constructor
  · exact FileTree.find?_fresh_self location
  · intro place entry h
    obtain ⟨-, hprefix⟩ := (find?_fresh_eq_some_iff place location entry).mp h
    exact (find?_fresh_eq_some_iff _ _ _).mpr
      ⟨rfl, (List.dropLast_prefix place).trans hprefix⟩

/-! ## Walks -/

theorem walk_append (tree : FileTree) (location : Location) (segments more : List Segment) :
    tree.walk location (segments ++ more) =
      tree.walk location segments >>= fun place => tree.walk place more := by
  fun_induction FileTree.walk tree location segments with
  | case1 => rfl
  | case2 location segments ih => rw [List.cons_append, FileTree.walk, ih]
  | case3 location text segments fault hchild =>
      rw [List.cons_append, FileTree.walk, hchild]
      rfl
  | case4 location text segments place hchild hfind =>
      simp only [List.cons_append, FileTree.walk, hchild, hfind]
      rfl
  | case5 location text segments place hchild content hfind =>
      simp only [List.cons_append, FileTree.walk, hchild, hfind]
      rfl
  | case6 location text segments place hchild hfind ih =>
      simp only [List.cons_append, FileTree.walk, hchild, hfind, ih]

/-- A walk along one name ends in a directory of that name. -/
theorem walk_name_eq_ok_iff (tree : FileTree) (location place : Location) (name : String) :
    tree.walk location [.name name] = .ok place ↔
      name.utf8ByteSize ≤ nameLimit ∧ place = location ++ [name] ∧
        tree.find? (location ++ [name]) = some .directory := by
  cases hchild : Location.child location name with
  | error fault =>
      have hlong : ¬ name.utf8ByteSize ≤ nameLimit := by
        intro hfits
        have hok := (child_eq_ok_iff location _ name).mpr ⟨hfits, rfl⟩
        rw [hchild] at hok
        cases hok
      simp [FileTree.walk, hchild, hlong]
  | ok found =>
      obtain ⟨hfits, rfl⟩ := (child_eq_ok_iff _ _ _).mp hchild
      rcases hfind : tree.find? (location ++ [name]) with _ | _ | _
      · simp [FileTree.walk, hchild, hfind]
      · simp [FileTree.walk, hchild, hfind]
      · simp [FileTree.walk, hchild, hfind, hfits, eq_comm]

/-- A walk in a sound tree ends in a directory. -/
theorem Sound.walk {tree : FileTree} (h : Sound tree) {location place : Location}
    {segments : List Segment} (hlocation : tree.find? location = some .directory)
    (hwalk : tree.walk location segments = .ok place) : tree.find? place = some .directory := by
  fun_induction FileTree.walk tree location segments with
  | case1 => cases hwalk; exact hlocation
  | case2 location segments ih => exact ih (h.parents location .directory hlocation) hwalk
  | case3 => cases hwalk
  | case4 => cases hwalk
  | case5 => cases hwalk
  | case6 location text segments found hchild hfind ih => exact ih hfind hwalk

/-- A walk leads to the same place as long as no directory is lost. -/
theorem walk_of_keeps {before after : FileTree} (h : KeepsDirectories before after)
    {location place : Location} {segments : List Segment}
    (hwalk : before.walk location segments = .ok place) :
    after.walk location segments = .ok place := by
  fun_induction FileTree.walk before location segments with
  | case1 => exact hwalk
  | case2 location segments ih => exact ih hwalk
  | case3 => cases hwalk
  | case4 => cases hwalk
  | case5 => cases hwalk
  | case6 location text segments found hchild hfind ih =>
      simp only [FileTree.walk, hchild, h found hfind]
      exact ih hwalk

/-! ## Paths -/

/-- The places to which the steps of a path lead, from its start to its end. -/
def Passes (tree : FileTree) (path : Path) (location : Location) : Prop :=
  ∃ segments, segments <+: path.segments ∧ tree.walk (tree.start path) segments = .ok location

theorem start_of_workingDirectory_eq {before after : FileTree}
    (h : after.workingDirectory = before.workingDirectory) (path : Path) :
    after.start path = before.start path := by
  simp only [FileTree.start, h]

theorem directory_of_keeps {before after : FileTree}
    (hworking : after.workingDirectory = before.workingDirectory)
    (hkeeps : KeepsDirectories before after) {path : Path} {place : Location}
    (h : before.directory path = .ok place) : after.directory path = .ok place := by
  unfold FileTree.directory at h ⊢
  rw [start_of_workingDirectory_eq hworking]
  exact walk_of_keeps hkeeps h

theorem Passes.of_keeps {before after : FileTree}
    (hworking : after.workingDirectory = before.workingDirectory)
    (hkeeps : KeepsDirectories before after) {path : Path} {location : Location}
    (h : Passes before path location) : Passes after path location := by
  obtain ⟨segments, hfront, hwalk⟩ := h
  rw [← start_of_workingDirectory_eq hworking] at hwalk
  exact ⟨segments, hfront, walk_of_keeps hkeeps hwalk⟩

theorem Passes.of_parent {tree : FileTree} {path : Path} {location : Location}
    (h : Passes tree path.parent location) : Passes tree path location := by
  obtain ⟨segments, hfront, hwalk⟩ := h
  exact ⟨segments, hfront.trans (List.dropLast_prefix _), hwalk⟩

theorem passes_of_directory {tree : FileTree} {path : Path} {place : Location}
    (h : tree.directory path = .ok place) : Passes tree path place :=
  ⟨path.segments, List.prefix_rfl, h⟩

theorem Passes.find?_eq {tree : FileTree} (hsound : Sound tree) {path : Path}
    {location : Location} (h : Passes tree path location) :
    tree.find? location = some .directory := by
  obtain ⟨_, -, hwalk⟩ := h
  exact hsound.walk (hsound.start path) hwalk

theorem directory_eq_ok_of_target {tree : FileTree} {path : Path} {name : String}
    (h : path.target? = some name) {place : Location}
    (hplace : tree.directory path.parent = .ok place) (out : Location) :
    tree.directory path = .ok out ↔
      name.utf8ByteSize ≤ nameLimit ∧ out = place ++ [name] ∧
        tree.find? (place ++ [name]) = some .directory := by
  have hparent : tree.walk (tree.start path) path.parent.segments = .ok place := hplace
  rw [FileTree.directory, segments_of_target? h, walk_append, hparent]
  exact walk_name_eq_ok_iff tree place out name

/-! ## Putting something in place -/

section Put

variable {tree : FileTree} {location : Location}

theorem keepsDirectories_put (hfree : tree.find? location ≠ some .directory) (entry : Entry) :
    KeepsDirectories tree (tree.put location entry) := by
  intro other hother
  have hne : other ≠ location := by
    rintro rfl
    exact hfree hother
  rw [tree.find?_put_of_ne hne, hother]

theorem sound_put (h : Sound tree) (hfree : tree.find? location ≠ some .directory)
    (hparent : tree.find? location.dropLast = some .directory) (entry : Entry) :
    Sound (tree.put location entry) := by
  have hkeeps := keepsDirectories_put hfree entry
  constructor
  · exact hkeeps _ h.workingDirectory
  · intro other stands hother
    by_cases hsame : other = location
    · rw [hsame]
      exact hkeeps _ hparent
    · rw [tree.find?_put_of_ne hsame] at hother
      exact hkeeps _ (h.parents other stands hother)

end Put

end Files
end SiteCompiler
