/-!
# Trees of files

A plain tree of files and directories, without links, and the directory in it
in which work is done.  A place is the list of names that lead there from the
root; the root itself is always a directory.  `find?` is the view through which
every operation is described, and `below` lists what stands in the working
directory.
-/

namespace SiteCompiler

/-- The names that lead from the root to a place, the outermost first. -/
abbrev Location := List String

/-- What stands at a place. -/
inductive Entry where
  | file (content : ByteArray)
  | directory

/-- The files and directories below the root. -/
structure FileTree where
  /-- The place from which paths are followed that do not start at the root. -/
  workingDirectory : Location
  entries : List (Location × Entry)

namespace FileTree

/-- A working directory without anything in it; the tree holds nothing but the directories that
lead there. -/
def fresh (workingDirectory : Location) : FileTree :=
  ⟨workingDirectory, (List.range workingDirectory.length).map fun depth =>
    (workingDirectory.take (depth + 1), .directory)⟩

/-- What stands at a place, if anything does. -/
def find? (tree : FileTree) (location : Location) : Option Entry :=
  if location = [] then some .directory else tree.entries.lookup location

/-- Take away what stands at a place. -/
def erase (tree : FileTree) (location : Location) : FileTree :=
  { tree with entries := tree.entries.filter fun entry => entry.1 != location }

/-- Let an entry stand at a place, whatever stood there before. -/
def put (tree : FileTree) (location : Location) (entry : Entry) : FileTree :=
  { tree with entries := (location, entry) :: (tree.erase location).entries }

/-- What stands below the working directory, each place by the names that lead there from it. -/
def below (tree : FileTree) : List (Location × Entry) :=
  tree.entries.filterMap fun (location, entry) =>
    match tree.workingDirectory.isPrefixOf? location with
    | none | some [] => none
    | some names => some (names, entry)

@[simp] theorem find?_root (tree : FileTree) : tree.find? [] = some .directory := rfl

theorem find?_erase_of_ne (tree : FileTree) {location other : Location} (h : other ≠ location) :
    (tree.erase location).find? other = tree.find? other := by
  have hlookup (entries : List (Location × Entry)) :
      (entries.filter fun entry => entry.1 != location).lookup other = entries.lookup other := by
    induction entries with
    | nil => rfl
    | cons entry entries ih =>
        obtain ⟨place, content⟩ := entry
        by_cases hsame : place = location
        · have hother : (other == location) = false := by simpa using h
          simpa [hsame, List.lookup_cons, hother] using ih
        · simp [hsame, List.lookup_cons, ih]
  simp only [find?, erase, hlookup]

/-- What was put at a place stands there. -/
theorem find?_put_self (tree : FileTree) {location : Location} (h : location ≠ [])
    (entry : Entry) : (tree.put location entry).find? location = some entry := by
  simp [find?, put, h]

/-- Every other place is as it was. -/
theorem find?_put_of_ne (tree : FileTree) {location other : Location} (h : other ≠ location)
    (entry : Entry) : (tree.put location entry).find? other = tree.find? other := by
  have hother : (other == location) = false := by simpa using h
  rw [← tree.find?_erase_of_ne h]
  simp [find?, put, List.lookup_cons, hother]

/-- The working directory of a fresh tree is there. -/
theorem find?_fresh_self (location : Location) :
    (fresh location).find? location = some .directory := by
  have hlookup (entries : List (Location × Entry)) (h : (location, .directory) ∈ entries)
      (hall : ∀ entry ∈ entries, entry.2 = .directory) :
      entries.lookup location = some .directory := by
    induction entries with
    | nil => cases h
    | cons entry entries ih =>
        obtain ⟨place, content⟩ := entry
        by_cases hsame : location = place
        · have hcontent : content = .directory := hall _ List.mem_cons_self
          simp [hsame, hcontent]
        · have hother : (location == place) = false := by simpa using hsame
          rw [List.lookup_cons, hother]
          refine ih ?_ fun entry hentry => hall entry (List.mem_cons_of_mem _ hentry)
          rcases List.mem_cons.mp h with h | h
          · exact absurd (congrArg Prod.fst h) hsame
          · exact h
  by_cases hroot : location = []
  · simp [find?, hroot]
  · have hlength : 0 < location.length := List.length_pos_iff.mpr hroot
    rw [find?, if_neg hroot]
    refine hlookup _ (List.mem_map.mpr ⟨location.length - 1, ?_, ?_⟩) ?_
    · rw [List.mem_range]; omega
    · rw [Nat.sub_add_cancel hlength, List.take_length]
    · intro entry hentry
      obtain ⟨_, _, rfl⟩ := List.mem_map.mp hentry
      rfl

@[simp] theorem workingDirectory_fresh (location : Location) :
    (fresh location).workingDirectory = location := rfl

@[simp] theorem workingDirectory_erase (tree : FileTree) (location : Location) :
    (tree.erase location).workingDirectory = tree.workingDirectory := rfl

@[simp] theorem workingDirectory_put (tree : FileTree) (location : Location) (entry : Entry) :
    (tree.put location entry).workingDirectory = tree.workingDirectory := rfl

end FileTree

end SiteCompiler
