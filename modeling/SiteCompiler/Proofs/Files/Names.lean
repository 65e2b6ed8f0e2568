import SiteCompiler.FileTree.Path

/-!
# Names inside a directory

The path of a file is put together as text, from the path of its directory and
its name.  A name that is a single step along a path leads one step further.

* `IsFileName` - the texts that are one step, and not a step up.
* `parse_join` - the path of a name inside a directory.
* `IsPathText` - the texts that are accepted as paths.
* `segments_of_target?` - the steps of a path to a name.
-/

namespace SiteCompiler
namespace Files

/-- A text without slashes that names something of its own. -/
structure IsFileName (name : String) : Prop where
  single : '/' ∉ name.toList
  ne_empty : name ≠ ""
  ne_here : name ≠ "."
  ne_up : name ≠ ".."

theorem toList_ne_of_ne {name other : String} (h : name ≠ other) :
    name.toList ≠ other.toList :=
  fun heq => h (String.toList_inj.mp heq)

theorem IsFileName.ofPart?_eq {name : String} (h : IsFileName name) :
    Segment.ofPart? name.toList = some (.name name) := by
  have hempty : name.toList ≠ [] := toList_ne_of_ne h.ne_empty
  have hhere : name.toList ≠ ['.'] := toList_ne_of_ne h.ne_here
  have hup : name.toList ≠ ['.', '.'] := toList_ne_of_ne h.ne_up
  simp [Segment.ofPart?, hempty, hhere, hup]

/-- A text whose last part is a file name ends in the name. -/
theorem parse_of_parts {text : List Char} {parts : List (List Char)} {name : String}
    (h : IsFileName name) (hparts : text.splitOn '/' = parts ++ [name.toList]) :
    Path.parse text =
      ⟨text.head? = some '/', parts.filterMap Segment.ofPart? ++ [.name name], .plain⟩ := by
  have hempty : name.toList ≠ [] := toList_ne_of_ne h.ne_empty
  have hhere : name.toList ≠ ['.'] := toList_ne_of_ne h.ne_here
  have hkept : [name.toList].filter (· ≠ []) = [name.toList] := by
    simpa using h.ne_empty
  have hdot : ((text.splitOn '/').filter (· ≠ [])).getLast? ≠ some ['.'] := by
    rw [hparts, List.filter_append, hkept, List.getLast?_concat]
    exact fun heq => hhere (Option.some.inj heq)
  have hslash : (text.splitOn '/').getLast? ≠ some [] := by
    rw [hparts, List.getLast?_concat]
    exact fun heq => hempty (Option.some.inj heq)
  simp only [Path.parse, if_neg hdot, if_neg hslash]
  rw [hparts, List.filterMap_append]
  simp [h.ofPart?_eq]

/-- An empty part at the end of a path is no step. -/
theorem segments_parse_slash (front : List Char) :
    (Path.parse (front ++ ['/'])).segments = (front.splitOn '/').filterMap Segment.ofPart? := by
  have hparts : (front ++ ['/']).splitOn '/' = front.splitOn '/' ++ [[]] :=
    List.splitOn_append_cons_self front []
  simp [Path.parse, hparts, Segment.ofPart?]

/-- The path of a name inside a directory goes one step on. -/
theorem parse_join (directory : String) {name : String} (h : IsFileName name) :
    Path.parse (Path.join directory name).toList =
      ⟨(Path.parse directory.toList).absolute,
        (Path.parse directory.toList).segments ++ [.name name], .plain⟩ := by
  have hsingle : name.toList.splitOn '/' = [name.toList] := List.splitOn_eq_singleton h.single
  have hstart : name.toList.head? ≠ some '/' := by
    intro hhead
    obtain ⟨rest, hrest⟩ := List.head?_eq_some_iff.mp hhead
    exact h.single (by simp [hrest])
  by_cases hempty : directory = ""
  · subst hempty
    have hparts : name.toList.splitOn '/' = [] ++ [name.toList] := hsingle
    rw [Path.join, if_pos (.inr rfl), parse_of_parts h hparts]
    simp [Path.parse, hstart, Segment.ofPart?]
  have hdirectory : directory.toList ≠ [] := toList_ne_of_ne hempty
  have hhead (more : List Char) : (directory.toList ++ more).head? = directory.toList.head? := by
    obtain ⟨c, cs, hcons⟩ := List.exists_cons_of_ne_nil hdirectory
    rw [hcons]
    rfl
  by_cases hlast : directory.toList.getLast? = some '/'
  · -- The slash that ends the directory is the only one between it and the name.
    obtain ⟨front, hfront⟩ := List.getLast?_eq_some_iff.mp hlast
    have hparts : (directory.toList ++ name.toList).splitOn '/' =
        front.splitOn '/' ++ [name.toList] := by
      rw [hfront, List.append_assoc, List.singleton_append, List.splitOn_append_cons_self, hsingle]
    have hsegments : (Path.parse directory.toList).segments =
        (front.splitOn '/').filterMap Segment.ofPart? := by
      rw [hfront, segments_parse_slash]
    rw [Path.join, if_neg (not_or.mpr ⟨hstart, hempty⟩), if_pos hlast, String.toList_append,
      parse_of_parts h hparts, hhead, hsegments]
    rfl
  · have hparts : (directory.toList ++ ('/' :: name.toList)).splitOn '/' =
        directory.toList.splitOn '/' ++ [name.toList] := by
      rw [List.splitOn_append_cons_self, hsingle]
    have htext : (directory ++ "/" ++ name).toList = directory.toList ++ '/' :: name.toList := by
      simp
    rw [Path.join, if_neg (not_or.mpr ⟨hstart, hempty⟩), if_neg hlast, htext,
      parse_of_parts h hparts, hhead]
    rfl

theorem target?_parse_join (directory : String) {name : String} (h : IsFileName name) :
    (Path.parse (Path.join directory name).toList).target? = some name := by
  simp [parse_join directory h, Path.target?]

theorem ending_parse_join (directory : String) {name : String} (h : IsFileName name) :
    (Path.parse (Path.join directory name).toList).ending = .plain := by
  rw [parse_join directory h]

theorem parent_parse_join (directory : String) {name : String} (h : IsFileName name) :
    (Path.parse (Path.join directory name).toList).parent =
      ⟨(Path.parse directory.toList).absolute, (Path.parse directory.toList).segments, .plain⟩ := by
  simp [parse_join directory h, Path.parent]

/-- The texts that are the text of a path. -/
structure IsPathText (text : String) : Prop where
  noNul : '\x00' ∉ text.toList
  size : text.utf8ByteSize ≤ Path.textLimit
  ne_empty : text ≠ ""

theorem ofString_eq_ok_iff (text : String) (path : Path) :
    Path.ofString text = .ok path ↔ IsPathText text ∧ path = Path.parse text.toList := by
  unfold Path.ofString
  constructor
  · intro h
    split at h
    · cases h
    split at h
    · cases h
    split at h
    · cases h
    · rename_i hnul hsize hempty
      exact ⟨⟨hnul, Nat.le_of_not_lt hsize, hempty⟩, (Except.ok.inj h).symm⟩
  · rintro ⟨⟨hnul, hsize, hempty⟩, rfl⟩
    rw [if_neg hnul, if_neg (Nat.not_lt.mpr hsize), if_neg hempty]

/-- The steps of a path to a name: the steps to the directory above it, and the name. -/
theorem segments_of_target? {path : Path} {name : String} (h : path.target? = some name) :
    path.segments = path.parent.segments ++ [.name name] := by
  unfold Path.target? at h
  split at h
  · cases h
  · cases h
    rename_i hlast
    obtain ⟨front, hfront⟩ := List.getLast?_eq_some_iff.mp hlast
    simp [Path.parent, hfront]
  · cases h

end Files
end SiteCompiler
