/-!
# Lines

Output files are written line by line.  `unlines` ends every line with a line
feed, the last one too.
-/

namespace SiteCompiler

/-- The text of a list of lines, each ended by a line feed. -/
def unlines (lines : List String) : String :=
  String.join (lines.map (· ++ "\n"))

@[simp] theorem toList_unlines (lines : List String) :
    (unlines lines).toList = lines.flatMap fun line => line.toList ++ ['\n'] := by
  simp [unlines, List.flatMap_map]

theorem unlines_append (lines more : List String) :
    unlines (lines ++ more) = unlines lines ++ unlines more := by
  simp [← String.toList_inj]

end SiteCompiler
