import SiteCompiler.Proofs.Compile.Stages
import SiteCompiler.Proofs.Files.Names
import SiteCompiler.Proofs.Image.Source

/-!
# The files of a compiled site

A script is a file named after its component.  Whatever the source, the names of
its components make good names of files, no two of them alike, and none of them
that of the page.

* `nodup_names_of_compile`, `isClassName_of_compile` - the names of a compiled site.
* `nodup_files`, `isFileName_of_mem_files` - the names of its files.
-/

namespace SiteCompiler
namespace Publication

open Files Image Stages

/-! ## Names of components -/

section Compiled

variable {source : String} {site : Site}

theorem nodup_names_of_compile (h : compile source = .ok site) :
    (site.components.map RenderedComponent.name).Nodup := by
  obtain ⟨program, hparse, rfl⟩ := (compile_eq_ok_iff source site).mp h
  rw [map_name_render]
  exact (wellFormed_of_parse hparse).names

theorem isClassName_of_compile (h : compile source = .ok site) {component : RenderedComponent}
    (hcomponent : component ∈ site.components) : IsClassName component.name := by
  obtain ⟨_, -, -, hall⟩ := exists_wellFormed_of_compile h
  obtain ⟨parsed, -, rfl, hwellFormed⟩ := hall component hcomponent
  exact hwellFormed.name

end Compiled

/-- What no word is made of stands in no class name. -/
theorem not_mem_of_isClassName {name : String} (h : IsClassName name) {c : Char}
    (hletter : isWordStart c = false) (hdigit : c.isDigit = false) : c ∉ name.toList := by
  obtain ⟨head, tail, htext, hhead, htail⟩ := h.spelling
  rw [htext, List.mem_cons]
  rintro (rfl | hmem)
  · simp [hletter] at hhead
  · simpa [hletter, hdigit] using htail c hmem

/-! ## Names of files -/

theorem toList_scriptFile (component : RenderedComponent) :
    component.scriptFile.toList = component.name.toList ++ ['.', 'j', 's'] := by
  simp [RenderedComponent.scriptFile]

theorem scriptFile_injective {component other : RenderedComponent}
    (h : component.scriptFile = other.scriptFile) : component.name = other.name := by
  have htext := congrArg String.toList h
  rw [toList_scriptFile, toList_scriptFile] at htext
  exact String.toList_inj.mp (List.append_cancel_right htext)

/-- No script takes the place of the page. -/
theorem scriptFile_ne_pageFile (component : RenderedComponent) :
    component.scriptFile ≠ Site.pageFile := by
  intro h
  have hlast := congrArg (fun text : String => text.toList.getLast?) h
  simp only [toList_scriptFile, Site.pageFile] at hlast
  simp at hlast

theorem isFileName_scriptFile {component : RenderedComponent}
    (h : IsClassName component.name) : IsFileName component.scriptFile := by
  have hlong : 3 ≤ component.scriptFile.toList.length := by
    simp [toList_scriptFile]
  have hne {text : String} (hshort : text.toList.length < 3) : component.scriptFile ≠ text := by
    rintro rfl
    omega
  refine ⟨?_, hne (by decide), hne (by decide), hne (by decide)⟩
  have hname := not_mem_of_isClassName (c := '/') h (by decide) (by decide)
  simp [toList_scriptFile, hname]

theorem isFileName_pageFile : IsFileName Site.pageFile := by
  constructor <;> decide

section Files

variable {site : Site}

theorem map_name_files (site : Site) (options : SiteOptions) :
    (site.files options).map Prod.fst =
      site.components.map RenderedComponent.scriptFile ++ [Site.pageFile] := by
  simp [Site.files, Function.comp_def]

theorem mem_files_iff (site : Site) (options : SiteOptions) (file : String × String) :
    file ∈ site.files options ↔
      (∃ component ∈ site.components, file = (component.scriptFile, component.script)) ∨
        file = (Site.pageFile, site.document options) := by
  simp [Site.files, eq_comm]

theorem isFileName_of_mem_files
    (h : ∀ component ∈ site.components, IsClassName component.name) {options : SiteOptions}
    {file : String × String} (hfile : file ∈ site.files options) : IsFileName file.1 := by
  rcases (mem_files_iff site options file).mp hfile with ⟨component, hcomponent, rfl⟩ | rfl
  · exact isFileName_scriptFile (h component hcomponent)
  · exact isFileName_pageFile

/-- Components of different names make files of different names. -/
theorem nodup_files (h : (site.components.map RenderedComponent.name).Nodup)
    (options : SiteOptions) : ((site.files options).map Prod.fst).Nodup := by
  rw [map_name_files, List.nodup_append]
  refine ⟨?_, by simp, ?_⟩
  · rw [List.Nodup, List.pairwise_map] at h ⊢
    exact h.imp fun hne heq => hne (scriptFile_injective heq)
  · intro name hname page hpage
    obtain ⟨component, -, rfl⟩ := List.mem_map.mp hname
    rw [List.mem_singleton.mp hpage]
    exact scriptFile_ne_pageFile component

end Files

end Publication
end SiteCompiler
