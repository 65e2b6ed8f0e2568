import SiteCompiler.Proofs.Build.Publication

/-!
# Builds without a site

The input of a build is read, scanned and parsed as a whole before the first
directory is made.  If any of these fails, the build ends there, and the tree is
what it was, whatever stands in the place of the output.

* `readText_eq_ok_iff`, `readText_eq_error_iff` - the text of a file and its
  bytes.
* `NoSite` - the four ways in which an input has no site, the earlier before the
  later.
* `noSite_or_site` - an input without a site fails in one of these ways.
* `build_without_site` - what a build answers there, and that it changes nothing.
-/

namespace SiteCompiler
namespace Publication

open Files Stages

/-! ## Bytes and texts -/

theorem toUTF8_of_fromUTF8? {content : ByteArray} {text : String}
    (h : String.fromUTF8? content = some text) : text.toUTF8 = content := by
  unfold String.fromUTF8? at h
  split at h
  · cases h
    rfl
  · cases h

section Reading

variable (tree : FileTree) (input : String)

/-- A file is read as a text exactly if its bytes are those of the text. -/
theorem readText_eq_ok_iff (text : String) :
    tree.readText input = .ok text ↔ tree.readBytes input = .ok text.toUTF8 := by
  unfold FileTree.readText
  cases tree.readBytes input with
  | error fault => simp [bind, Except.bind]
  | ok content =>
      simp only [bind, Except.bind, Except.ok.injEq]
      constructor
      · intro h
        cases hdecoded : String.fromUTF8? content with
        | none => simp [hdecoded] at h
        | some decoded =>
            obtain rfl : decoded = text := by simpa [hdecoded] using h
            exact (toUTF8_of_fromUTF8? hdecoded).symm
      · rintro rfl
        rw [fromUTF8?_toUTF8]

/-- A file is not read as a text if it is not read at all, or if its bytes are those of no text. -/
theorem readText_eq_error_iff (fault : FileFault) :
    tree.readText input = .error fault ↔
      tree.readBytes input = .error fault ∨
      ∃ content, tree.readBytes input = .ok content ∧ (∀ text : String, text.toUTF8 ≠ content) ∧
        fault = .notText := by
  unfold FileTree.readText
  cases tree.readBytes input with
  | error other => simp [bind, Except.bind]
  | ok content =>
      simp only [bind, Except.bind, Except.ok.injEq, reduceCtorEq, false_or, exists_eq_left']
      cases hdecoded : String.fromUTF8? content with
      | none =>
          have hnone : ∀ text : String, text.toUTF8 ≠ content := by
            rintro text rfl
            rw [fromUTF8?_toUTF8] at hdecoded
            cases hdecoded
          constructor
          · rintro ⟨⟩
            exact ⟨hnone, rfl⟩
          · rintro ⟨-, rfl⟩
            rfl
      | some text =>
          constructor
          · rintro ⟨⟩
          · rintro ⟨hnone, -⟩
            exact (hnone text (toUTF8_of_fromUTF8? hdecoded)).elim

end Reading

/-! ## Inputs without a site -/

/-- An input has no site, and why: it is not read, or it is not a text, or its text is not
scanned, or its tokens are not read. -/
inductive NoSite (tree : FileTree) (input : String) : BuildError → Prop where
  | unreadable {fault : FileFault} (hread : tree.readBytes input = .error fault) :
      NoSite tree input (.file ⟨input, fault⟩)
  | notText {content : ByteArray} (hread : tree.readBytes input = .ok content)
      (hnone : ∀ text : String, text.toUTF8 ≠ content) :
      NoSite tree input (.file ⟨input, .notText⟩)
  | unscannable {source : String} {error : ScanError}
      (hread : tree.readBytes input = .ok source.toUTF8) (hscan : scan source = .error error) :
      NoSite tree input (.compile (.scan error))
  | unparsable {source : String} {placed : List (Placed Span)} {error : ParseError Span}
      (hread : tree.readBytes input = .ok source.toUTF8) (hscan : scan source = .ok placed)
      (hparse : (TokenStream.ofScan placed).parse.result = .error error) :
      NoSite tree input (.compile (.parse (error.map Span.position)))

section Input

variable {tree : FileTree} {input : String}

/-- An input without a site is not read as a text, or its text does not compile. -/
theorem NoSite.read_or_compile {error : BuildError} (h : NoSite tree input error) :
    (∃ fault, tree.readText input = .error fault ∧ error = .file ⟨input, fault⟩) ∨
    ∃ source cause, tree.readText input = .ok source ∧ compile source = .error cause ∧
      error = .compile cause := by
  cases h with
  | unreadable hread =>
      exact .inl ⟨_, (readText_eq_error_iff tree input _).mpr (.inl hread), rfl⟩
  | notText hread hnone =>
      exact .inl ⟨_, (readText_eq_error_iff tree input _).mpr (.inr ⟨_, hread, hnone, rfl⟩), rfl⟩
  | unscannable hread hscan =>
      exact .inr ⟨_, _, (readText_eq_ok_iff tree input _).mpr hread, compile_of_scan_error hscan,
        rfl⟩
  | unparsable hread hscan hparse =>
      refine .inr ⟨_, _, (readText_eq_ok_iff tree input _).mpr hread, ?_, rfl⟩
      rw [compile_eq_parse_iff hscan, parse_of_scan_ok hscan, hparse]
      rfl

/-- A text that does not compile is an input without a site. -/
theorem noSite_of_compile_error {source : String} {cause : CompileError}
    (hread : tree.readBytes input = .ok source.toUTF8) (h : compile source = .error cause) :
    NoSite tree input (.compile cause) := by
  cases hscan : scan source with
  | error error =>
      obtain rfl : CompileError.scan error = cause := by
        simpa [compile_of_scan_error hscan] using h
      exact .unscannable hread hscan
  | ok placed =>
      rw [compile_of_scan_ok hscan, mapError_eq_error_iff] at h
      obtain ⟨error, hparse, rfl⟩ := h
      rw [parse_of_scan_ok hscan] at hparse
      cases hrun : (TokenStream.ofScan placed).parse.result with
      | error refusal =>
          obtain rfl : refusal.map Span.position = error := by
            simpa [hrun, Except.map, Except.mapError] using hparse
          exact .unparsable hread hscan hrun
      | ok program => simp [hrun, Except.map, Except.mapError] at hparse

/-- Every input has a site or fails on the way to it. -/
theorem noSite_or_site (tree : FileTree) (input : String) :
    (∃ error, NoSite tree input error) ∨
    ∃ source site, tree.readBytes input = .ok source.toUTF8 ∧ compile source = .ok site := by
  cases hread : tree.readText input with
  | error fault =>
      rcases (readText_eq_error_iff tree input fault).mp hread with hbytes | ⟨_, hbytes, hnone, -⟩
      · exact .inl ⟨_, .unreadable hbytes⟩
      · exact .inl ⟨_, .notText hbytes hnone⟩
  | ok source =>
      have hbytes := (readText_eq_ok_iff tree input source).mp hread
      cases hcompile : compile source with
      | error cause => exact .inl ⟨_, noSite_of_compile_error hbytes hcompile⟩
      | ok site => exact .inr ⟨source, site, hbytes, hcompile⟩

/-! ## What a build answers -/

/-- A build of an input without a site ends with the error of its input, and where it began. -/
theorem NoSite.build {error : BuildError} (h : NoSite tree input error) (directory : String)
    (options : SiteOptions) :
    (build tree input directory options).result = .error error ∧
      (build tree input directory options).tree = tree := by
  rcases h.read_or_compile with ⟨fault, hread, rfl⟩ | ⟨source, cause, hread, hcompile, rfl⟩
  · simp only [SiteCompiler.build, hread, and_self]
  · rw [build_of_compile_error hread hcompile]
    exact ⟨rfl, rfl⟩

/-- A build whose input has no site answers with the first stage that fails on it and leaves the
tree as it was.  In all other cases there is a site to be written. -/
theorem build_without_site (tree : FileTree) (input : String) :
    (∀ error, NoSite tree input error → ∀ directory options,
      (build tree input directory options).result = .error error ∧
        (build tree input directory options).tree = tree) ∧
    (∀ error other, NoSite tree input error → NoSite tree input other → error = other) ∧
    ((¬ ∃ error, NoSite tree input error) ↔
      ∃ source site, tree.readBytes input = .ok source.toUTF8 ∧ compile source = .ok site) := by
  refine ⟨fun error h directory options => h.build directory options, ?unique, ?site⟩
  case unique =>
    intro error other h hother
    -- Both are the answer of one and the same build.
    have hresult := (h.build "" ⟨""⟩).1
    rw [(hother.build "" ⟨""⟩).1] at hresult
    exact (Except.error.inj hresult).symm
  case site =>
    constructor
    · exact fun hnone => (noSite_or_site tree input).resolve_left hnone
    · rintro ⟨source, site, hread, hcompile⟩ ⟨error, h⟩
      have htext := (readText_eq_ok_iff tree input source).mpr hread
      rcases h.read_or_compile with ⟨_, hother, -⟩ | ⟨_, _, hother, hcause, -⟩
      · rw [htext] at hother
        cases hother
      · rw [htext] at hother
        cases hother
        rw [hcompile] at hcause
        cases hcause

end Input

/-- A directory with a source in it, and with the script of an earlier build. -/
def builtTree (source : String) : FileTree :=
  ((sourceTree source).put ["work", "out"] .directory).put ["work", "out", "A.js"]
    (.file "class A".toUTF8)

theorem readBytes_builtTree (source : String) :
    (builtTree source).readBytes "main.zy" = .ok source.toUTF8 := by
  have hname : IsFileName "main.zy" := by constructor <;> decide
  have htext : IsPathText (Path.join "" "main.zy") := by constructor <;> decide
  exact readBytes_join (directory_parse_empty (builtTree source)) hname htext (by decide) rfl

/-- A source that breaks off in its second component is built over an older site. -/
theorem build_without_site_second_component :
    NoSite (builtTree "component A { }\ncomponent") "main.zy"
        (.compile (.parse ⟨.expected .componentName none, ⟨2, 10⟩⟩)) ∧
      (build (builtTree "component A { }\ncomponent") "main.zy" "out" ⟨"A"⟩).tree =
        builtTree "component A { }\ncomponent" := by
  have h : NoSite (builtTree "component A { }\ncomponent") "main.zy"
      (.compile (.parse ⟨.expected .componentName none, ⟨2, 10⟩⟩)) :=
    noSite_of_compile_error (readBytes_builtTree _) (by decide +kernel)
  exact ⟨h, ((build_without_site _ _).1 _ h "out" ⟨"A"⟩).2⟩

end Publication
end SiteCompiler
