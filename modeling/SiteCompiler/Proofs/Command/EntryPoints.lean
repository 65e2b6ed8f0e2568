import SiteCompiler.Proofs.Command.Runs

/-!
# The ways to compile a source

A source can be scanned, read, compiled, compiled into a bundle, or built by the
command.  All of them pass through the same stages, and so all of them agree.

* `StagesAgree` - what is scanned, read, compiled and bundled.
* `CommandAgrees` - what the command answers, and what it leaves behind.
* `entry_points_agree` - every source is treated alike.
-/

namespace SiteCompiler
namespace Command

open Grammar Image Lexical Publication Stages

/-! ## Without files -/

/-- A source is scanned, read, compiled and bundled alike. -/
structure StagesAgree (source : String) : Prop where
  /-- What the scanner refuses, the reader refuses too, wherever that stands in the source. -/
  parse_scan : ∀ error, Program.parse source = .error (.ofScan error) ↔ scan source = .error error
  /-- An error of the scanner keeps its wording and its place. -/
  wording : ∀ error : ScanError, (ParseError.ofScan error).fault.detail = error.fault.detail ∧
    (ParseError.ofScan error).place = error.position
  compile_scan : ∀ error, compile source = .error (.scan error) ↔ scan source = .error error
  compile_parse : ∀ tokens, scan source = .ok tokens →
    ∀ error, compile source = .error (.parse error) ↔ Program.parse source = .error error
  compile_program : ∀ site, compile source = .ok site ↔
    ∃ program, Program.parse source = .ok program ∧ program.render = site
  bundle_site : ∀ compiled, bundle source = .ok compiled ↔
    ∃ site, compile source = .ok site ∧ compiled = ⟨site.document .standard,
      site.components.map fun component => (component.name, component.script)⟩
  bundle_error : ∀ error, bundle source = .error error ↔ compile source = .error error

theorem bundle_eq_ok_iff (source : String) (compiled : Bundle) :
    bundle source = .ok compiled ↔ ∃ site, compile source = .ok site ∧ compiled = site.bundle := by
  unfold bundle
  cases compile source with
  | error error => simp [Except.map]
  | ok site => simp [Except.map, eq_comm]

theorem bundle_eq_error_iff (source : String) (error : CompileError) :
    bundle source = .error error ↔ compile source = .error error :=
  map_eq_error_iff Site.bundle (compile source) error

theorem stagesAgree (source : String) : StagesAgree source where
  parse_scan := parse_eq_ofScan_iff source
  wording := fun _ => ⟨rfl, rfl⟩
  compile_scan := compile_eq_scan_iff source
  compile_parse := fun _ hscan => compile_eq_parse_iff hscan
  compile_program := compile_eq_ok_iff source
  bundle_site := bundle_eq_ok_iff source
  bundle_error := bundle_eq_error_iff source

/-! ## With files -/

/-- The command answers as the bundle of the source asks for, and leaves the files of the bundle
behind if there is one. -/
structure CommandAgrees (tree : FileTree) (source : String) (reply : Reply) (after : FileTree) :
    Prop where
  built : ∀ compiled, bundle source = .ok compiled → NamesFit compiled →
    reply.exit = 0 ∧ HoldsBundle after (tree.workingDirectory ++ ["dist"]) compiled
  /-- A script whose file cannot be named so fails the run, and stays out with all behind it. -/
  nameTooLong : ∀ compiled, bundle source = .ok compiled → ¬ NamesFit compiled →
    reply.exit = 1 ∧ reply.output = "" ∧ StopsAtName tree compiled reply after
  refused : ∀ error, bundle source = .error error →
    reply.exit = 1 ∧ reply.output = "" ∧
      (∃ warnings, reply.errors = warnings ++ ("Error: " ++ error.message ++ "\n")) ∧
      after = tree ∧ after.find? (tree.workingDirectory ++ ["dist"]) = none

theorem commandAgrees {tree : FileTree} {input source : String}
    (hrun : FreshRun tree input source) :
    CommandAgrees tree source ((Request.build input).perform tree).1
      ((Request.build input).perform tree).2 := by
  refine ⟨?built, ?nameTooLong, ?refused⟩
  case built =>
    intro compiled hbundle hfit
    obtain ⟨site, hcompile, rfl⟩ := (bundle_eq_ok_iff source compiled).mp hbundle
    exact perform_of_names_fit hrun hcompile hfit
  case nameTooLong =>
    intro compiled hbundle hfit
    obtain ⟨site, hcompile, rfl⟩ := (bundle_eq_ok_iff source compiled).mp hbundle
    exact stops_of_not_names_fit hrun hcompile hfit
  case refused =>
    intro error hbundle
    have hcompile := (bundle_eq_error_iff source error).mp hbundle
    rw [perform_of_compile_error hrun hcompile]
    exact ⟨exit_ofBuild_some _ _, output_ofBuild_some _ _, ⟨_, errors_ofBuild_some _ _⟩, rfl,
      hrun.noSite⟩

/-! ## All ways -/

/-- Every source is scanned, read, compiled and bundled alike, and a run of the command on it
agrees with its bundle. -/
theorem entry_points_agree (source : String) :
    StagesAgree source ∧
      ∀ tree input, FreshRun tree input source →
        CommandAgrees tree source ((Request.build input).perform tree).1
          ((Request.build input).perform tree).2 :=
  ⟨stagesAgree source, fun _ _ => commandAgrees⟩

/-- A component without blocks, for every name that there is. -/
theorem parse_component {name : String} (h : IsClassName name) :
    Program.parse ("component " ++ name ++ " { }") = .ok ⟨[⟨name, []⟩]⟩ := by
  obtain ⟨hname, hcan⟩ := (isClassName_iff name).mp h
  let items := [(componentToken, " "), (nameToken name, " "), (openingBrace, " "),
    (closingBrace, "")]
  have htext : "component " ++ name ++ " { }" = printed "" items := by
    rw [← String.toList_inj, toList_printed]
    simp [items, componentToken, nameToken, openingBrace, closingBrace, Token.sourceText]
  have hwritable : Writable (items.map Prod.fst) := by
    simp [items, isLexeme_identifier hname, nameToken]
  have hlexes : Lexes (printed "" items).toList (items.map Prod.fst) := by
    refine lexes_printed hwritable .nil ?_ ?_
    · simp [items, isFiller_space, IsFiller.nil]
    · simp [items]
  rw [htext]
  refine (parse_eq_ok_iff _ _).mpr ⟨_, hlexes, ?_, by simp⟩
  exact .component rfl rfl hcan rfl .nil .nil rfl .nil

theorem bundle_of_parse {source : String} {program : Program}
    (h : Program.parse source = .ok program) : bundle source = .ok program.render.bundle :=
  (bundle_eq_ok_iff _ _).mpr ⟨_, compile_of_parse h, rfl⟩

/-- A run on one component writes its page and its script. -/
theorem entry_points_agree_one_component :
    FreshRun (sourceTree "component A { }") "main.zy" "component A { }" ∧
      ((Request.build "main.zy").perform (sourceTree "component A { }")).1.exit = 0 ∧
      HoldsBundle ((Request.build "main.zy").perform (sourceTree "component A { }")).2
        ["work", "dist"] (Program.render ⟨[⟨"A", []⟩]⟩).bundle := by
  have hrun := freshRun_sourceTree "component A { }"
  have hbundle : bundle "component A { }" = .ok (Program.render ⟨[⟨"A", []⟩]⟩).bundle :=
    bundle_of_parse (by decide +kernel)
  have hfit : NamesFit (Program.render ⟨[⟨"A", []⟩]⟩).bundle := by
    intro entry hentry
    rw [List.mem_singleton.mp hentry]
    decide
  exact ⟨hrun, ((entry_points_agree "component A { }").2 _ _ hrun).built _ hbundle hfit⟩

/-! ## Names that do not fit -/

/-- A name of 253 letters. -/
def longName : String :=
  String.ofList ('A' :: List.replicate 252 'A')

theorem isClassName_longName : IsClassName longName := by
  refine ⟨⟨'A', List.replicate 252 'A', String.toList_ofList, by decide, ?_⟩, ?_, ?_, ?_⟩
  · intro c hc
    rw [List.eq_of_mem_replicate hc]
    decide
  · decide +kernel
  · decide +kernel
  · decide +kernel

/-- A component whose name makes too long a name for a file. -/
def longNamed : String :=
  "component " ++ longName ++ " { }"

theorem parse_longNamed : Program.parse longNamed = .ok ⟨[⟨longName, []⟩]⟩ :=
  parse_component isClassName_longName

theorem not_namesFit_longName : ¬ NamesFit (Program.render ⟨[⟨longName, []⟩]⟩).bundle := by
  have hlong : nameLimit < (longName ++ ".js").utf8ByteSize := by decide +kernel
  intro hall
  have hfits := (namesFit_bundle_iff _).mp hall (Component.render ⟨longName, []⟩)
    List.mem_cons_self
  exact Nat.not_lt.mpr hfits hlong

/-- A source can have a bundle that the command does not build, as the name of a component may be
too long for a file.  And two programs can have one site, as an empty interface does not show. -/
theorem not_every_bundle_is_built :
    (bundle longNamed = .ok (Program.render ⟨[⟨longName, []⟩]⟩).bundle ∧
      FreshRun (sourceTree longNamed) "main.zy" longNamed ∧
      ((Request.build "main.zy").perform (sourceTree longNamed)).1.exit ≠ 0) ∧
    (compile "component A { }" = .ok (Program.render ⟨[⟨"A", [.interface []]⟩]⟩) ∧
      Program.parse "component A { }" ≠ .ok ⟨[⟨"A", [.interface []]⟩]⟩) := by
  have hrun := freshRun_sourceTree longNamed
  have hcompile := compile_of_parse parse_longNamed
  have hexit := (stops_of_not_names_fit hrun hcompile not_namesFit_longName).1
  refine ⟨⟨bundle_of_parse parse_longNamed, hrun, ?_⟩, ?_, ?_⟩
  · simp [hexit]
  · exact (compile_eq_ok_iff _ _).mpr ⟨⟨[⟨"A", []⟩]⟩, by decide +kernel, rfl⟩
  · decide +kernel

end Command
end SiteCompiler
