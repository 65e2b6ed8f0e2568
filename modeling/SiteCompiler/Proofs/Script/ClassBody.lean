import SiteCompiler.Proofs.Compile.Stages
import SiteCompiler.Proofs.Script.Nesting
import SiteCompiler.Proofs.Script.Values

/-!
# What a class encloses

A script is one class and one instance of it.  Names, values and handler bodies of a source
go into the script as they are, and none of them closes a brace that it has not opened, or
leaves a quote open.  So the braces of the class and of its methods enclose what was meant
to stand in them.

* `closed_literal`, `closed_of_isBody` - the texts that come from a source.
* `ClosedMethod`, `closedMethod_of_mem` - the methods of a class.
* `Enclosed` - what the braces of a script enclose.
* `enclosed_of_wellFormed`, `scripts_enclosed_of_compile` - the scripts of well-formed
  programs, and those of a site.
-/

namespace SiteCompiler
namespace Script

open Lexical Grammar Image Stages Nesting

/-! ## Texts of a source -/

/-- A name between two inert texts. -/
theorem inert_around {front name behind : String} (hfront : Inert front.toList)
    (hname : Inert name.toList) (hbehind : Inert behind.toList) :
    Inert (front ++ name ++ behind).toList := by
  rw [String.toList_append, String.toList_append, inert_append, inert_append]
  exact ⟨⟨hfront, hname⟩, hbehind⟩

theorem inert_of_isIdentifier {name : String} (h : IsIdentifier name) : Inert name.toList :=
  inert_of_not_mem fun _ hdelimiter => h.not_mem (eq_false_of_any (by decide) hdelimiter)

theorem sourceText_of_brace {token : Token} (h : IsLexeme token) :
    (token.kind = .leftBrace → token.sourceText.toList = ['\x7b']) ∧
      (token.kind = .rightBrace → token.sourceText.toList = ['\x7d']) := by
  obtain ⟨text, rest, hlexeme⟩ := h
  rw [hlexeme.sourceText_eq]
  cases hlexeme with
  | punctuation hmem => constructor <;> rintro rfl <;> simpa [punctuation] using hmem
  | word =>
      exact ⟨fun hkind => (wordKind_ne (by decide) _ hkind).elim,
        fun hkind => (wordKind_ne (by decide) _ hkind).elim⟩
  | _ => constructor <;> intro hkind <;> cases hkind

/-- A token that is no brace closes what it opens. -/
theorem closed_sourceText {token : Token} (h : IsLexeme token) (hopening : token.kind ≠ .leftBrace)
    (hclosing : token.kind ≠ .rightBrace) : Closed token.sourceText.toList := by
  by_cases hstring : token.kind = .string
  · obtain ⟨content, hcontent, htext⟩ := exists_content h hstring
    rw [htext]
    exact closed_of_quoted hcontent
  · obtain ⟨text, rest, hlexeme⟩ := h
    rw [hlexeme.sourceText_eq]
    have hbraces : ∀ entry ∈ punctuation, entry.1 ∈ delimiters →
        entry.2 = .leftBrace ∨ entry.2 = .rightBrace := by decide
    refine closed_of_inert (inert_of_not_mem ?_)
    intro c hc
    refine hlexeme.not_mem hstring (eq_false_of_any (by decide) hc) ?_
    intro hmem
    exact (hbraces _ hmem hc).elim hopening hclosing

/-- A value closes what it opens, and so it does in quotes. -/
theorem closed_literal {token : Token} (h : ValueToken token) :
    Closed (literal token.sourceText).toList := by
  by_cases hbare : classify token.sourceText = .bare
  · rw [classify_sourceText h.lexeme] at hbare
    rw [toList_literal_of_bare h.lexeme hbare]
    exact closed_of_quoted (literal_of_bare h.lexeme hbare).1
  · rw [literal_of_ne_bare hbare]
    exact closed_sourceText h.lexeme h.notOpening h.notClosing

/-! ## Handler bodies -/

theorem closed_wordOf {token : Token} (h : IsLexeme token) (hopening : token.kind ≠ .leftBrace)
    (hclosing : token.kind ≠ .rightBrace) : Closed (wordOf token).toList := by
  unfold wordOf
  split
  case isTrue hkind =>
    have hname := inert_of_isIdentifier (h.isIdentifier hkind)
    rw [String.toList_append]
    exact closed_of_inert ((inert_append _ _).mpr ⟨by decide, hname⟩)
  case isFalse => exact closed_sourceText h hopening hclosing

theorem wordOf_of_brace {token : Token} (h : IsLexeme token) :
    (token.kind = .leftBrace → (wordOf token).toList = ['\x7b']) ∧
      (token.kind = .rightBrace → (wordOf token).toList = ['\x7d']) := by
  obtain ⟨hopening, hclosing⟩ := sourceText_of_brace h
  constructor
  · intro hkind
    simpa [wordOf, hkind] using hopening hkind
  · intro hkind
    simpa [wordOf, hkind] using hclosing hkind

/-- The words of a body, each with a space behind it. -/
def spacedWords (body : List Token) : List Char :=
  body.flatMap fun token => (wordOf token).toList ++ [' ']

theorem closed_spacedWords {body : List Token} (h : Balanced body) (hwritable : Writable body) :
    Closed (spacedWords body) := by
  have hspace : Closed [' '] := closed_of_inert (by decide)
  induction h with
  | nil => exact closed_of_inert (by decide)
  | word hopening hclosing _ ih =>
      obtain ⟨htoken, hrest⟩ := (writable_cons _ _).mp hwritable
      have hword := closed_wordOf htoken hopening hclosing
      exact (hword.append hspace).append (ih hrest)
  | @braces opening closing inner rest hopening _ hclosing _ ihInner ihRest =>
      simp only [writable_cons, writable_append] at hwritable
      obtain ⟨hopeningToken, hinner, hclosingToken, hrest⟩ := hwritable
      have htext : spacedWords (opening :: (inner ++ closing :: rest)) =
          '\x7b' :: (' ' :: spacedWords inner ++ ['\x7d']) ++ ([' '] ++ spacedWords rest) := by
        simp [spacedWords, (wordOf_of_brace hopeningToken).1 hopening,
          (wordOf_of_brace hclosingToken).2 hclosing]
      rw [htext]
      exact (hspace.append (ihInner hinner)).braces.append (hspace.append (ihRest hrest))

theorem toList_bodyText_append {body : List Token} (h : body ≠ []) :
    (bodyText body).toList ++ [' '] = spacedWords body := by
  induction body with
  | nil => exact (h rfl).elim
  | cons token body ih =>
      cases body with
      | nil => simp [bodyText, spacedWords]
      | cons next body =>
          have hrest := ih (List.cons_ne_nil next body)
          have hbody : (bodyText (token :: next :: body)).toList =
              (wordOf token).toList ++ [' '] ++ (bodyText (next :: body)).toList := by
            simp [bodyText]
          rw [hbody, List.append_assoc, hrest]
          rfl

/-- A handler body closes what it opens. -/
theorem closed_of_isBody {body : String} (h : IsBody body) : Closed body.toList := by
  obtain ⟨tokens, hwritable, hbalanced, rfl⟩ := (isBody_iff body).mp h
  by_cases hnone : tokens = []
  · rw [hnone]
    exact closed_of_inert (by decide)
  · have hspaced := closed_spacedWords hbalanced hwritable
    rw [← toList_bodyText_append hnone] at hspaced
    exact closed_of_append_inert hspaced (by decide)

/-! ## Methods -/

theorem closed_lineFeed : Closed ['\n'] :=
  closed_of_inert (by decide)

/-- Lines of a method, as they stand in the script. -/
def bodyLines (lines : List String) : List Char :=
  lines.flatMap fun line => [' ', ' ', ' ', ' '] ++ (line.toList ++ ['\n'])

/-- What stands in front of the brace of a method. -/
def methodFront (method : Method) : List Char :=
  ("  " ++ method.name ++ "() ").toList

/-- What the brace of a method is meant to enclose. -/
def methodInner (method : Method) : List Char :=
  '\n' :: (bodyLines method.body ++ [' ', ' '])

theorem toList_text (method : Method) :
    method.text.toList =
      methodFront method ++ '\x7b' :: (methodInner method ++ '\x7d' :: ['\n', '\n']) := by
  simp [Method.text, Method.lines, methodFront, methodInner, bodyLines, List.flatMap_map]

/-- Methods that close what they open. -/
structure ClosedMethod (method : Method) : Prop where
  name : Inert method.name.toList
  body : Closed (bodyLines method.body)

theorem closed_bodyLines {lines : List String} (h : ∀ line ∈ lines, Closed line.toList) :
    Closed (bodyLines lines) := by
  refine closed_flatMap fun line hline => ?_
  exact (closed_of_inert (by decide)).append ((h line hline).append (closed_of_inert (by decide)))

theorem closed_rootLine {name : String} (h : Inert name.toList) :
    Closed (rootLine name).toList :=
  closed_of_inert (inert_around (by decide) h (by decide))

theorem closedMethod_constructor : ClosedMethod constructorMethod :=
  ⟨by decide, by decide +kernel⟩

/-- The lines behind the first are the same for every component. -/
theorem closedMethod_of_rootLine {name : String} (h : Inert name.toList) {method : String}
    {lines : List String} (hmethod : Inert method.toList) (hlines : Closed (bodyLines lines)) :
    ClosedMethod ⟨method, rootLine name :: lines⟩ := by
  refine ⟨hmethod, ?_⟩
  have hroot : Closed (bodyLines [rootLine name]) :=
    closed_bodyLines fun line hline => by
      rw [List.mem_singleton.mp hline]
      exact closed_rootLine h
  have hboth := hroot.append hlines
  simpa [bodyLines] using hboth

theorem closedMethod_setup {name : String} (h : Inert name.toList) :
    ClosedMethod (setupMethod name) :=
  closedMethod_of_rootLine h (by decide) (by decide +kernel)

theorem closedMethod_update {name : String} (h : Inert name.toList) :
    ClosedMethod (updateMethod name) :=
  closedMethod_of_rootLine h (by decide) (by decide +kernel)

theorem closed_updateLine : Closed updateLine.toList :=
  closed_of_inert (by decide)

theorem closed_value {field : Declaration} (h : WellFormedDeclaration field) :
    Closed (literal field.value).toList := by
  obtain ⟨token, htoken, htext⟩ := (isValue_iff _).mp h.value
  rw [← htext]
  exact closed_literal htoken

theorem inert_assigned {field : Declaration} (h : WellFormedDeclaration field) :
    Inert ("this." ++ field.name ++ " = ").toList :=
  inert_around (by decide) (inert_of_isIdentifier h.name) (by decide)

theorem closed_assignment {field : Declaration} (h : WellFormedDeclaration field) :
    Closed field.assignment.toList := by
  rw [Declaration.assignment, String.toList_append, String.toList_append]
  exact ((closed_of_inert (inert_assigned h)).append (closed_value h)).append
    (closed_of_inert (by decide))

theorem closedMethod_init {fields : List Declaration}
    (h : ∀ field ∈ fields, WellFormedDeclaration field) : ClosedMethod (initMethod fields) := by
  have hname : Inert "init".toList := by decide
  refine ⟨hname, closed_bodyLines ?_⟩
  intro line hline
  rcases List.mem_append.mp hline with hline | hline
  · obtain ⟨field, hfield, rfl⟩ := List.mem_map.mp hline
    exact closed_assignment (h field hfield)
  · rw [List.mem_singleton.mp hline]
    exact closed_updateLine

theorem closedMethod_handler {handler : Handler} (h : WellFormedHandler handler) :
    ClosedMethod handler.method := by
  refine ⟨inert_of_isIdentifier h.name, closed_bodyLines ?_⟩
  intro line hline
  rcases List.mem_append.mp hline with hline | hline
  · have hbody : line = handler.body := by
      split at hline
      · cases hline
      · exact List.mem_singleton.mp hline
    rw [hbody]
    exact closed_of_isBody h.body
  · rw [List.mem_singleton.mp hline]
    exact closed_updateLine

theorem inert_className {component : Component} (h : WellFormedComponent component) :
    Inert component.name.toList :=
  inert_of_isIdentifier ((isClassName_iff _).mp h.name).1

/-- The methods of a class close what they open. -/
theorem closedMethod_of_mem {component : Component} (h : WellFormedComponent component)
    {method : Method} (hmethod : method ∈ component.methods) : ClosedMethod method := by
  have hname := inert_className h
  simp only [Component.methods, List.mem_append, List.mem_cons, List.not_mem_nil, or_false,
    List.mem_filterMap] at hmethod
  rcases hmethod with ((rfl | rfl | rfl) | himplied) | ⟨block, hblock, hadded⟩
  · exact closedMethod_constructor
  · exact closedMethod_setup hname
  · exact closedMethod_update hname
  · have hempty : method = initMethod [] := by
      unfold Component.impliedMethods at himplied
      split at himplied
      · exact List.mem_singleton.mp himplied
      · cases himplied
    rw [hempty]
    exact closedMethod_init (by simp)
  · have hwellFormed := h.blocks block hblock
    cases block with
    | state fields =>
        cases hadded
        exact closedMethod_init hwellFormed
    | event handler =>
        cases hadded
        exact closedMethod_handler hwellFormed
    | style | interface => cases hadded

/-! ## Scripts -/

/-- What stands in front of the brace of a class. -/
def classFront (component : Component) : List Char :=
  ("class " ++ component.name ++ " ").toList

/-- Methods one behind the other. -/
def methodTexts (methods : List Method) : List Char :=
  methods.flatMap fun method => method.text.toList

/-- What the brace of a class is meant to enclose. -/
def classInner (component : Component) : List Char :=
  '\n' :: methodTexts component.methods

/-- What stands behind the brace that closes a class. -/
def classBehind (component : Component) : List Char :=
  ("\n\nnew " ++ component.name ++ "();\n").toList

theorem toList_script (component : Component) :
    component.script.toList =
      classFront component ++
        '\x7b' :: (classInner component ++ '\x7d' :: classBehind component) := by
  simp [Component.script, classFront, classInner, classBehind, methodTexts, Method.text,
    List.flatMap_assoc]

theorem inert_methodFront {method : Method} (h : ClosedMethod method) :
    Inert (methodFront method) :=
  inert_around (by decide) h.name (by decide)

theorem inert_classFront {component : Component} (h : WellFormedComponent component) :
    Inert (classFront component) :=
  inert_around (by decide) (inert_className h) (by decide)

theorem closed_methodInner {method : Method} (h : ClosedMethod method) :
    Closed (methodInner method) := by
  exact closed_lineFeed.append (h.body.append (closed_of_inert (by decide)))

theorem encloses_method {method : Method} (h : ClosedMethod method) (depth : Int) :
    Encloses (unquoted depth) (methodFront method) (methodInner method) ['\n', '\n'] :=
  encloses_of_closed (inert_methodFront h) (closed_methodInner h) (by decide) depth

theorem closed_text {method : Method} (h : ClosedMethod method) : Closed method.text.toList := by
  have hbehind : Closed ['\n', '\n'] := closed_of_inert (by decide)
  have htext : method.text.toList = methodFront method ++
      ('\x7b' :: (methodInner method ++ ['\x7d']) ++ ['\n', '\n']) := by
    simp [toList_text]
  rw [htext]
  exact (closed_of_inert (inert_methodFront h)).append
    ((closed_methodInner h).braces.append hbehind)

theorem closed_methodTexts {methods : List Method} (h : ∀ method ∈ methods, ClosedMethod method) :
    Closed (methodTexts methods) :=
  closed_flatMap fun method hmethod => closed_text (h method hmethod)

theorem encloses_class {component : Component} (h : WellFormedComponent component) :
    Encloses (unquoted 0) (classFront component) (classInner component)
      (classBehind component) := by
  have hmethods : Closed (methodTexts component.methods) :=
    closed_methodTexts fun method hmethod => closedMethod_of_mem h hmethod
  have hbehind : Inert (classBehind component) :=
    inert_around (by decide) (inert_className h) (by decide)
  exact encloses_of_closed (inert_classFront h) (closed_lineFeed.append hmethods) hbehind 0

/-! ## What a class encloses -/

/-- The class encloses its methods, every method what it is meant to, and among that the values of
the variables and the bodies of the handlers. -/
structure Enclosed (component : Component) (script : String) : Prop where
  parts : script.toList =
    classFront component ++ '\x7b' :: (classInner component ++ '\x7d' :: classBehind component)
  inside : Encloses (unquoted 0) (classFront component) (classInner component)
    (classBehind component)
  method : ∀ method ∈ component.methods,
    (∃ before behind, script.toList = before ++ (method.text.toList ++ behind) ∧
      (unquoted 0).after before = unquoted 1) ∧
    method.text.toList =
      methodFront method ++ '\x7b' :: (methodInner method ++ '\x7d' :: ['\n', '\n']) ∧
    Encloses (unquoted 1) (methodFront method) (methodInner method) ['\n', '\n']
  value : ∀ fields, .state fields ∈ component.blocks →
    initMethod fields ∈ component.methods ∧ ∀ field ∈ fields,
      StandsIn (unquoted 2) ("this." ++ field.name ++ " = ").toList (literal field.value).toList
        (methodInner (initMethod fields))
  handler : ∀ handler, .event handler ∈ component.blocks →
    handler.method ∈ component.methods ∧
      StandsIn (unquoted 2) [' ', ' ', ' ', ' '] handler.body.toList
        (methodInner handler.method)

theorem mem_methods {component : Component} {block : Block} {method : Method}
    (hblock : block ∈ component.blocks) (hmethod : block.method? = some method) :
    method ∈ component.methods :=
  List.mem_append_right _ (List.mem_filterMap.mpr ⟨block, hblock, hmethod⟩)

/-- The methods in front of a method close what they open. -/
theorem exists_place_of_method {component : Component} (h : WellFormedComponent component)
    {method : Method} (hmethod : method ∈ component.methods) :
    ∃ before behind, component.script.toList = before ++ (method.text.toList ++ behind) ∧
      (unquoted 0).after before = unquoted 1 := by
  obtain ⟨earlier, later, hmethods⟩ := List.append_of_mem hmethod
  have hearlier : Closed (methodTexts earlier) := by
    refine closed_methodTexts fun other hother => closedMethod_of_mem h ?_
    rw [hmethods]
    exact List.mem_append_left _ hother
  have hopen : (unquoted 0).after ['\x7b', '\n'] = unquoted 1 := by decide
  refine ⟨classFront component ++ (['\x7b', '\n'] ++ methodTexts earlier),
    methodTexts later ++ '\x7d' :: classBehind component, ?_, ?_⟩
  · simp [toList_script, classInner, methodTexts, hmethods]
  · rw [after_append, (inert_classFront h).after, after_append, hopen, hearlier.after]

theorem standsIn_value {fields : List Declaration}
    (h : ∀ field ∈ fields, WellFormedDeclaration field) {field : Declaration}
    (hfield : field ∈ fields) :
    StandsIn (unquoted 2) ("this." ++ field.name ++ " = ").toList (literal field.value).toList
      (methodInner (initMethod fields)) := by
  have hlead := inert_assigned (h field hfield)
  have hspaces : Closed [' ', ' ', ' ', ' '] := closed_of_inert (by decide)
  obtain ⟨earlier, later, rfl⟩ := List.append_of_mem hfield
  have hearlier : Closed (bodyLines (earlier.map Declaration.assignment)) := by
    refine closed_bodyLines fun line hline => ?_
    obtain ⟨other, hother, rfl⟩ := List.mem_map.mp hline
    exact closed_assignment (h other (List.mem_append_left _ hother))
  have hinner : methodInner (initMethod (earlier ++ field :: later)) =
      ['\n'] ++ (bodyLines (earlier.map Declaration.assignment) ++ [' ', ' ', ' ', ' ']) ++
        (("this." ++ field.name ++ " = ").toList ++ ((literal field.value).toList ++
          ([';', '\n'] ++ bodyLines (later.map Declaration.assignment ++ [updateLine]) ++
            [' ', ' ']))) := by
    simp [methodInner, initMethod, bodyLines, Declaration.assignment]
  exact standsIn_of_closed hinner (closed_lineFeed.append (hearlier.append hspaces)) hlead
    (closed_value (h field hfield)) 2

theorem standsIn_body {handler : Handler} (h : WellFormedHandler handler) :
    StandsIn (unquoted 2) [' ', ' ', ' ', ' '] handler.body.toList
      (methodInner handler.method) := by
  have hbody := closed_of_isBody h.body
  by_cases hempty : handler.body = ""
  · -- Without a line of its own, the body stands in front of the next line.
    have hinner : methodInner handler.method = ['\n'] ++ ([' ', ' ', ' ', ' '] ++
        (handler.body.toList ++ (updateLine.toList ++ ['\n', ' ', ' ']))) := by
      simp [methodInner, Handler.method, bodyLines, hempty]
    exact standsIn_of_closed hinner closed_lineFeed (by decide) hbody 2
  · have hinner : methodInner handler.method = ['\n'] ++ ([' ', ' ', ' ', ' '] ++
        (handler.body.toList ++ ('\n' :: (bodyLines [updateLine] ++ [' ', ' '])))) := by
      simp [methodInner, Handler.method, bodyLines, hempty]
    exact standsIn_of_closed hinner closed_lineFeed (by decide) hbody 2

/-- The script of a well-formed component encloses what it is meant to. -/
theorem enclosed_of_wellFormed {component : Component} (h : WellFormedComponent component) :
    Enclosed component component.script where
  parts := toList_script component
  inside := encloses_class h
  method method hmethod :=
    ⟨exists_place_of_method h hmethod, toList_text method,
      encloses_method (closedMethod_of_mem h hmethod) 1⟩
  value _ hblock :=
    ⟨mem_methods hblock rfl, fun _ hfield => standsIn_value (h.blocks _ hblock) hfield⟩
  handler _ hblock := ⟨mem_methods hblock rfl, standsIn_body (h.blocks _ hblock)⟩

/-- No source breaks out of its class.  Of every source that compiles, the script of each component
encloses what it is meant to: read with its quoted segments passed over, it opens a brace for the
class and closes it last, and no value and no handler body closes the method that it stands in. -/
theorem scripts_enclosed_of_compile {source : String} {site : Site}
    (h : compile source = .ok site) :
    ∃ program, Program.parse source = .ok program ∧ program.render = site ∧
      ∀ rendered ∈ site.components, ∃ component ∈ program.components,
        rendered = component.render ∧ Enclosed component rendered.script := by
  obtain ⟨program, hparse, hrender, hall⟩ := exists_wellFormed_of_compile h
  refine ⟨program, hparse, hrender, ?_⟩
  intro rendered hrendered
  obtain ⟨component, hcomponent, rfl, hwellFormed⟩ := hall rendered hrendered
  rw [component.script_render]
  exact ⟨component, hcomponent, rfl, enclosed_of_wellFormed hwellFormed⟩

def bracesSource : String :=
  "component A \x7b state \x7b x: \"\x7d\" \x7d " ++
    "eventos \x7b f -> \x7b if x \x7b y = \"\x7b\" \x7d \x7d \x7d \x7d"

def bracesProgram : Program :=
  ⟨[⟨"A", [.state [⟨"x", "\"\x7d\""⟩],
    .event ⟨"f", "if this.x \x7b this.y = \"\x7b\" \x7d"⟩]⟩]⟩

/-- Braces in quotes, and braces in a handler body. -/
theorem scripts_enclosed_of_compile_quoted_braces :
    compile bracesSource = .ok bracesProgram.render ∧
      ∃ program, Program.parse bracesSource = .ok program ∧
        program.render = bracesProgram.render ∧
        ∀ rendered ∈ bracesProgram.render.components, ∃ component ∈ program.components,
          rendered = component.render ∧ Enclosed component rendered.script := by
  have hparse : Program.parse bracesSource = .ok bracesProgram := by decide +kernel
  have hcompile : compile bracesSource = .ok bracesProgram.render :=
    compile_of_parse hparse
  exact ⟨hcompile, scripts_enclosed_of_compile hcompile⟩

end Script
end SiteCompiler
