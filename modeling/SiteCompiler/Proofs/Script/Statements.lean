import SiteCompiler.Proofs.Script.ClassBody

/-!
# Statements that set the state

The method that sets the state assigns one value after the other and then shows them.  A
value in quotes has every other character in it as it is, line feeds included, so it may
look like statements.  This module reads the method statement by statement, and shows that
there is only one way to do so: a name ends at the first blank or bracket, a value in
quotes at the next quote, and any other value at its semicolon.

* `Statement`, `PlainStatement` - statements that can be told apart.
* `statement_unique`, `bodyLines_unique` - a text begins with one of them at most, and a
  method has one list of them.
* `initStatements`, `init_eq` - the statements that set the state.
* `init_tells_assignments` - they are read off the text of the method.
-/

namespace SiteCompiler
namespace Script

open Lexical Grammar Image

/-! ## Statements can be told apart -/

/-- A statement of a method that sets the state. -/
inductive Statement where
  | assignment (name value : String)
  | call (name : String)
  deriving DecidableEq, Repr

/-- The line of a statement. -/
def Statement.line : Statement → String
  | assignment name value => "this." ++ name ++ " = " ++ value ++ ";"
  | call name => "this." ++ name ++ "();"

/-- The name ends at the blank or at the bracket behind it. -/
structure PlainName (name : List Char) : Prop where
  blank : ' ' ∉ name
  bracket : '(' ∉ name

/-- The value ends at the quote that closes it or, without quotes, at the semicolon behind it. -/
inductive PlainValue : List Char → Prop
  | quoted {content : List Char} : '"' ∉ content → PlainValue ('"' :: (content ++ ['"']))
  | word {text : List Char} : '"' ∉ text → ';' ∉ text → PlainValue text

/-- The parts of the statement end where they should. -/
inductive PlainStatement : Statement → Prop
  | assignment {name value : String} : PlainName name.toList → PlainValue value.toList →
      PlainStatement (.assignment name value)
  | call {name : String} : PlainName name.toList → PlainStatement (.call name)

theorem name_unique {name name' rest rest' : List Char} {c c' : Char} (h : PlainName name)
    (h' : PlainName name') (hc : c = ' ' ∨ c = '(') (hc' : c' = ' ' ∨ c' = '(')
    (heq : name ++ c :: rest = name' ++ c' :: rest') : name = name' ∧ c = c' ∧ rest = rest' := by
  have hrun {name rest : List Char} {c : Char} (h : PlainName name) (hc : c = ' ' ∨ c = '(') :
      IsRun (fun d => d != ' ' && d != '(') name (c :: rest) := by
    constructor
    · intro d hd
      simpa using ⟨ne_of_mem_of_not_mem hd h.blank, ne_of_mem_of_not_mem hd h.bracket⟩
    · rcases hc with rfl | rfl <;> simp
  obtain ⟨hname, hbehind⟩ := (hrun h hc).unique (hrun h' hc') heq
  exact ⟨hname, List.cons.inj hbehind⟩

theorem value_unique {value value' rest rest' : List Char} (h : PlainValue value)
    (h' : PlainValue value') (heq : value ++ ';' :: rest = value' ++ ';' :: rest') :
    value = value' ∧ rest = rest' := by
  -- A value without quotes does not begin with one, and neither does what stands behind it.
  have hmixed {content text rest rest' : List Char} (htext : '"' ∉ text) :
      '"' :: content ++ ';' :: rest ≠ text ++ ';' :: rest' := by
    intro heq
    cases text with
    | nil => simp at heq
    | cons c text =>
        obtain rfl : '"' = c := (List.cons.inj heq).1
        exact htext (by simp)
  cases h with
  | @quoted content hcontent =>
      cases h' with
      | @quoted content' hcontent' =>
          simp only [List.cons_append, List.append_assoc, List.nil_append, List.cons.injEq,
            true_and] at heq
          obtain ⟨rfl, hrest⟩ := append_cons_unique hcontent hcontent' heq
          exact ⟨rfl, (List.cons.inj hrest).2⟩
      | word htext => exact (hmixed htext heq).elim
  | word htext hsemicolon =>
      cases h' with
      | quoted => exact (hmixed htext heq.symm).elim
      | word htext' hsemicolon' => exact append_cons_unique hsemicolon hsemicolon' heq

/-- A text begins with the line of one plain statement at most. -/
theorem statement_unique {statement other : Statement} (h : PlainStatement statement)
    (hother : PlainStatement other) {rest rest' : List Char}
    (heq : statement.line.toList ++ rest = other.line.toList ++ rest') :
    statement = other ∧ rest = rest' := by
  have hparts (name value : String) (rest : List Char) :
      (Statement.assignment name value).line.toList ++ rest =
        "this.".toList ++ (name.toList ++ ' ' :: '=' :: ' ' :: (value.toList ++ ';' :: rest)) := by
    simp [Statement.line]
  have hcall (name : String) (rest : List Char) : (Statement.call name).line.toList ++ rest =
      "this.".toList ++ (name.toList ++ '(' :: ')' :: ';' :: rest) := by
    simp [Statement.line]
  cases h with
  | @assignment name value hname hvalue =>
      cases hother with
      | @assignment name' value' hname' hvalue' =>
          rw [hparts, hparts] at heq
          obtain ⟨hnames, -, hbehind⟩ :=
            name_unique hname hname' (.inl rfl) (.inl rfl) (List.append_cancel_left heq)
          simp only [List.cons.injEq, true_and] at hbehind
          obtain ⟨hvalues, hrest⟩ := value_unique hvalue hvalue' hbehind
          obtain rfl : name = name' := String.toList_inj.mp hnames
          obtain rfl : value = value' := String.toList_inj.mp hvalues
          exact ⟨rfl, hrest⟩
      | @call name' hname' =>
          rw [hparts, hcall] at heq
          obtain ⟨-, hsign, -⟩ :=
            name_unique hname hname' (.inl rfl) (.inr rfl) (List.append_cancel_left heq)
          cases hsign
  | @call name hname =>
      cases hother with
      | @assignment name' value' hname' hvalue' =>
          rw [hcall, hparts] at heq
          obtain ⟨-, hsign, -⟩ :=
            name_unique hname hname' (.inr rfl) (.inl rfl) (List.append_cancel_left heq)
          cases hsign
      | @call name' hname' =>
          rw [hcall, hcall] at heq
          obtain ⟨hnames, -, hbehind⟩ :=
            name_unique hname hname' (.inr rfl) (.inr rfl) (List.append_cancel_left heq)
          obtain rfl : name = name' := String.toList_inj.mp hnames
          simp only [List.cons.injEq, true_and] at hbehind
          exact ⟨rfl, hbehind⟩

/-- A method has one list of plain statements at most.  Its end is not indented as its lines are. -/
theorem bodyLines_unique {statements others : List Statement}
    (h : ∀ statement ∈ statements, PlainStatement statement)
    (hothers : ∀ statement ∈ others, PlainStatement statement) {rest rest' : List Char}
    (heq : bodyLines (statements.map Statement.line) ++ ' ' :: ' ' :: '\x7d' :: rest =
      bodyLines (others.map Statement.line) ++ ' ' :: ' ' :: '\x7d' :: rest') :
    statements = others ∧ rest = rest' := by
  induction statements generalizing others with
  | nil =>
      cases others with
      | nil => simpa [bodyLines] using heq
      | cons other others => simp [bodyLines] at heq
  | cons statement statements ih =>
      cases others with
      | nil => simp [bodyLines] at heq
      | cons other others =>
          obtain ⟨hstatement, hrest⟩ := List.forall_mem_cons.mp h
          obtain ⟨hother, hrest'⟩ := List.forall_mem_cons.mp hothers
          simp only [bodyLines, List.map_cons, List.flatMap_cons, List.append_assoc,
            List.cons_append, List.nil_append, List.cons.injEq, true_and] at heq
          obtain ⟨rfl, hbehind⟩ := statement_unique hstatement hother heq
          obtain ⟨rfl, hend⟩ := ih hrest hrest' (List.cons.inj hbehind).2
          exact ⟨rfl, hend⟩

/-! ## The statements that set the state -/

/-- A variable and the expression of its first value. -/
def assigned (field : Declaration) : String × String :=
  (field.name, literal field.value)

/-- The values are assigned in order, and then they are shown. -/
def initStatements (fields : List Declaration) : List Statement :=
  fields.map (fun field => .assignment (assigned field).1 (assigned field).2) ++
    [.call "updateView"]

theorem init_eq (fields : List Declaration) :
    initMethod fields = ⟨"init", (initStatements fields).map Statement.line⟩ := by
  simp [initMethod, initStatements, Statement.line, assigned, Declaration.assignment, updateLine,
    Function.comp_def]

theorem initStatements_inj (fields others : List Declaration) :
    initStatements fields = initStatements others ↔
      fields.map assigned = others.map assigned := by
  have hmap (fields : List Declaration) : initStatements fields =
      (fields.map assigned).map (fun pair => .assignment pair.1 pair.2) ++
        [.call "updateView"] := by
    simp [initStatements, Function.comp_def]
  rw [hmap, hmap, List.append_left_inj]
  refine (List.map_injective_iff.mpr ?_).eq_iff
  rintro ⟨name, value⟩ ⟨name', value'⟩ h
  exact Prod.ext_iff.mpr (Statement.assignment.inj h)

theorem plainName_of_isIdentifier {name : String} (h : IsIdentifier name) :
    PlainName name.toList :=
  ⟨h.not_mem (by decide), h.not_mem (by decide)⟩

theorem plainValue_literal {token : Token} (h : IsLexeme token) :
    PlainValue (literal token.sourceText).toList := by
  by_cases hbare : literalKind token = .bare
  · rw [toList_literal_of_bare h hbare]
    exact .quoted (literal_of_bare h hbare).1
  · have hkept : classify token.sourceText ≠ .bare := by rwa [classify_sourceText h]
    rw [literal_of_ne_bare hkept]
    unfold literalKind at hbare
    split_ifs at hbare with hstring hnumber htruth
    · obtain ⟨content, hcontent, htext⟩ := exists_content h hstring
      rw [htext]
      exact .quoted hcontent
    · have hnumeral := (isNumeral_sourceText_iff h).mpr hnumber
      exact .word (hnumeral.not_mem (by decide) (by decide) (by decide))
        (hnumeral.not_mem (by decide) (by decide) (by decide))
    · rcases (isTruthValue_iff h).mp htruth with htext | htext
      · rw [htext]
        exact .word (by decide) (by decide)
      · rw [htext]
        exact .word (by decide) (by decide)
    · exact (hbare rfl).elim

theorem plain_initStatements {fields : List Declaration}
    (h : ∀ field ∈ fields, WellFormedDeclaration field) :
    ∀ statement ∈ initStatements fields, PlainStatement statement := by
  intro statement hstatement
  rcases List.mem_append.mp hstatement with hassigned | hlast
  · obtain ⟨field, hfield, rfl⟩ := List.mem_map.mp hassigned
    obtain ⟨token, htoken, htext⟩ := (isValue_iff _).mp (h field hfield).value
    refine .assignment (plainName_of_isIdentifier (h field hfield).name) ?_
    rw [assigned, ← htext]
    exact plainValue_literal htoken.lexeme
  · rw [List.mem_singleton.mp hlast]
    exact .call ⟨by decide, by decide⟩

/-- The statements of a method are read off its text. -/
theorem method_unique {name : String} {statements others : List Statement}
    (h : ∀ statement ∈ statements, PlainStatement statement)
    (hothers : ∀ statement ∈ others, PlainStatement statement)
    (heq : (Method.mk name (statements.map Statement.line)).text =
      (Method.mk name (others.map Statement.line)).text) : statements = others := by
  rw [← String.toList_inj, toList_text, toList_text] at heq
  simp only [methodFront, methodInner, List.append_cancel_left_eq, List.cons.injEq, true_and,
    List.cons_append, List.append_assoc, List.nil_append] at heq
  exact (bodyLines_unique h hothers heq).1

/-- State blocks of any sources have the same text in a script exactly if they assign the same
expressions to the same variables in the same order.  The text has no other reading either, so that
no value adds a statement to it, hides one or changes one. -/
theorem init_tells_assignments {fields others : List Declaration}
    (h : IsDeclared (.state fields)) (hothers : IsDeclared (.state others)) :
    ((initMethod fields).text = (initMethod others).text ↔
      fields.map assigned = others.map assigned) ∧
      (∀ statement ∈ initStatements fields, PlainStatement statement) ∧
        ∀ statements : List Statement, (∀ statement ∈ statements, PlainStatement statement) →
          ((Method.mk "init" (statements.map Statement.line)).text = (initMethod fields).text ↔
            statements = initStatements fields) := by
  have hplain := plain_initStatements (wellFormedBlock_of_isDeclared h)
  have hplain' := plain_initStatements (wellFormedBlock_of_isDeclared hothers)
  have hread {statements : List Statement}
      (hstatements : ∀ statement ∈ statements, PlainStatement statement) :
      (Method.mk "init" (statements.map Statement.line)).text = (initMethod fields).text ↔
        statements = initStatements fields := by
    rw [init_eq]
    exact ⟨method_unique hstatements hplain, fun heq => by rw [heq]⟩
  refine ⟨?_, hplain, fun statements hstatements => hread hstatements⟩
  rw [← initStatements_inj, eq_comm, init_eq others, hread hplain', eq_comm]

def sourceOfSpellings : String :=
  "component A \x7b state \x7b x: \"1;\n    this.y = 2\" y: ativo \x7d \x7d " ++
    "component B \x7b state \x7b x: \"1;\n    this.y = 2\" y: \"ativo\" \x7d \x7d"

def fieldsWithWord : List Declaration :=
  [⟨"x", "\"1;\n    this.y = 2\""⟩, ⟨"y", "ativo"⟩]

def fieldsWithString : List Declaration :=
  [⟨"x", "\"1;\n    this.y = 2\""⟩, ⟨"y", "\"ativo\""⟩]

def programOfSpellings : Program :=
  ⟨[⟨"A", [.state fieldsWithWord]⟩, ⟨"B", [.state fieldsWithString]⟩]⟩

/-- A value over two lines, the second of which looks like a statement, and two spellings of
another. -/
theorem init_tells_assignments_imitated_statement :
    IsDeclared (.state fieldsWithWord) ∧ IsDeclared (.state fieldsWithString) ∧
      (initMethod fieldsWithWord).text = (initMethod fieldsWithString).text ∧
      ∀ statements : List Statement, (∀ statement ∈ statements, PlainStatement statement) →
        ((Method.mk "init" (statements.map Statement.line)).text =
            (initMethod fieldsWithWord).text ↔
          statements = [.assignment "x" "\"1;\n    this.y = 2\"", .assignment "y" "\"ativo\"",
            .call "updateView"]) := by
  have hparse : Program.parse sourceOfSpellings = .ok programOfSpellings := by decide +kernel
  have hword : IsDeclared (.state fieldsWithWord) :=
    ⟨sourceOfSpellings, programOfSpellings, hparse, _, .head _, .head _⟩
  have hstring : IsDeclared (.state fieldsWithString) :=
    ⟨sourceOfSpellings, programOfSpellings, hparse, _, .tail _ (.head _), .head _⟩
  obtain ⟨hsame, -, hread⟩ := init_tells_assignments hword hstring
  have hstatements : initStatements fieldsWithWord =
      [.assignment "x" "\"1;\n    this.y = 2\"", .assignment "y" "\"ativo\"",
        .call "updateView"] := by decide
  rw [hstatements] at hread
  exact ⟨hword, hstring, hsame.mpr (by decide), hread⟩

end Script
end SiteCompiler
