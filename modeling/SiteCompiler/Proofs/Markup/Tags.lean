import SiteCompiler.Markup
import SiteCompiler.Proofs.Image.Source

/-!
# Tags

The markup of an element has names and texts of a source in it as they are.  Nothing is
escaped, so all that keeps a value inside its attribute is that it has no quote.  This
module says what a start tag is, shows that no text begins with two of them, and reads the
element off the tag with which its markup begins.

* `StartTag`, `Plain` - start tags whose names and values can be told apart.
* `startTag_unique` - a text begins with one such tag at most.
* `Element.startTag`, `markup_eq` - the tag of an element, and what stands behind it.
* `plain_startTag` - the tags of elements that are well formed.
* `markup_tells_element` - what two elements with the same markup have in common.
-/

namespace SiteCompiler

/-! ## The tag of an element -/

/-- An attribute of a tag and its value. -/
structure Attribute where
  name : String
  value : String
  deriving DecidableEq, Repr

def Attribute.text (mark : Attribute) : String :=
  tagAttribute mark.name mark.value

/-- The name of a tag and its attributes. -/
structure StartTag where
  name : String
  marks : List Attribute
  deriving DecidableEq, Repr

def StartTag.text (tag : StartTag) : String :=
  "<" ++ tag.name ++ String.join (tag.marks.map Attribute.text) ++ ">"

namespace Element

/-- The variable that the text of an element follows, if it has a text that follows one. -/
def binding (element : Element) : Option String :=
  element.text.bind DisplayText.binding

/-- What an element shows before any script runs; without a text it shows nothing. -/
def placeholder (element : Element) : String :=
  (element.text.map DisplayText.placeholder).getD ""

/-- The tag with which the markup of an element begins. -/
def startTag (element : Element) : StartTag :=
  ⟨tagOf element.name, [⟨"class", element.name⟩] ++
    (element.binding.map (Attribute.mk "data-bind")).toList ++
      (element.action.map (Attribute.mk "data-action")).toList⟩

/-- The tag with which the markup of an element ends, and the line feed behind it. -/
def endTag (element : Element) : String :=
  "</" ++ tagOf element.name ++ ">\n"

end Element

namespace Markup

open Lexical Image

/-- The markup of an element is its start tag, its text and its end tag. -/
theorem markup_eq (element : Element) :
    element.markup = element.startTag.text ++ (element.placeholder ++ element.endTag) := by
  obtain ⟨name, text, action⟩ := element
  rw [← String.toList_inj]
  cases action <;> rcases text with _ | _ | _ <;>
    simp [Element.markup, Element.startTag, Element.binding, Element.placeholder, Element.endTag,
      StartTag.text, Attribute.text, DisplayText.binding]

/-! ## Tags can be told apart -/

/-- The name of the attribute ends at the sign behind it, and its value at the quote behind it. -/
def PlainAttribute (mark : Attribute) : Prop :=
  '=' ∉ mark.name.toList ∧ '"' ∉ mark.value.toList

/-- The name of the tag ends where it should, and so does each of its attributes. -/
structure Plain (tag : StartTag) : Prop where
  blank : ' ' ∉ tag.name.toList
  bracket : '>' ∉ tag.name.toList
  marks : ∀ mark ∈ tag.marks, PlainAttribute mark

/-- Attributes one behind the other. -/
def marksText (marks : List Attribute) : List Char :=
  marks.flatMap fun mark =>
    ' ' :: (mark.name.toList ++ '=' :: '"' :: (mark.value.toList ++ ['"']))

theorem toList_text_append (tag : StartTag) (rest : List Char) :
    tag.text.toList ++ rest = '<' :: (tag.name.toList ++ (marksText tag.marks ++ '>' :: rest)) := by
  simp [StartTag.text, Attribute.text, marksText, tagAttribute, List.flatMap_map]

/-- A blank goes on with an attribute, and a bracket ends them. -/
theorem marks_unique {marks others : List Attribute} (h : ∀ mark ∈ marks, PlainAttribute mark)
    (hothers : ∀ mark ∈ others, PlainAttribute mark) {rest rest' : List Char}
    (heq : marksText marks ++ '>' :: rest = marksText others ++ '>' :: rest') :
    marks = others ∧ rest = rest' := by
  induction marks generalizing others with
  | nil =>
      cases others with
      | nil => exact ⟨rfl, (List.cons.inj heq).2⟩
      | cons other others => simp [marksText] at heq
  | cons mark marks ih =>
      cases others with
      | nil => simp [marksText] at heq
      | cons other others =>
          obtain ⟨⟨hname, hvalue⟩, hrest⟩ := List.forall_mem_cons.mp h
          obtain ⟨⟨hname', hvalue'⟩, hrest'⟩ := List.forall_mem_cons.mp hothers
          simp only [marksText, List.flatMap_cons, List.cons_append, List.append_assoc,
            List.nil_append, List.cons.injEq, true_and] at heq
          obtain ⟨hnames, heq⟩ := append_cons_unique hname hname' heq
          obtain ⟨hvalues, heq⟩ := append_cons_unique hvalue hvalue' (List.cons.inj heq).2
          obtain ⟨rfl, hbehind⟩ := ih hrest hrest' heq
          obtain ⟨name, value⟩ := mark
          obtain ⟨name', value'⟩ := other
          obtain rfl : name = name' := String.toList_inj.mp hnames
          obtain rfl : value = value' := String.toList_inj.mp hvalues
          exact ⟨rfl, hbehind⟩

theorem isRun_name {tag : StartTag} (h : Plain tag) (rest : List Char) :
    IsRun (fun c => c != ' ' && c != '>') tag.name.toList
      (marksText tag.marks ++ '>' :: rest) := by
  constructor
  · intro c hc
    simpa using ⟨ne_of_mem_of_not_mem hc h.blank, ne_of_mem_of_not_mem hc h.bracket⟩
  · cases tag.marks with
    | nil => simp [marksText]
    | cons mark marks => simp [marksText]

/-- A text begins with one plain start tag at most. -/
theorem startTag_unique {tag other : StartTag} (h : Plain tag) (hother : Plain other)
    {rest rest' : List Char} (heq : tag.text.toList ++ rest = other.text.toList ++ rest') :
    tag = other ∧ rest = rest' := by
  rw [toList_text_append, toList_text_append] at heq
  obtain ⟨hname, hbehind⟩ :=
    (isRun_name h rest).unique (isRun_name hother rest') (List.cons.inj heq).2
  obtain ⟨hmarks, hrest⟩ := marks_unique h.marks hother.marks hbehind
  obtain ⟨name, marks⟩ := tag
  obtain ⟨name', marks'⟩ := other
  obtain rfl : name = name' := String.toList_inj.mp hname
  obtain rfl : marks = marks' := hmarks
  exact ⟨rfl, hrest⟩

/-! ## Elements of a source -/

theorem plain_startTag {element : Element} (h : WellFormedElement element) :
    Plain element.startTag := by
  have hidentifier {name : String} (hname : IsIdentifier name) : '"' ∉ name.toList :=
    hname.not_mem (by decide)
  have hbinding : ∀ name ∈ element.binding, '"' ∉ name.toList := by
    intro name hname
    obtain ⟨text, htext, hbound⟩ := Option.bind_eq_some_iff.mp hname
    cases text with
    | literal text => cases hbound
    | bound followed =>
        cases hbound
        exact hidentifier (h.text _ htext)
  have htag : ' ' ∉ (tagOf element.name).toList ∧ '>' ∉ (tagOf element.name).toList := by
    unfold tagOf
    split <;> decide
  refine ⟨htag.1, htag.2, ?_⟩
  intro mark hmark
  simp only [Element.startTag, List.mem_append, List.mem_singleton, Option.mem_toList,
    Option.map_eq_some_iff] at hmark
  rcases hmark with (rfl | ⟨name, hname, rfl⟩) | ⟨name, hname, rfl⟩
  · exact ⟨by simp, hidentifier h.name⟩
  · exact ⟨by simp, hbinding name hname⟩
  · exact ⟨by simp, h.action name hname⟩

/-- Each of the two attributes that may be missing is known by its name. -/
theorem optionalMarks_inj {binding binding' action action' : Option String}
    (h : (binding.map (Attribute.mk "data-bind")).toList ++
        (action.map (Attribute.mk "data-action")).toList =
      (binding'.map (Attribute.mk "data-bind")).toList ++
        (action'.map (Attribute.mk "data-action")).toList) :
    binding = binding' ∧ action = action' := by
  cases binding <;> cases binding' <;> cases action <;> cases action' <;> simp_all

/-- The start tag of an element has everything of the element in it but its placeholder. -/
theorem startTag_inj (element other : Element) :
    element.startTag = other.startTag ↔
      element.name = other.name ∧ element.action = other.action ∧
        element.binding = other.binding := by
  constructor
  · intro h
    obtain ⟨hclass, hmarks⟩ := List.cons.inj (StartTag.mk.inj h).2
    obtain ⟨hbinding, haction⟩ := optionalMarks_inj hmarks
    exact ⟨(Attribute.mk.inj hclass).2, haction, hbinding⟩
  · rintro ⟨hname, haction, hbinding⟩
    simp only [Element.startTag, hname, haction, hbinding]

/-- The element stands in an interface of a program that is read from some source. -/
def IsDeclaredElement (element : Element) : Prop :=
  ∃ elements, IsDeclared (.interface elements) ∧ element ∈ elements

theorem plain_of_isDeclaredElement {element : Element} (h : IsDeclaredElement element) :
    Plain element.startTag := by
  obtain ⟨elements, hdeclared, hmem⟩ := h
  exact plain_startTag (wellFormedBlock_of_isDeclared hdeclared element hmem)

/-- Elements of any sources have the same markup exactly if they have the same name, the same
action, the same binding and the same placeholder.  The markup of an element begins with its own
start tag and with no other, so that no name and no action adds an attribute to it. -/
theorem markup_tells_element {element other : Element} (h : IsDeclaredElement element)
    (hother : IsDeclaredElement other) :
    (element.markup = other.markup ↔
      element.name = other.name ∧ element.action = other.action ∧
        element.binding = other.binding ∧ element.placeholder = other.placeholder) ∧
      Plain element.startTag ∧
        ∀ tag rest, Plain tag →
          (element.markup = tag.text ++ rest ↔
            tag = element.startTag ∧ rest = element.placeholder ++ element.endTag) := by
  have hplain := plain_of_isDeclaredElement h
  have hread {tag : StartTag} {rest : String} (htag : Plain tag) :
      element.markup = tag.text ++ rest ↔
        tag = element.startTag ∧ rest = element.placeholder ++ element.endTag := by
    constructor
    · intro heq
      rw [markup_eq, ← String.toList_inj, String.toList_append,
        String.toList_append (s := tag.text)] at heq
      obtain ⟨hsame, hrest⟩ := startTag_unique hplain htag heq
      exact ⟨hsame.symm, (String.toList_inj.mp hrest).symm⟩
    · rintro ⟨rfl, rfl⟩
      exact markup_eq element
  refine ⟨⟨?_, ?_⟩, hplain, fun tag rest htag => hread htag⟩
  · intro heq
    rw [markup_eq other] at heq
    obtain ⟨htags, hbehind⟩ := (hread (plain_of_isDeclaredElement hother)).mp heq
    obtain ⟨hname, haction, hbinding⟩ := (startTag_inj _ _).mp htags.symm
    have hend : other.endTag = element.endTag := by rw [Element.endTag, Element.endTag, hname]
    rw [hend] at hbehind
    exact ⟨hname, haction, hbinding, (String.append_left_inj _).mp hbehind.symm⟩
  · rintro ⟨hname, haction, hbinding, hplaceholder⟩
    have htags := (startTag_inj element other).mpr ⟨hname, haction, hbinding⟩
    rw [markup_eq, markup_eq, htags, hplaceholder, Element.endTag, Element.endTag, hname]

def sourceOfButtons : String :=
  "component A \x7b interface \x7b " ++
    "Botao \x7b acao: \">x\" \x7d Botao \x7b texto: \"\" acao: \">x\" \x7d \x7d \x7d"

def buttonWithoutText : Element :=
  ⟨"Botao", none, some ">x"⟩

def buttonWithEmptyText : Element :=
  ⟨"Botao", some (.literal ""), some ">x"⟩

def programOfButtons : Program :=
  ⟨[⟨"A", [.interface [buttonWithoutText, buttonWithEmptyText]]⟩]⟩

/-- Two buttons that differ in what the markup does not show; the bracket in the action ends no
tag. -/
theorem markup_tells_element_empty_text :
    IsDeclaredElement buttonWithoutText ∧ IsDeclaredElement buttonWithEmptyText ∧
      buttonWithoutText.markup = buttonWithEmptyText.markup ∧
      ∀ tag rest, Plain tag →
        (buttonWithoutText.markup = tag.text ++ rest ↔
          tag = buttonWithoutText.startTag ∧ rest = "</button>\n") := by
  have hparse : Program.parse sourceOfButtons = .ok programOfButtons := by decide +kernel
  have hdeclared : IsDeclared (.interface [buttonWithoutText, buttonWithEmptyText]) :=
    ⟨sourceOfButtons, programOfButtons, hparse, _, .head _, .head _⟩
  have hwithout : IsDeclaredElement buttonWithoutText := ⟨_, hdeclared, .head _⟩
  have hempty : IsDeclaredElement buttonWithEmptyText := ⟨_, hdeclared, .tail _ (.head _)⟩
  obtain ⟨hsame, -, htags⟩ := markup_tells_element hwithout hempty
  exact ⟨hwithout, hempty, hsame.mpr (by decide), htags⟩

end Markup
end SiteCompiler
