import SiteCompiler.Token

/-!
# Braces and quotes of a text

A reader that knows nothing of a script but its braces and its double quotes counts the
braces that are open, and passes over what stands between two quotes.  Such a reader is
enough to see what a brace of a script encloses.

* `Nesting`, `Nesting.after` - what the reader remembers, and what it makes of a text.
* `Nesting.Keeps`, `Nesting.keeps_iff` - texts that leave a number of braces open all the
  time.
* `Inert`, `Closed` - texts that the reader passes over, and texts that close what they
  open and nothing else.
* `Encloses`, `encloses_of_closed` - a brace, what stands behind it, and the brace that
  closes it.
* `StandsIn`, `standsIn_of_closed` - a text that leaves open at its place what is open
  there.
-/

namespace SiteCompiler
namespace Script

/-! ## The reader -/

/-- How many braces are open, and whether a quote is. -/
structure Nesting where
  depth : Int
  quoted : Bool
  deriving DecidableEq, Repr

namespace Nesting

/-- So many braces are open, and no quote. -/
def unquoted (depth : Int) : Nesting :=
  ⟨depth, false⟩

/-- By how much a character raises the depth; behind an open quote no brace counts. -/
def rise (quoted : Bool) (c : Char) : Int :=
  if quoted then 0 else if c = '\x7b' then 1 else if c = '\x7d' then -1 else 0

def step (nesting : Nesting) (c : Char) : Nesting :=
  ⟨nesting.depth + rise nesting.quoted c,
    if c = '"' then !nesting.quoted else nesting.quoted⟩

/-- What is open behind a text. -/
def after (nesting : Nesting) (text : List Char) : Nesting :=
  text.foldl step nesting

/-- At every point of the text, in front of it and behind it too, so many braces are open. -/
def Keeps (least : Int) : Nesting → List Char → Prop
  | nesting, [] => least ≤ nesting.depth
  | nesting, c :: text => least ≤ nesting.depth ∧ Keeps least (nesting.step c) text

instance decidableKeeps (least : Int) :
    (nesting : Nesting) → (text : List Char) → Decidable (Keeps least nesting text)
  | nesting, [] => inferInstanceAs (Decidable (least ≤ nesting.depth))
  | nesting, c :: text =>
    have := decidableKeeps least (nesting.step c) text
    inferInstanceAs (Decidable (_ ∧ _))

@[simp] theorem after_cons (nesting : Nesting) (c : Char) (text : List Char) :
    nesting.after (c :: text) = (nesting.step c).after text := rfl

@[simp] theorem after_append (nesting : Nesting) (text more : List Char) :
    nesting.after (text ++ more) = (nesting.after text).after more :=
  List.foldl_append

theorem Keeps.le {least : Int} {nesting : Nesting} {text : List Char}
    (h : nesting.Keeps least text) : least ≤ nesting.depth := by
  cases text with
  | nil => exact h
  | cons c text => exact h.1

theorem keeps_append (least : Int) (nesting : Nesting) (text more : List Char) :
    nesting.Keeps least (text ++ more) ↔
      nesting.Keeps least text ∧ (nesting.after text).Keeps least more := by
  induction text generalizing nesting with
  | nil => exact ⟨fun h => ⟨h.le, h⟩, And.right⟩
  | cons c text ih => simp [Keeps, ih, and_assoc]

/-- The points of a text are the ends of its beginnings. -/
theorem keeps_iff (least : Int) (nesting : Nesting) (text : List Char) :
    nesting.Keeps least text ↔
      ∀ front, front <+: text → least ≤ (nesting.after front).depth := by
  constructor
  · rintro h front ⟨rest, rfl⟩
    exact ((keeps_append least nesting front rest).mp h).2.le
  · intro h
    induction text generalizing nesting with
    | nil => exact h [] List.nil_prefix
    | cons c text ih =>
        refine ⟨h [] List.nil_prefix, ih (nesting.step c) ?_⟩
        intro front hfront
        exact h (c :: front) ((List.prefix_cons_inj c).mpr hfront)

theorem Keeps.mono {least more : Int} {nesting : Nesting} {text : List Char}
    (h : nesting.Keeps more text) (hle : least ≤ more) : nesting.Keeps least text := by
  rw [keeps_iff] at h ⊢
  intro front hfront
  exact Int.le_trans hle (h front hfront)

/-! ## Deeper braces -/

/-- The same below more braces. -/
def deepen (nesting : Nesting) (more : Int) : Nesting :=
  ⟨nesting.depth + more, nesting.quoted⟩

theorem step_deepen (nesting : Nesting) (more : Int) (c : Char) :
    (nesting.deepen more).step c = (nesting.step c).deepen more := by
  simp [step, deepen, Int.add_right_comm]

theorem after_deepen (nesting : Nesting) (more : Int) (text : List Char) :
    (nesting.deepen more).after text = (nesting.after text).deepen more := by
  induction text generalizing nesting with
  | nil => rfl
  | cons c text ih => rw [after_cons, after_cons, step_deepen, ih]

theorem Keeps.deepen {least : Int} {nesting : Nesting} {text : List Char}
    (h : nesting.Keeps least text) (more : Int) :
    (nesting.deepen more).Keeps (least + more) text := by
  rw [keeps_iff] at h ⊢
  intro front hfront
  have hfront := h front hfront
  rw [after_deepen]
  show least + more ≤ (nesting.after front).depth + more
  omega

end Nesting

open Nesting

/-! ## Inert texts -/

/-- The characters that the reader knows. -/
def delimiters : List Char :=
  ['"', '\x7b', '\x7d']

/-- Texts without a brace and without a quote. -/
def Inert (text : List Char) : Prop :=
  ∀ c ∈ text, c ∉ delimiters

instance (text : List Char) : Decidable (Inert text) :=
  List.decidableBAll _ text

@[simp] theorem inert_append (text more : List Char) :
    Inert (text ++ more) ↔ Inert text ∧ Inert more := by
  simp [Inert, or_imp, forall_and]

theorem inert_of_not_mem {text : List Char} (h : ∀ c ∈ delimiters, c ∉ text) : Inert text :=
  fun c hc hdelimiter => h c hdelimiter hc

theorem step_of_not_mem {c : Char} (h : c ∉ delimiters) (nesting : Nesting) :
    nesting.step c = nesting := by
  simp only [delimiters, List.mem_cons, List.not_mem_nil, or_false, not_or] at h
  simp [step, rise, h]

theorem Inert.after {text : List Char} (h : Inert text) (nesting : Nesting) :
    nesting.after text = nesting := by
  induction text with
  | nil => rfl
  | cons c text ih =>
      obtain ⟨hc, htext⟩ := List.forall_mem_cons.mp h
      rw [after_cons, step_of_not_mem hc, ih htext]

theorem Inert.front {front text : List Char} (h : Inert text) (hfront : front <+: text) :
    Inert front :=
  fun c hc => h c (hfront.subset hc)

theorem Inert.keeps {text : List Char} (h : Inert text) (nesting : Nesting) :
    nesting.Keeps nesting.depth text := by
  rw [keeps_iff]
  intro front hfront
  have hafter := (h.front hfront).after nesting
  exact Int.le_of_eq (congrArg depth hafter.symm)

/-! ## Closed texts -/

/-- Texts that close the braces and the quotes that they open, and no other brace. -/
structure Closed (text : List Char) : Prop where
  returns : (unquoted 0).after text = unquoted 0
  above : (unquoted 0).Keeps 0 text

instance (text : List Char) : Decidable (Closed text) :=
  decidable_of_iff (_ ∧ _) ⟨fun h => ⟨h.1, h.2⟩, fun h => ⟨h.returns, h.above⟩⟩

theorem step_opening (depth : Int) : (unquoted depth).step '\x7b' = unquoted (depth + 1) := rfl

theorem step_closing (depth : Int) : (unquoted depth).step '\x7d' = unquoted (depth - 1) := rfl

theorem unquoted_deepen (depth more : Int) :
    (unquoted depth).deepen more = unquoted (depth + more) := rfl

/-- A closed text is closed below any braces. -/
theorem Closed.after {text : List Char} (h : Closed text) (depth : Int) :
    (unquoted depth).after text = unquoted depth := by
  have hdeep := after_deepen (unquoted 0) depth text
  rwa [h.returns, unquoted_deepen, Int.zero_add] at hdeep

theorem Closed.keeps {text : List Char} (h : Closed text) (depth : Int) :
    (unquoted depth).Keeps depth text := by
  have hdeep := h.above.deepen depth
  rwa [unquoted_deepen, Int.zero_add] at hdeep

theorem closed_of_inert {text : List Char} (h : Inert text) : Closed text :=
  ⟨h.after _, h.keeps (unquoted 0)⟩

theorem Closed.append {text more : List Char} (h : Closed text) (hmore : Closed more) :
    Closed (text ++ more) := by
  constructor
  · rw [after_append, h.returns, hmore.returns]
  · exact (keeps_append _ _ _ _).mpr ⟨h.above, by rw [h.returns]; exact hmore.above⟩

/-- A text that is closed with an inert end is closed without it. -/
theorem closed_of_append_inert {text more : List Char} (h : Closed (text ++ more))
    (hmore : Inert more) : Closed text := by
  constructor
  · have hreturns := h.returns
    rwa [after_append, hmore.after] at hreturns
  · exact ((keeps_append _ _ _ _).mp h.above).1

theorem closed_flatMap {α : Type} {items : List α} {f : α → List Char}
    (h : ∀ item ∈ items, Closed (f item)) : Closed (items.flatMap f) := by
  induction items with
  | nil => exact closed_of_inert (by simp [Inert])
  | cons item items ih =>
      obtain ⟨hitem, hitems⟩ := List.forall_mem_cons.mp h
      rw [List.flatMap_cons]
      exact hitem.append (ih hitems)

theorem after_of_quoted {content : List Char} (h : '"' ∉ content) (depth : Int) :
    (⟨depth, true⟩ : Nesting).after content = ⟨depth, true⟩ := by
  induction content with
  | nil => rfl
  | cons c content ih =>
      obtain ⟨hc, hcontent⟩ := List.ne_and_not_mem_of_not_mem_cons h
      have hstep : (⟨depth, true⟩ : Nesting).step c = ⟨depth, true⟩ := by
        simp [step, rise, hc.symm]
      rw [after_cons, hstep, ih hcontent]

theorem keeps_of_quoted {content : List Char} (h : '"' ∉ content) (depth : Int) :
    (⟨depth, true⟩ : Nesting).Keeps depth content := by
  rw [keeps_iff]
  intro front hfront
  have hafter := after_of_quoted (fun hmem => h (hfront.subset hmem)) depth
  exact Int.le_of_eq (congrArg Nesting.depth hafter.symm)

/-- Between two quotes anything may stand but a quote. -/
theorem closed_of_quoted {content : List Char} (h : '"' ∉ content) :
    Closed ('"' :: (content ++ ['"'])) := by
  have hopen : (unquoted 0).step '"' = ⟨0, true⟩ := by decide
  constructor
  · rw [after_cons, hopen, after_append, after_of_quoted h]
    decide
  · refine ⟨by decide, ?_⟩
    rw [hopen, keeps_append, after_of_quoted h]
    exact ⟨keeps_of_quoted h 0, by decide⟩

/-- Braces around a closed text open and close each other. -/
theorem Closed.braces {inner : List Char} (h : Closed inner) :
    Closed ('\x7b' :: (inner ++ ['\x7d'])) := by
  constructor
  · rw [after_cons, step_opening, after_append, h.after]
    decide
  · refine ⟨by decide, ?_⟩
    rw [step_opening, keeps_append, h.after]
    exact ⟨(h.keeps 1).mono (by decide), by decide⟩

/-! ## What a brace encloses -/

/-- Read where `outside` is open, the text in front has a brace, then comes `inner`, and then the
brace is closed and nothing is opened any more.  At no point of `inner` the brace is closed. -/
structure Encloses (outside : Nesting) (front inner behind : List Char) : Prop where
  first : '\x7b' ∉ front
  last : '\x7d' ∉ behind
  within : ∀ part, part <+: inner →
    outside.depth + 1 ≤ (outside.after (front ++ '\x7b' :: part)).depth
  returns : ∀ rest, rest <+: behind →
    outside.after (front ++ '\x7b' :: (inner ++ '\x7d' :: rest)) = outside

theorem encloses_of_closed {front inner behind : List Char} (hfront : Inert front)
    (hinner : Closed inner) (hbehind : Inert behind) (depth : Int) :
    Encloses (unquoted depth) front inner behind := by
  refine ⟨?_, ?_, ?_, ?_⟩
  · exact fun hmem => hfront _ hmem (by decide)
  · exact fun hmem => hbehind _ hmem (by decide)
  · intro part hpart
    rw [after_append, hfront.after, after_cons, step_opening]
    exact (keeps_iff _ _ _).mp (hinner.keeps (depth + 1)) part hpart
  · intro rest hrest
    rw [after_append, hfront.after, after_cons, step_opening, after_append, hinner.after,
      after_cons, step_closing, (hbehind.front hrest).after, Int.add_sub_cancel]

/-- Behind `lead`, the text has a place in `inner`.  In front of that place nothing is open but what
is open outside, and at no point of the text any of that is closed; behind it, it is open still. -/
structure StandsIn (outside : Nesting) (lead text inner : List Char) : Prop where
  place : ∃ before behind, inner = before ++ (lead ++ (text ++ behind)) ∧
    outside.after (before ++ lead) = outside
  within : ∀ part, part <+: text → outside.depth ≤ (outside.after part).depth
  returns : outside.after text = outside

theorem standsIn_of_closed {before lead text behind inner : List Char}
    (hinner : inner = before ++ (lead ++ (text ++ behind))) (hbefore : Closed before)
    (hlead : Inert lead) (htext : Closed text) (depth : Int) :
    StandsIn (unquoted depth) lead text inner := by
  refine ⟨⟨before, behind, hinner, ?_⟩, ?_, htext.after depth⟩
  · rw [after_append, hbefore.after, hlead.after]
  · exact (keeps_iff _ _ _).mp (htext.keeps depth)

end Script
end SiteCompiler
