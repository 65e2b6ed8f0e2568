import SiteCompiler.Proofs.Lexical.Span

/-!
# Scanning in place

The cut of a text takes one piece after the other off its front, so there is no
offset in it that could be wrong.  The scanner of this module stays in the text:
it moves a cursor, looks at the character under it and at the next, takes slices
between two offsets, and puts the cursor back where the letters behind a number
are no unit.  What could go wrong there is checked, and `none` is a check that
fails: a slice that is not in the text, a loop that does not come to its end, a
reading that does not move the cursor.

* `Cursor` - an offset and the position that was counted for it.
* `Cursor.advanceWhile?`, `Cursor.reading?`, `Cursor.scanFrom?` - a loop, one
  reading, and all readings of a text.
* `Cursor.reading?_behind` - one reading is the one at the front of what follows.
* `Cursor.scanFrom?_start` - no check ever fails, and what is scanned in place is
  what is scanned.
-/

namespace SiteCompiler
namespace Lexical

/-- A place in a text, and the position that has been counted for it. -/
structure Cursor where
  offset : Nat
  position : Position

/-- The characters from one offset to another, if these are offsets of the text in this order. -/
def slice? (text : List Char) (start stop : Nat) : Option (List Char) :=
  if start ≤ stop ∧ stop ≤ text.length then some (between text start stop) else none

namespace Cursor

/-- What is left behind by a reading: the cursor behind it, and its token if it has one. -/
abbrev Step := Cursor × Option (Placed Span)

/-! ## The scanner -/

section Scanner

variable (text : List Char)

/-- The character under the cursor.  The character of code zero stands for the end. -/
def peek (cursor : Cursor) : Char :=
  text.getD cursor.offset '\x00'

def peekNext (cursor : Cursor) : Char :=
  text.getD (cursor.offset + 1) '\x00'

/-- Go past one character, if there is one. -/
def advance (cursor : Cursor) : Cursor :=
  if cursor.offset < text.length then
    ⟨cursor.offset + 1, cursor.position.after (cursor.peek text)⟩
  else cursor

/-- Whether this character follows. -/
def meets (cursor : Cursor) (c : Char) : Bool :=
  cursor.offset < text.length && cursor.peek text == c

/-- Go past the characters of a class.  The loop asks for nothing but the class, so it would never
end if the end itself were in the class. -/
def advanceWhile? (cls : Char → Bool) (cursor : Cursor) : Option Cursor :=
  if cls (cursor.peek text) then
    if cursor.offset < text.length then advanceWhile? cls (cursor.advance text) else none
  else some cursor
termination_by text.length - cursor.offset
decreasing_by simp only [advance, *, if_true]; omega

/-- Go up to a character or to the end. -/
def advanceTo (c : Char) (cursor : Cursor) : Cursor :=
  if cursor.offset < text.length ∧ cursor.peek text ≠ c then advanceTo c (cursor.advance text)
  else cursor
termination_by text.length - cursor.offset
decreasing_by
  have : cursor.offset < text.length := And.left ‹_›
  simp only [advance, this, if_true]
  omega

/-- The token from one cursor to another; a color leaves its `#` behind. -/
def token? (cursor start : Cursor) (kind : TokenKind) : Option Step :=
  (slice? text (if kind = .color then start.offset + 1 else start.offset) cursor.offset).map
    fun lexeme =>
      (cursor, some ⟨⟨kind, String.ofList lexeme⟩, ⟨start.offset, cursor.offset, start.position⟩⟩)

/-- Go past the digits of a number, its point and the digits behind the point. -/
def digits? (cursor : Cursor) : Option Cursor := do
  let whole ← cursor.advanceWhile? text Char.isDigit
  if whole.peek text = '.' ∧ (whole.peekNext text).isDigit then
    (whole.advance text).advanceWhile? text Char.isDigit
  else some whole

/-- A number with the unit that follows it, or without the letters that are none. -/
def number? (cursor start : Cursor) : Option Step := do
  let digits ← cursor.digits? text
  if digits.peek text = '%' then (digits.advance text).token? text start .unit
  else if isWordStart (digits.peek text) then
    let letters ← digits.advanceWhile? text isWordStart
    let suffix ← slice? text digits.offset letters.offset
    if isUnit (String.ofList suffix) then letters.token? text start .unit
    else
      -- The letters are given back, and with them their columns, but not their line.
      let back : Cursor := ⟨digits.offset, ⟨letters.position.line, digits.position.column⟩⟩
      back.token? text start .number
  else digits.token? text start .number

def word? (cursor start : Cursor) : Option Step := do
  let stop ← cursor.advanceWhile? text isWordRest
  let lexeme ← slice? text start.offset stop.offset
  stop.token? text start ((TokenKind.keyword? (String.ofList lexeme)).getD .identifier)

def string? (cursor start : Cursor) : Option (Except ScanFault Step) :=
  let stop := cursor.advanceTo text '"'
  if stop.offset < text.length then ((stop.advance text).token? text start .string).map .ok
  else some (.error .unterminatedString)

/-- What follows a hyphen. -/
def hyphen? (cursor start : Cursor) : Option (Except ScanFault Step) :=
  if cursor.meets text '>' then ((cursor.advance text).token? text start .arrow).map .ok
  else if cursor.meets text '=' then
    ((cursor.advance text).token? text start .minusEquals).map .ok
  else if (cursor.peek text).isDigit then (cursor.number? text start).map .ok
  else if isWordStart (cursor.peek text) then (cursor.word? text start).map .ok
  else some (.error (.unexpected '-'))

/-- One reading. -/
def reading? (start : Cursor) : Option (Except ScanFault Step) :=
  let c := start.peek text
  let next := start.advance text
  match Lead.of c with
  | .symbol kind => (next.token? text start kind).map .ok
  | .blank => some (.ok (next, none))
  | .equals =>
    if next.meets text '>' then ((next.advance text).token? text start .arrow).map .ok
    else (next.token? text start .equals).map .ok
  | .plus =>
    if next.meets text '=' then ((next.advance text).token? text start .plusEquals).map .ok
    else some (.error (.unexpected c))
  | .hyphen => next.hyphen? text start
  | .slash =>
    if next.meets text '/' then some (.ok ((next.advance text).advanceTo text '\n', none))
    else some (.error (.unexpected c))
  | .hash => do
    let stop ← next.advanceWhile? text isHexDigit
    (stop.token? text start .color).map .ok
  | .quote => next.string? text start
  | .digit => (next.number? text start).map .ok
  | .letter => (next.word? text start).map .ok
  | .foreign => some (.error (.unexpected c))

/-- All readings from a cursor on, each of which must go past one character at least. -/
def scanFrom? (cursor : Cursor) : Option (Except ScanError (List (Placed Span))) :=
  if cursor.offset < text.length then
    match cursor.reading? text with
    | none => none
    | some (.error fault) => some (.error ⟨fault, cursor.position⟩)
    | some (.ok (next, token)) =>
      if cursor.offset < next.offset then
        (next.scanFrom?).map (Except.map (token.toList ++ ·))
      else none
  else some (.ok [⟨.finish, ⟨cursor.offset, cursor.offset, cursor.position⟩⟩])
termination_by text.length - cursor.offset

end Scanner

/-- The cursor in front of a text. -/
def start : Cursor :=
  ⟨0, .start⟩

/-- The cursor behind a stretch of text. -/
def behind (before : List Char) : Cursor :=
  ⟨before.length, Position.start.afterText before⟩

/-! ## Looking and moving -/

section Moves

variable {text before rest : List Char}

theorem getD_append_length (before rest : List Char) (count : Nat) (c : Char) :
    (before ++ rest).getD (before.length + count) c = (rest.drop count).headD c := by
  have hget : (before ++ rest)[before.length + count]? = (rest.drop count).head? := by
    rw [List.getElem?_append_right (Nat.le_add_right _ _), Nat.add_sub_cancel_left,
      List.head?_drop]
  rw [List.getD_eq_getElem?_getD, hget, List.headD_eq_head?_getD]

theorem peek_behind (htext : text = before ++ rest) :
    (behind before).peek text = rest.headD '\x00' := by
  subst htext
  exact getD_append_length before rest 0 '\x00'

theorem peekNext_behind (htext : text = before ++ rest) :
    (behind before).peekNext text = rest.tail.headD '\x00' := by
  subst htext
  rw [← List.drop_one]
  exact getD_append_length before rest 1 '\x00'

theorem offset_lt_iff (htext : text = before ++ rest) :
    (behind before).offset < text.length ↔ rest ≠ [] := by
  subst htext
  rw [← List.length_pos_iff]
  simp [behind]

theorem advance_behind {c : Char} (htext : text = before ++ c :: rest) :
    (behind before).advance text = behind (before ++ [c]) := by
  have hlt := (offset_lt_iff htext).mpr (List.cons_ne_nil c rest)
  rw [advance, if_pos hlt, peek_behind htext]
  simp [behind, Position.afterText]

theorem meets_behind (htext : text = before ++ rest) (c : Char) :
    (behind before).meets text c = true ↔ rest.head? = some c := by
  rw [meets, Bool.and_eq_true, decide_eq_true_eq, offset_lt_iff htext, peek_behind htext]
  cases rest with
  | nil => simp
  | cons d rest => simp

theorem advanceWhile?_behind {cls : Char → Bool} (hcls : cls '\x00' = false)
    (htext : text = before ++ rest) :
    (behind before).advanceWhile? text cls = some (behind (before ++ rest.takeWhile cls)) := by
  induction rest generalizing before with
  | nil => simp [advanceWhile?, peek_behind htext, hcls]
  | cons c rest ih =>
      have hlt := (offset_lt_iff htext).mpr (List.cons_ne_nil c rest)
      have htail : text = (before ++ [c]) ++ rest := by simp [htext]
      rw [advanceWhile?, peek_behind htext, List.headD_cons, if_pos hlt, advance_behind htext,
        ih htail]
      by_cases hc : cls c = true
      · simp [hc]
      · simp [hc]

theorem advanceTo_behind {c : Char} (htext : text = before ++ rest) :
    (behind before).advanceTo text c = behind (before ++ rest.takeWhile (· != c)) := by
  induction rest generalizing before with
  | nil => simp [advanceTo, offset_lt_iff htext]
  | cons d rest ih =>
      have htail : text = (before ++ [d]) ++ rest := by simp [htext]
      have hlt := (offset_lt_iff htext).mpr (List.cons_ne_nil d rest)
      rw [advanceTo, peek_behind htext, List.headD_cons, advance_behind htext, ih htail]
      by_cases hd : d = c
      · simp [hd]
      · simp [hd, hlt]

end Moves

/-! ## Slices and tokens -/

theorem slice?_append (before middle rest : List Char) :
    slice? (before ++ (middle ++ rest)) before.length (before ++ middle).length = some middle := by
  have hle : before.length ≤ (before ++ middle).length ∧
      (before ++ middle).length ≤ (before ++ (middle ++ rest)).length := by
    simp only [List.length_append]
    omega
  rw [slice?, if_pos hle, List.length_append, between_append]

/-- What is left behind by a reading that takes a piece of the text. -/
def stepOf (before : List Char) (piece : Piece) : Step :=
  (behind (before ++ piece.text), piece.token?.map fun token =>
    ⟨token, ⟨before.length, before.length + piece.text.length, Position.start.afterText before⟩⟩)

section Readings

variable {text before cs : List Char} {c : Char}

/-- The token of a piece is the slice between the cursors around it. -/
theorem token?_behind {more rest : List Char} (htext : text = before ++ (c :: more ++ rest))
    (kind : TokenKind) :
    (behind (before ++ c :: more)).token? text (behind before) kind =
      some (stepOf before ⟨some kind, c :: more⟩) := by
  have hwhole : slice? text before.length (before ++ c :: more).length = some (c :: more) := by
    rw [htext, slice?_append]
  have htail : slice? text (before.length + 1) (before ++ c :: more).length = some more := by
    have hslice := slice?_append (before ++ [c]) more rest
    simpa [htext] using hslice
  rw [List.length_append] at hwhole htail
  by_cases hkind : kind = .color
  · simp only [token?, behind, stepOf, Piece.token?, hkind, if_true, List.length_append, htail,
      Option.map_some, List.tail_cons]
  · simp only [token?, behind, stepOf, Piece.token?, hkind, if_false, List.length_append, hwhole,
      Option.map_some]

theorem run_eq_zero_iff {cls : Char → Bool} (hcls : cls '\x00' = false) (cs : List Char) :
    run cls cs = 0 ↔ cls (cs.headD '\x00') = false := by
  cases cs with
  | nil => simp [run, hcls]
  | cons d cs => cases hd : cls d <;> simp [run, hd]

theorem take_numeral_of_point {fraction : List Char}
    (hpoint : cs.drop (run Char.isDigit cs) = '.' :: fraction) :
    cs.take (Reading.numeral cs) =
      if (fraction.headD '\x00').isDigit then
        cs.takeWhile Char.isDigit ++ '.' :: fraction.takeWhile Char.isDigit
      else cs.takeWhile Char.isDigit := by
  have hdigits : Char.isDigit '\x00' = false := by decide
  simp only [Reading.numeral, hpoint]
  by_cases hnone : run Char.isDigit fraction = 0
  · have hstop := (run_eq_zero_iff hdigits fraction).mp hnone
    rw [if_pos hnone, hstop, if_neg (by decide), take_run]
  · have hmore : (fraction.headD '\x00').isDigit = true := by
      simpa using mt (run_eq_zero_iff hdigits fraction).mpr hnone
    rw [if_neg hnone, if_pos hmore, take_fraction hpoint]

theorem take_numeral_of_no_point (hpoint : (cs.drop (run Char.isDigit cs)).head? ≠ some '.') :
    cs.take (Reading.numeral cs) = cs.takeWhile Char.isDigit := by
  simp only [Reading.numeral]
  split
  case h_1 fraction hfraction => simp [hfraction] at hpoint
  case h_2 => exact take_run _ _

/-- The digits in place are the numeral at the front. -/
theorem digits?_behind (htext : text = before ++ cs) :
    (behind before).digits? text = some (behind (before ++ cs.take (Reading.numeral cs))) := by
  have hdigits : Char.isDigit '\x00' = false := by decide
  have hwhole : text = (before ++ cs.takeWhile Char.isDigit) ++ cs.drop (run Char.isDigit cs) := by
    rw [List.append_assoc, takeWhile_append_drop_run, htext]
  simp only [digits?, advanceWhile?_behind hdigits htext, Option.bind_eq_bind, Option.bind_some,
    peek_behind hwhole, peekNext_behind hwhole]
  by_cases hhead : (cs.drop (run Char.isDigit cs)).head? = some '.'
  · obtain ⟨fraction, hpoint⟩ := List.head?_eq_some_iff.mp hhead
    rw [hpoint] at hwhole ⊢
    have hnext : text = (before ++ cs.takeWhile Char.isDigit ++ ['.']) ++ fraction := by
      rw [hwhole, List.append_assoc _ ['.'], List.singleton_append]
    rw [take_numeral_of_point hpoint]
    by_cases hmore : (fraction.headD '\x00').isDigit = true
    · rw [if_pos ⟨rfl, hmore⟩, if_pos hmore, advance_behind hwhole,
        advanceWhile?_behind hdigits hnext]
      simp
    · rw [if_neg fun h => hmore h.2, if_neg hmore]
  · have hpeek : (cs.drop (run Char.isDigit cs)).headD '\x00' ≠ '.' := by
      cases hrest : cs.drop (run Char.isDigit cs) with
      | nil => decide
      | cons d more => simpa [hrest] using hhead
    rw [if_neg fun h => hpeek h.1, take_numeral_of_no_point hhead]

/-- Letters do not begin a line. -/
theorem line_afterText {letters : List Char} (h : ∀ c ∈ letters, isWordStart c = true)
    (position : Position) : (position.afterText letters).line = position.line := by
  induction letters generalizing position with
  | nil => rfl
  | cons c letters ih =>
      obtain ⟨hc, hletters⟩ := List.forall_mem_cons.mp h
      have hfeed : c ≠ '\n' := ne_of_class hc (by decide)
      have htail := ih hletters (position.after c)
      simpa [Position.afterText, Position.after, hfeed] using htail

/-- A cursor that is put back behind the digits is the cursor that was there. -/
theorem behind_eq_of_letters {letters : List Char} (h : ∀ c ∈ letters, isWordStart c = true)
    (digits : List Char) :
    (⟨(behind digits).offset,
      ⟨(behind (digits ++ letters)).position.line, (behind digits).position.column⟩⟩ : Cursor) =
      behind digits := by
  simp [behind, Position.afterText_append, line_afterText h]

theorem number?_behind (htext : text = before ++ c :: cs) :
    (behind (before ++ [c])).number? text (behind before) =
      some (stepOf before
        ⟨(Reading.number cs).kind, c :: cs.take (Reading.number cs).more⟩) := by
  have hletters : isWordStart '\x00' = false := by decide
  have hnext : text = (before ++ [c]) ++ cs := by simp [htext]
  generalize hdigits : cs.take (Reading.numeral cs) = digits
  generalize hrest : cs.drop (Reading.numeral cs) = rest
  have hcs : cs = digits ++ rest := by rw [← hdigits, ← hrest, List.take_append_drop]
  have hplace : text = (before ++ c :: digits) ++ rest := by rw [htext, hcs]; simp
  have htake (count : Nat) : cs.take (Reading.numeral cs + count) = digits ++ rest.take count := by
    rw [List.take_add, hdigits, hrest]
  have hwhole : (behind (before ++ [c])).digits? text = some (behind (before ++ c :: digits)) := by
    rw [digits?_behind hnext, hdigits, List.append_assoc, List.singleton_append]
  have hnumber : (behind (before ++ c :: digits)).token? text (behind before) .number =
      some (stepOf before ⟨some .number, c :: digits⟩) :=
    token?_behind (hplace.trans (List.append_assoc _ _ _)) .number
  simp only [number?, hwhole, Option.bind_eq_bind, Option.bind_some, peek_behind hplace,
    Reading.number, hrest]
  by_cases hpercent : rest.head? = some '%'
  · obtain ⟨after, rfl⟩ := List.head?_eq_some_iff.mp hpercent
    have hunit : text = before ++ (c :: (digits ++ ['%']) ++ after) := by simp [hplace]
    have hadvance := advance_behind hplace
    rw [List.append_assoc, List.cons_append] at hadvance
    simp only [List.headD_cons, List.head?_cons, if_true, hadvance, Reading.token, htake,
      token?_behind hunit, List.take_succ_cons, List.take_zero]
  · have hpeek : rest.headD '\x00' ≠ '%' := by
      cases rest with
      | nil => decide
      | cons d more => simpa using hpercent
    rw [if_neg hpeek, if_neg hpercent]
    by_cases hletter : isWordStart (rest.headD '\x00') = true
    · rw [if_pos hletter, advanceWhile?_behind hletters hplace, Option.bind_some]
      generalize hsuffix : rest.takeWhile isWordStart = suffix
      have hall : ∀ c ∈ suffix, isWordStart c = true := by
        rw [← hsuffix]
        exact (isRun_takeWhile isWordStart rest).all
      have hsplit : rest = suffix ++ rest.drop suffix.length := by
        rw [← hsuffix]
        exact (takeWhile_append_drop_run isWordStart rest).symm
      have hslice : slice? text (behind (before ++ c :: digits)).offset
          (behind (before ++ c :: digits ++ suffix)).offset = some suffix := by
        rw [hplace, hsplit]
        exact slice?_append _ _ _
      rw [hslice, Option.bind_some]
      by_cases hunit : isUnit (String.ofList suffix) = true
      · have hmeasure : text = before ++ (c :: (digits ++ suffix) ++ rest.drop suffix.length) := by
          rw [hplace]
          nth_rewrite 1 [hsplit]
          simp
        have htaken : rest.take suffix.length = suffix := by
          nth_rewrite 1 [hsplit]
          exact List.take_left
        rw [if_pos hunit, if_pos hunit, List.append_assoc, List.cons_append,
          token?_behind hmeasure, Reading.token, htake, htaken]
      · rw [if_neg hunit, if_neg hunit, behind_eq_of_letters hall, hnumber, Reading.token,
          ← hdigits]
    · have hnone : rest.takeWhile isWordStart = [] := by
        cases rest with
        | nil => rfl
        | cons d more => exact List.takeWhile_cons_of_neg hletter
      have hunit : ¬ isUnit (String.ofList []) = true := by decide
      rw [if_neg hletter, hnone, if_neg hunit, hnumber, Reading.token, ← hdigits]

theorem word?_behind (htext : text = before ++ c :: cs) :
    (behind (before ++ [c])).word? text (behind before) =
      some (stepOf before ⟨(Reading.word c cs).kind, c :: cs.take (Reading.word c cs).more⟩) := by
  have hrest : isWordRest '\x00' = false := by decide
  have hnext : text = (before ++ [c]) ++ cs := by simp [htext]
  have htail : cs.take (cs.takeWhile isWordRest).length = cs.takeWhile isWordRest :=
    take_run isWordRest cs
  have hword : text =
      before ++ (c :: cs.takeWhile isWordRest ++ cs.drop (run isWordRest cs)) := by
    rw [List.cons_append, takeWhile_append_drop_run, htext]
  have hslice : slice? text (behind before).offset
      (behind (before ++ c :: cs.takeWhile isWordRest)).offset =
        some (c :: cs.takeWhile isWordRest) := by
    rw [hword]
    exact slice?_append _ _ _
  simp only [word?, advanceWhile?_behind hrest hnext, Option.bind_eq_bind, Option.bind_some,
    List.append_assoc, List.singleton_append, hslice, token?_behind hword, Reading.word,
    Reading.token, htail]

theorem string?_behind (htext : text = before ++ '"' :: cs) :
    (behind (before ++ ['"'])).string? text (behind before) =
      some ((Reading.string cs).map fun reading =>
        stepOf before ⟨reading.kind, '"' :: cs.take reading.more⟩) := by
  have hnext : text = (before ++ ['"']) ++ cs := by simp [htext]
  have hstop : text = (before ++ ['"'] ++ cs.takeWhile (· != '"')) ++
      cs.drop (run (· != '"') cs) := by
    rw [List.append_assoc, takeWhile_append_drop_run, hnext]
  simp only [string?, advanceTo_behind hnext, Reading.string]
  by_cases hclosed : run (· != '"') cs < cs.length
  · have hne : cs.drop (run (· != '"') cs) ≠ [] := by simpa using hclosed
    obtain ⟨d, after, hafter⟩ := List.exists_cons_of_ne_nil hne
    have hlt := (offset_lt_iff hstop).mpr hne
    rw [hafter] at hstop
    have hstring : text = before ++ ('"' :: (cs.takeWhile (· != '"') ++ [d]) ++ after) := by
      simp [hstop]
    rw [if_pos hlt, if_pos hclosed, advance_behind hstop]
    simp only [List.append_assoc, List.cons_append, List.nil_append, token?_behind hstring,
      Except.map, Reading.token, take_run_succ hafter]
    rfl
  · have hnil : cs.drop (run (· != '"') cs) = [] := List.drop_eq_nil_iff.mpr (by omega)
    have hend := mt (offset_lt_iff hstop).mp (not_not.mpr hnil)
    rw [if_neg hend, if_neg hclosed]
    rfl

/-- The token of a character that follows the first. -/
theorem token?_advance_behind {d : Char} (htext : text = before ++ c :: cs)
    (hhead : cs.head? = some d) (kind : TokenKind) :
    ((behind (before ++ [c])).advance text).token? text (behind before) kind =
      some (stepOf before ⟨some kind, c :: cs.take 1⟩) := by
  obtain ⟨after, rfl⟩ := List.head?_eq_some_iff.mp hhead
  have hnext : text = (before ++ [c]) ++ d :: after := by simp [htext]
  have htoken : text = before ++ (c :: [d] ++ after) := by simp [htext]
  rw [advance_behind hnext, List.append_assoc, List.singleton_append, token?_behind htoken,
    List.take_succ_cons, List.take_zero]

theorem hyphen?_behind (htext : text = before ++ '-' :: cs) :
    (behind (before ++ ['-'])).hyphen? text (behind before) =
      some ((Reading.hyphen cs).map fun reading =>
        stepOf before ⟨reading.kind, '-' :: cs.take reading.more⟩) := by
  have hnext : text = (before ++ ['-']) ++ cs := by simp [htext]
  unfold hyphen?
  simp only [meets_behind hnext, peek_behind hnext, number?_behind htext, word?_behind htext]
  cases cs with
  | nil => rfl
  | cons d ds =>
      have hadvance := token?_advance_behind htext List.head?_cons
      simp only [List.head?_cons, Option.some.injEq, List.headD_cons, Reading.hyphen, hadvance]
      by_cases harrow : d = '>'
      · subst harrow
        rfl
      by_cases hequals : d = '='
      · subst hequals
        rfl
      by_cases hdigit : d.isDigit = true
      · simp only [harrow, hequals, hdigit, if_true, if_false]
        rfl
      by_cases hletter : isWordStart d = true
      · simp only [harrow, hequals, hdigit, hletter, if_true, if_false]
        rfl
      · simp only [harrow, hequals, hdigit, hletter, if_false]
        rfl

/-- One reading in place is the reading at the front of what follows the cursor. -/
theorem reading?_behind (htext : text = before ++ c :: cs) :
    (behind before).reading? text =
      some ((Reading.of c cs).map fun reading =>
        stepOf before ⟨reading.kind, c :: cs.take reading.more⟩) := by
  have hnext : text = (before ++ [c]) ++ cs := by simp [htext]
  have hsingle : text = before ++ (c :: [] ++ cs) := by simp [htext]
  have hlead := admits_of c
  unfold reading? Reading.of
  simp only [peek_behind htext, List.headD_cons, advance_behind htext]
  generalize Lead.of c = lead at hlead
  cases lead with
  | symbol kind =>
      simp only [token?_behind hsingle]
      rfl
  | blank => rfl
  | equals =>
      simp only [meets_behind hnext]
      split
      case isTrue hhead =>
        rw [token?_advance_behind htext hhead]
        rfl
      case isFalse =>
        rw [token?_behind hsingle]
        rfl
  | plus =>
      simp only [meets_behind hnext]
      split
      case isTrue hhead =>
        rw [token?_advance_behind htext hhead]
        rfl
      case isFalse => rfl
  | hyphen =>
      obtain rfl : c = '-' := hlead
      exact hyphen?_behind htext
  | slash =>
      simp only [meets_behind hnext]
      split
      case isTrue hhead =>
        obtain ⟨after, rfl⟩ := List.head?_eq_some_iff.mp hhead
        have hcomment : text = (before ++ [c] ++ ['/']) ++ after := by simp [hnext]
        -- The run of a comment begins at its second slash.
        have hslash : run (· != '\n') ('/' :: after) = run (· != '\n') after + 1 :=
          run_cons_of_pos (by decide) after
        rw [advance_behind hnext, advanceTo_behind hcomment]
        simp [stepOf, Piece.token?, Except.map, Reading.gap, hslash, take_run]
      case isFalse => rfl
  | hash =>
      have hdigits : isHexDigit '\x00' = false := by decide
      have hcolor : text =
          before ++ (c :: cs.takeWhile isHexDigit ++ cs.drop (run isHexDigit cs)) := by
        rw [List.cons_append, takeWhile_append_drop_run, htext]
      simp only [advanceWhile?_behind hdigits hnext, Option.bind_eq_bind, Option.bind_some,
        List.append_assoc, List.singleton_append, token?_behind hcolor, Except.map, Reading.token,
        take_run]
      rfl
  | quote =>
      obtain rfl : c = '"' := hlead
      exact string?_behind htext
  | digit =>
      simp only [number?_behind htext]
      rfl
  | letter =>
      simp only [word?_behind htext]
      rfl
  | foreign => rfl

end Readings

/-! ## All readings -/

/-- What is scanned behind a stretch of text whose rest is cut like this. -/
def outcomeBehind (before : List Char) (cut : Split) : Except ScanError (List (Placed Span)) :=
  match cut.fault with
  | none => .ok (placeFrom before.length (Position.start.afterText before) cut.pieces)
  | some fault => .error ⟨fault, Position.start.afterText (before ++ Piece.textOf cut.pieces)⟩

theorem outcomeBehind_cons (before : List Char) (piece : Piece) (cut : Split) :
    outcomeBehind before ⟨piece :: cut.pieces, cut.fault⟩ =
      (outcomeBehind (before ++ piece.text) cut).map ((stepOf before piece).2.toList ++ ·) := by
  cases hfault : cut.fault with
  | some fault => simp [outcomeBehind, hfault, Piece.textOf, Except.map]
  | none =>
      simp only [outcomeBehind, hfault, Except.map, placeFrom, stepOf, List.length_append,
        Position.afterText_append]
      cases piece.token? with
      | none => rfl
      | some token => rfl

/-- Behind any part of a text, the scanner in place finds what the cut of the rest finds. -/
theorem scanFrom?_behind {text before cs : List Char} (htext : text = before ++ cs) :
    (behind before).scanFrom? text = some (outcomeBehind before (split cs)) := by
  induction cs using split.induct generalizing before with
  | case1 =>
      have hend := mt (offset_lt_iff htext).mp (not_not.mpr rfl)
      rw [scanFrom?, if_neg hend, split_nil]
      rfl
  | case2 c cs fault hreading =>
      have hlt := (offset_lt_iff htext).mpr (List.cons_ne_nil c cs)
      rw [scanFrom?, if_pos hlt, reading?_behind htext, split_cons_of_error hreading, hreading]
      simp [Except.map, outcomeBehind, Piece.textOf, behind]
  | case3 c cs reading hreading ih =>
      have hlt := (offset_lt_iff htext).mpr (List.cons_ne_nil c cs)
      have hnext : text = (before ++ c :: cs.take reading.more) ++ cs.drop reading.more := by
        rw [List.append_assoc, List.cons_append, List.take_append_drop, htext]
      -- The reading takes its first character at least.
      have hmoves : (behind before).offset <
          (behind (before ++ c :: cs.take reading.more)).offset := by
        simp [behind]
      rw [scanFrom?, if_pos hlt, reading?_behind htext, split_cons_of_ok hreading, hreading,
        outcomeBehind_cons]
      simp only [Except.map, stepOf, if_pos hmoves, ih hnext]
      rfl

/-- No check of the scanner in place ever fails, and it finds what the scanner finds. -/
theorem scanFrom?_start (text : List Char) : start.scanFrom? text = some (scanText text) := by
  have hscan : outcomeBehind [] (split text) = scanText text := by
    unfold outcomeBehind scanText
    cases (split text).fault with
    | none => rfl
    | some fault => rfl
  have htext : text = [] ++ text := rfl
  rw [← hscan, ← scanFrom?_behind htext]
  rfl

end Cursor

end Lexical
end SiteCompiler
