import SiteCompiler.Proofs.Lexical.Seam

/-!
# The first fault of a text

A text that is not scanned has a first fault.  This module says where it is, what stands
there, and that neither the tokens before it nor, a string without an end apart, the fault
itself depend on anything that follows.

* `Stops` - the characters behind which no reading before them looks.
* `Lexeme.exchange`, `Fits.exchange` - a token text or a gap in front of another text that
  begins with the same such character, or of none.
* `Unreadable`, `unreadable_of_reading` - what cannot be read, and what is said of it.
* `FirstFault`, `first_fault_of_scan` - the first fault of a source.
-/

namespace SiteCompiler
namespace Lexical

/-! ## Characters that stop a reading -/

/-- The characters that go on no numeral and no word, a hyphen apart. -/
structure Stops (c : Char) : Prop where
  letter : isWordStart c = false
  digit : c.isDigit = false
  point : c ≠ '.'

/-- The other text is empty or begins with the same character, and this stops a reading. -/
structure Exchanges (behind other : List Char) : Prop where
  stops : ∀ c ∈ behind.head?, Stops c
  same : ∀ c ∈ other.head?, c ∈ behind.head?

theorem Exchanges.stops_other {behind other : List Char} (h : Exchanges behind other) :
    ∀ c ∈ other.head?, Stops c :=
  fun c hc => h.stops c (h.same c hc)

section Exchange

variable {behind other : List Char}

theorem Exchanges.head?_append (h : Exchanges behind other) (rest : List Char) :
    ∀ c ∈ (rest ++ other).head?, c ∈ (rest ++ behind).head? := by
  intro c hc
  cases rest with
  | nil => exact h.same c hc
  | cons d rest => exact hc

theorem IsRun.exchange {cls : Char → Bool} {text rest : List Char}
    (h : IsRun cls text (rest ++ behind)) (hexchanges : Exchanges behind other) :
    IsRun cls text (rest ++ other) :=
  ⟨h.all, fun c hc => h.stops c (hexchanges.head?_append rest c hc)⟩

theorem IsLongest.exchange {numeral rest : List Char}
    (h : IsLongest IsNumeral numeral (rest ++ behind)) (hexchanges : Exchanges behind other) :
    IsLongest IsNumeral numeral (rest ++ other) :=
  h.front.append_of_stops fun c hc =>
    ⟨(hexchanges.stops_other c hc).digit, (hexchanges.stops_other c hc).point⟩

/-- The letters behind a numeral end where a text is cut in front of a character that stops. -/
theorem exists_letters_append {letters more rest : List Char}
    (hletters : IsRun isWordStart letters more) (hstops : ∀ c ∈ behind.head?, Stops c)
    (happend : letters ++ more = rest ++ behind) :
    ∃ after, rest = letters ++ after ∧ more = after ++ behind := by
  rcases List.append_eq_append_iff.mp happend with
    ⟨after, hrest, hmore⟩ | ⟨beyond, hletter, hbehind⟩
  · exact ⟨after, hrest, hmore⟩
  · -- A letter would have to stand where the text is cut.
    cases beyond with
    | nil => exact ⟨[], by simpa using hletter.symm, by simpa using hbehind.symm⟩
    | cons c beyond =>
        have hstop : isWordStart c = false := (hstops c (by simp [hbehind])).letter
        have hletter : isWordStart c = true := hletters.all c (by simp [hletter])
        rw [hstop] at hletter
        contradiction

/-- A token text is the text of its token in front of the other text too. -/
theorem Lexeme.exchange {token : Token} {text rest : List Char}
    (h : Lexeme token text (rest ++ behind)) (hexchanges : Exchanges behind other) :
    Lexeme token text (rest ++ other) := by
  have hhead {rest : List Char} {c : Char} (hne : (rest ++ behind).head? ≠ some c) :
      (rest ++ other).head? ≠ some c :=
    fun hc => hne (hexchanges.head?_append rest c hc)
  generalize hrest : rest ++ behind = follows at h
  cases h with
  | punctuation hmem => exact .punctuation hmem
  | percentSign => exact .percentSign
  | equals hne =>
      subst hrest
      exact .equals (hhead hne)
  | thinArrow => exact .thinArrow
  | thickArrow => exact .thickArrow
  | minusEquals => exact .minusEquals
  | plusEquals => exact .plusEquals
  | string hcontent => exact .string hcontent
  | color hdigits =>
      subst hrest
      exact .color (hdigits.exchange hexchanges)
  | word hsign hstart htail =>
      subst hrest
      exact .word hsign hstart (htail.exchange hexchanges)
  | percentage hlongest =>
      subst hrest
      rw [← List.cons_append] at hlongest
      exact .percentage (hlongest.exchange hexchanges)
  | @measure numeral letters _ hlongest hletters hunit =>
      subst hrest
      rw [← List.append_assoc] at hlongest
      refine .measure ?_ (hletters.exchange hexchanges) hunit
      rw [← List.append_assoc]
      exact hlongest.exchange hexchanges
  | @number numeral letters more hlongest hletters hunit hpercent =>
      obtain ⟨after, rfl, rfl⟩ := exists_letters_append hletters hexchanges.stops hrest.symm
      rw [← List.append_assoc] at hlongest hpercent
      rw [List.append_assoc]
      refine .number ?_ (hletters.exchange hexchanges) hunit ?_
      · rw [← List.append_assoc]
        exact hlongest.exchange hexchanges
      · rw [← List.append_assoc]
        exact hhead hpercent

theorem Gap.exchange {text rest : List Char} (h : Gap text (rest ++ behind))
    (hexchanges : Exchanges behind other) : Gap text (rest ++ other) := by
  cases h with
  | blank hc => exact .blank hc
  | comment hbody => exact .comment (hbody.exchange hexchanges)

theorem Fits.exchange {piece : Piece} {rest : List Char} (h : Fits piece (rest ++ behind))
    (hexchanges : Exchanges behind other) : Fits piece (rest ++ other) := by
  unfold Fits at h ⊢
  cases htoken : piece.token? with
  | none =>
      rw [htoken] at h
      exact Gap.exchange h hexchanges
  | some token =>
      rw [htoken] at h
      exact Lexeme.exchange h hexchanges

end Exchange

/-! ## The first fault -/

/-- A text that is not cut to its end has a character that no reading begins with, behind the pieces
before it. -/
theorem exists_fault_of_split {cs : List Char} {fault : ScanFault}
    (h : (split cs).fault = some fault) :
    ∃ c rest, cs = Piece.textOf (split cs).pieces ++ c :: rest ∧
      Reading.of c rest = .error fault := by
  fun_induction split cs with
  | case1 => simp at h
  | case2 c cs other hreading =>
      obtain rfl : other = fault := by simpa using h
      exact ⟨c, cs, rfl, hreading⟩
  | case3 c cs reading _ rest ih =>
      obtain ⟨d, ds, htext, hfault⟩ := ih h
      refine ⟨d, ds, ?_, hfault⟩
      have hfront : Piece.textOf (⟨reading.kind, c :: cs.take reading.more⟩ :: rest.pieces) =
          c :: cs.take reading.more ++ Piece.textOf rest.pieces := rfl
      rw [hfront, List.append_assoc, ← htext, List.cons_append, List.take_append_drop]

/-- A character that begins no token text and no gap. -/
structure StartsNothing (c : Char) : Prop where
  token : ∀ token text rest, Lexeme token text rest → text.head? ≠ some c
  gap : ∀ text rest, Gap text rest → text.head? ≠ some c

/-- The text begins with what cannot be read, and this is said of it. -/
inductive Unreadable : List Char → String → Prop
  | string {content : List Char} :
      '"' ∉ content → Unreadable ('"' :: content) "Unterminated string"
  | plus {rest : List Char} :
      rest.head? ≠ some '=' → Unreadable ('+' :: rest) "Unexpected character: '+'"
  | hyphen {rest : List Char} :
      (∀ c ∈ rest.head?, c ≠ '>' ∧ c ≠ '=' ∧ c.isDigit = false ∧ isWordStart c = false) →
        Unreadable ('-' :: rest) "Unexpected character: '-'"
  | slash {rest : List Char} :
      rest.head? ≠ some '/' → Unreadable ('/' :: rest) "Unexpected character: '/'"
  | foreign {c : Char} {rest : List Char} :
      StartsNothing c → Unreadable (c :: rest) ("Unexpected character: '" ++ c.toString ++ "'")

theorem startsNothing_of_foreign {c : Char} (h : Lead.of c = .foreign) : StartsNothing c := by
  have hreading (rest : List Char) : Reading.of c rest = .error (.unexpected c) := by
    simp only [Reading.of, h]
  constructor
  · intro token text rest hlexeme hhead
    obtain ⟨d, ds, rfl, hread⟩ := hlexeme.reading
    obtain rfl : d = c := by simpa using hhead
    rw [hreading] at hread
    cases hread
  · intro text rest hgap hhead
    obtain ⟨d, ds, rfl, hread⟩ := hgap.reading
    obtain rfl : d = c := by simpa using hhead
    rw [hreading] at hread
    cases hread

theorem hyphen_eq_error_iff (cs : List Char) (fault : ScanFault) :
    Reading.hyphen cs = .error fault ↔
      (∀ c ∈ cs.head?, c ≠ '>' ∧ c ≠ '=' ∧ c.isDigit = false ∧ isWordStart c = false) ∧
        fault = .unexpected '-' := by
  cases cs with
  | nil =>
      constructor
      · rintro ⟨⟩
        simp
      · rintro ⟨-, rfl⟩
        rfl
  | cons d ds =>
      simp only [Reading.hyphen, List.head?_cons, Option.mem_some_iff, forall_eq', ne_eq]
      by_cases harrow : d = '>'
      · simp [harrow]
      by_cases hequals : d = '='
      · simp [hequals]
      cases hdigit : d.isDigit <;> cases hletter : isWordStart d <;>
        simp [harrow, hequals, eq_comm]

theorem unreadable_of_string {cs : List Char} {fault : ScanFault}
    (h : Reading.string cs = .error fault) : Unreadable ('"' :: cs) fault.detail := by
  simp only [Reading.string] at h
  split at h
  case isTrue => cases h
  case isFalse hopen =>
    cases h
    refine .string ?_
    -- The run that looks for a quote has come to the end.
    have hall : cs.takeWhile (· != '"') = cs :=
      (List.takeWhile_prefix _).eq_of_length_le (Nat.not_lt.mp hopen)
    intro hquote
    rw [← hall] at hquote
    simpa using List.mem_takeWhile_imp hquote

/-- Where there is no reading, the text begins with one of the things that cannot be read. -/
theorem unreadable_of_reading {c : Char} {cs : List Char} {fault : ScanFault}
    (h : Reading.of c cs = .error fault) : Unreadable (c :: cs) fault.detail := by
  have hlead := admits_of c
  simp only [Reading.of] at h
  cases hrule : Lead.of c with
  | foreign =>
      simp only [hrule] at h
      cases h
      exact .foreign (startsNothing_of_foreign hrule)
  | plus =>
      simp only [hrule] at h hlead
      obtain rfl : c = '+' := hlead
      split at h
      · cases h
      case isFalse hhead =>
        cases h
        exact .plus hhead
  | hyphen =>
      simp only [hrule] at h hlead
      obtain rfl : c = '-' := hlead
      obtain ⟨hhead, rfl⟩ := (hyphen_eq_error_iff _ _).mp h
      exact .hyphen hhead
  | slash =>
      simp only [hrule] at h hlead
      obtain rfl : c = '/' := hlead
      split at h
      · cases h
      case isFalse hhead =>
        cases h
        exact .slash hhead
  | quote =>
      simp only [hrule] at h hlead
      obtain rfl : c = '"' := hlead
      exact unreadable_of_string h
  | symbol | blank | equals | hash | digit | letter =>
      simp only [hrule] at h
      cases h

/-- A character at which there is no reading stops the readings before it. -/
theorem stops_of_fault {c : Char} {cs : List Char} {fault : ScanFault}
    (h : Reading.of c cs = .error fault) : Stops c := by
  have hrule {lead : Lead} (hlead : Lead.of c = lead)
      (hread : lead = .letter ∨ lead = .digit ∨ lead = .symbol .dot) : False := by
    rcases hread with rfl | rfl | rfl <;> simp [Reading.of, hlead] at h
  refine ⟨?_, ?_, ?_⟩
  · rw [← Bool.not_eq_true]
    exact fun hletter => hrule (lead_of_isWordStart hletter) (by simp)
  · rw [← Bool.not_eq_true]
    exact fun hdigit => hrule (lead_of_isDigit hdigit) (by simp)
  · rintro rfl
    have hdot : Lead.of '.' = .symbol .dot := rfl
    exact hrule hdot (by simp)

/-- Unless it is a string without an end, two characters show that there is no reading. -/
theorem fault_of_two {c d : Char} {cs : List Char} {fault : ScanFault}
    (h : Reading.of c (d :: cs) = .error fault) (hstring : fault ≠ .unterminatedString)
    (others : List Char) : Reading.of c (d :: others) = .error fault := by
  cases hrule : Lead.of c with
  | quote =>
      simp only [Reading.of, hrule, Reading.string] at h
      split at h
      · cases h
      · cases h
        exact (hstring rfl).elim
  | hyphen =>
      simp only [Reading.of, hrule, hyphen_eq_error_iff] at h ⊢
      exact h
  | slash =>
      by_cases hslash : d = '/'
      · simp [Reading.of, hrule, hslash] at h
      · simpa [Reading.of, hrule, hslash] using h
  | plus | foreign => simpa [Reading.of, hrule] using h
  | symbol | blank | equals | hash | digit | letter => simp [Reading.of, hrule] at h

/-! ## Sources -/

/-- The tokens that are found in a text up to its first fault, or up to its end. -/
def tokensFound (text : List Char) : List (Placed Span) :=
  (placeFrom 0 .start (split text).pieces).dropLast

/-- The first fault of a source stands at this offset. -/
structure FirstFault (source : String) (error : ScanError) (offset : Nat) : Prop where
  position : error.position = positionAt source.toList offset
  /-- The text before is scanned, and its tokens are the ones that were found. -/
  before : scan (String.ofList (source.toList.take offset)) =
    .ok (tokensFound source.toList ++ [⟨.finish, ⟨offset, offset, error.position⟩⟩])
  unreadable : Unreadable (source.toList.drop offset) error.fault.detail
  /-- Nothing that follows the next character counts, unless a string has no end. -/
  decided : error.fault ≠ .unterminatedString → offset + 2 ≤ source.toList.length →
    ∀ other : String, source.toList.take (offset + 2) <+: other.toList →
      scan other = .error error

theorem placeFrom_eq_append (offset : Nat) (position : Position) (pieces : List Piece) :
    placeFrom offset position pieces =
      (placeFrom offset position pieces).dropLast ++
        [⟨.finish, ⟨offset + (Piece.textOf pieces).length,
          offset + (Piece.textOf pieces).length, position.afterText (Piece.textOf pieces)⟩⟩] := by
  have hend := placeFrom_append offset position pieces []
  rw [List.append_nil] at hend
  exact hend

theorem exchanges_nil {c : Char} {rest : List Char} (hc : Stops c) : Exchanges (c :: rest) [] :=
  ⟨by simpa using hc, by simp⟩

theorem exchanges_cons {c : Char} {rest others : List Char} (hc : Stops c) :
    Exchanges (c :: rest) (c :: others) :=
  ⟨by simpa using hc, by simp⟩

/-- In front of whatever takes the place of what is not cut, the pieces are the same. -/
theorem split_of_exchanges {cs behind other : List Char}
    (htext : cs = Piece.textOf (split cs).pieces ++ behind) (h : Exchanges behind other) :
    split (Piece.textOf (split cs).pieces ++ other) =
      ⟨(split cs).pieces ++ (split other).pieces, (split other).fault⟩ :=
  split_exchange (fun _ _ hfits => hfits.exchange h) htext

/-- A source that is not scanned has a first fault. -/
theorem first_fault_of_scan {source : String} {error : ScanError}
    (h : scan source = .error error) : ∃ offset, FirstFault source error offset := by
  cases hfault : (split source.toList).fault with
  | none => simp [scan, scanText, hfault] at h
  | some fault =>
      simp only [scan, scanText, hfault, Except.error.injEq] at h
      subst h
      obtain ⟨c, rest, htext, hreading⟩ := exists_fault_of_split hfault
      have hstops := stops_of_fault hreading
      have hcut (other : List Char) (h : Exchanges (c :: rest) other) :=
        split_of_exchanges htext h
      generalize hbefore : Piece.textOf (split source.toList).pieces = before at htext hcut ⊢
      refine ⟨before.length, ?position, ?before, ?unreadable, ?decided⟩
      case position =>
        rw [htext, positionAt_append]
      case before =>
        have hfront := hcut [] (exchanges_nil hstops)
        rw [List.append_nil, split_nil, List.append_nil] at hfront
        rw [htext, List.take_left, scan, String.toList_ofList, scanText, hfront]
        have hplaces := placeFrom_eq_append 0 .start (split source.toList).pieces
        rw [hbefore, Nat.zero_add] at hplaces
        rw [← htext, tokensFound, ← hplaces]
      case unreadable =>
        rw [htext, List.drop_left]
        exact unreadable_of_reading hreading
      case decided =>
        rintro hstring hlong other ⟨more, hother⟩
        rw [htext] at hlong hother
        obtain ⟨d, rest, rfl⟩ : ∃ d ds, rest = d :: ds := by
          cases rest with
          | nil => simp at hlong
          | cons d ds => exact ⟨d, ds, rfl⟩
        have htake : (before ++ c :: d :: rest).take (before.length + 2) = before ++ [c, d] := by
          rw [List.take_length_add_append, List.take_succ_cons, List.take_succ_cons, List.take_zero]
        rw [htake, List.append_assoc] at hother
        have hagain := hcut (c :: d :: more) (exchanges_cons hstops)
        rw [split_cons_of_error (fault_of_two hreading hstring more), List.append_nil] at hagain
        have hsame : other.toList = before ++ c :: d :: more := hother.symm
        rw [scan, scanText, hsame, hagain, hbefore]

/-- A number with a hyphen behind it that begins nothing, and the same with another end. -/
theorem first_fault_of_scan_lone_hyphen :
    scan "x: 10px-)" = .error ⟨.unexpected '-', ⟨1, 8⟩⟩ ∧
      ∃ offset, FirstFault "x: 10px-)" ⟨.unexpected '-', ⟨1, 8⟩⟩ offset := by
  have hscan : scan "x: 10px-)" = .error ⟨.unexpected '-', ⟨1, 8⟩⟩ := by decide +kernel
  exact ⟨hscan, first_fault_of_scan hscan⟩

end Lexical
end SiteCompiler
