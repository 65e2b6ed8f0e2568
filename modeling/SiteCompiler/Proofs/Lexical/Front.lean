import SiteCompiler.Proofs.Lexical.Numeral

/-!
# The front of a text

The scanner decides by the first character which rule applies, and the rule
then decides how far it reaches.  This module shows that the decision is the
one of the lexical rules, in both directions.

* `admits_of` - what the rule that is selected says of the character.
* `fits_of_reading` - every reading is a token text or a gap.
* `Lexeme.reading`, `Gap.reading` - every token text and every gap is read.
-/

namespace SiteCompiler
namespace Lexical

/-! ## The selected rule -/

/-- What the choice of a rule says of the character that selects it. -/
def Admits : Lead → Char → Prop
  | .symbol kind, c => (c, kind) ∈ symbols
  | .blank, c => IsBlank c
  | .equals, c => c = '='
  | .plus, c => c = '+'
  | .hyphen, c => c = '-'
  | .slash, c => c = '/'
  | .hash, c => c = '#'
  | .quote, c => c = '"'
  | .digit, c => c.isDigit = true
  | .letter, c => isWordStart c = true
  | .foreign, _ => True

theorem mem_of_lookup {α β : Type} [BEq α] [LawfulBEq α] {key : α} {value : β}
    {table : List (α × β)} (h : table.lookup key = some value) : (key, value) ∈ table := by
  obtain ⟨before, after, rfl, -⟩ := List.lookup_eq_some_iff.mp h
  simp

theorem admits_of (c : Char) : Admits (Lead.of c) c := by
  unfold Lead.of
  split
  case h_1 kind hkind => exact mem_of_lookup hkind
  case h_2 => (repeat' split) <;> first | assumption | exact trivial

theorem punctuation_kind_ne {c : Char} {kind other : TokenKind} (h : (c, kind) ∈ punctuation)
    (hother : other ∉ punctuation.map Prod.snd) : kind ≠ other :=
  ne_of_mem_of_not_mem (List.mem_map_of_mem h) hother

theorem eq_false_of_any {cls : Char → Bool} {cs : List Char} (h : cs.any cls = false) {c : Char}
    (hc : c ∈ cs) : cls c = false := by
  simpa using List.any_eq_false.mp h c hc

/-- The characters that select a rule of their own. -/
def ownRule : List Char :=
  symbols.map Prod.fst ++ [' ', '\t', '\r', '\n', '=', '+', '-', '/', '#', '"']

theorem lead_of_not_mem_ownRule {c : Char} (h : c ∉ ownRule) :
    Lead.of c =
      if c.isDigit then .digit else if isWordStart c then .letter else .foreign := by
  have hsymbols : symbols.lookup c = none := by
    rw [List.lookup_eq_none_iff]
    rintro ⟨d, kind⟩ hd
    simp only [bne_iff_ne, ne_eq]
    rintro rfl
    exact h (List.mem_append_left _ (List.mem_map_of_mem hd))
  have hother : c ∉ [' ', '\t', '\r', '\n', '=', '+', '-', '/', '#', '"'] :=
    fun hc => h (List.mem_append_right _ hc)
  simp only [List.mem_cons, List.not_mem_nil, or_false, not_or] at hother
  simp [Lead.of, hsymbols, hother]

theorem isDigit_of_isWordStart {c : Char} (h : isWordStart c = true) : c.isDigit = false := by
  -- Digits stand before all letters.
  have hword : ((decide (c.val ≥ 'A'.val ∧ c.val ≤ 'Z'.val) ||
      (decide (c.val ≥ 'a'.val) && decide (c.val ≤ 'z'.val))) || c == '_') = true := h
  simp only [Bool.or_eq_true, Bool.and_eq_true, decide_eq_true_eq, beq_iff_eq] at hword
  show (decide (c.val ≥ '0'.val) && decide (c.val ≤ '9'.val)) = false
  simp only [Bool.and_eq_false_iff, decide_eq_false_iff_not]
  rcases hword with (⟨hupper, -⟩ | ⟨hlower, -⟩) | rfl
  · grind
  · grind
  · decide

theorem lead_of_isDigit {c : Char} (h : c.isDigit = true) : Lead.of c = .digit := by
  have hc : c ∉ ownRule := by
    intro hc
    have hnone : c.isDigit = false := eq_false_of_any (by decide) hc
    simp [hnone] at h
  rw [lead_of_not_mem_ownRule hc, if_pos h]

theorem lead_of_isWordStart {c : Char} (h : isWordStart c = true) : Lead.of c = .letter := by
  have hc : c ∉ ownRule := by
    intro hc
    have hnone : isWordStart c = false := eq_false_of_any (by decide) hc
    simp [hnone] at h
  have hdigit : ¬ c.isDigit = true := by simp [isDigit_of_isWordStart h]
  rw [lead_of_not_mem_ownRule hc, if_neg hdigit, if_pos h]

theorem lead_of_isBlank {c : Char} (h : IsBlank c) : Lead.of c = .blank := by
  rcases h with rfl | rfl | rfl | rfl <;> rfl

/-! ## The kinds of words -/

theorem wordKind_mem (text : List Char) :
    wordKind text ∈ TokenKind.identifier :: TokenKind.reserved.map Prod.snd := by
  unfold wordKind
  cases hkind : TokenKind.keyword? (String.ofList text) with
  | none => simp
  | some kind => exact List.mem_cons_of_mem _ (List.mem_map_of_mem (mem_of_lookup hkind))

theorem wordKind_ne {kind : TokenKind}
    (h : kind ∉ TokenKind.identifier :: TokenKind.reserved.map Prod.snd) (text : List Char) :
    wordKind text ≠ kind := by
  rintro rfl
  exact h (wordKind_mem text)

theorem wordKind_ne_color (text : List Char) : wordKind text ≠ .color :=
  wordKind_ne (by decide) text

/-! ## Readings follow the rules -/

/-- In front of `rest`, the piece is the text of its token, or a gap if it has none. -/
def Fits (piece : Piece) (rest : List Char) : Prop :=
  match piece.token? with
  | none => Gap piece.text rest
  | some token => Lexeme token piece.text rest

theorem fits_token {kind : TokenKind} {text rest : List Char} (hkind : kind ≠ .color)
    (h : Lexeme ⟨kind, String.ofList text⟩ text rest) : Fits ⟨some kind, text⟩ rest := by
  simpa [Fits, Piece.token?, hkind] using h

theorem fits_word {sign tail rest : List Char} {head : Char} (hsign : IsSign sign)
    (hhead : isWordStart head = true) (htail : IsRun isWordRest tail rest) :
    Fits ⟨some (wordKind (sign ++ head :: tail)), sign ++ head :: tail⟩ rest :=
  fits_token (wordKind_ne_color _) (.word hsign hhead htail)

/-- The letters that may follow a numeral are a unit in letters exactly if they are a unit at all:
the percent sign is no letter. -/
theorem mem_letterUnits_iff {letters : List Char}
    (hletters : ∀ c ∈ letters, isWordStart c = true) :
    String.ofList letters ∈ letterUnits ↔ isUnit (String.ofList letters) = true := by
  have hpercent : String.ofList letters ≠ "%" := by
    intro heq
    obtain rfl : letters = ['%'] := by simpa using congrArg String.toList heq
    exact absurd (hletters '%' (by simp)) (by decide)
  simp [letterUnits, isUnit, unitSuffixes, hpercent]

/-- What the reader of numbers makes of the longest numeral. -/
theorem fits_number {c : Char} {cs : List Char} (h : NumeralStart c cs) :
    Fits ⟨(Reading.number cs).kind, c :: cs.take (Reading.number cs).more⟩
      (cs.drop (Reading.number cs).more) := by
  have hlongest := isLongest_take_numeral h
  generalize hrest : cs.drop (Reading.numeral cs) = rest at hlongest
  have hrun := isRun_takeWhile isWordStart rest
  have hsplit := takeWhile_append_drop_run isWordStart rest
  have htake (n : Nat) : c :: cs.take (Reading.numeral cs + n) =
      c :: cs.take (Reading.numeral cs) ++ rest.take n := by
    rw [List.take_add, hrest, List.cons_append]
  have hdrop (n : Nat) : cs.drop (Reading.numeral cs + n) = rest.drop n := by
    rw [← List.drop_drop, hrest]
  -- A percent sign comes before any letters, and letters that are no unit are given back.
  simp only [Reading.number, hrest]
  split
  case isTrue hpercent =>
    obtain ⟨after, rfl⟩ : ∃ after, rest = '%' :: after := by
      cases rest with
      | nil => simp at hpercent
      | cons d after => exact ⟨after, by simpa using hpercent⟩
    simp only [Reading.token, htake, hdrop]
    exact fits_token (by decide) (.percentage hlongest)
  case isFalse hpercent =>
    rw [← hsplit] at hlongest hpercent
    split
    case isTrue hunit =>
      simp only [Reading.token, htake, hdrop]
      refine fits_token (by decide) ?_
      have htext : rest.take (rest.takeWhile isWordStart).length = rest.takeWhile isWordStart :=
        take_run isWordStart rest
      rw [htext]
      exact .measure hlongest hrun ((mem_letterUnits_iff hrun.all).mpr hunit)
    case isFalse hunit =>
      simp only [Reading.token, hrest]
      refine fits_token (by decide) ?_
      rw [← hsplit]
      exact .number hlongest hrun (mt (mem_letterUnits_iff hrun.all).mp hunit) hpercent

theorem fits_string {cs : List Char} {reading : Reading} (h : Reading.string cs = .ok reading) :
    Fits ⟨reading.kind, '"' :: cs.take reading.more⟩ (cs.drop reading.more) := by
  simp only [Reading.string] at h
  split at h
  case isFalse => cases h
  case isTrue hclosed =>
    cases h
    have hrun := isRun_takeWhile (· != '"') cs
    obtain ⟨c, after, hafter⟩ : ∃ c after, cs.drop (run (· != '"') cs) = c :: after := by
      exact List.exists_cons_of_ne_nil (by simpa using hclosed)
    rw [hafter] at hrun
    obtain rfl : c = '"' := by simpa using hrun.stops c rfl
    simp only [Reading.token, take_run_succ hafter]
    refine fits_token (by decide) (.string ?_)
    -- A quote among the content would have ended the run.
    intro hquote
    simpa using hrun.all '"' hquote

theorem fits_hyphen {cs : List Char} {reading : Reading} (h : Reading.hyphen cs = .ok reading) :
    Fits ⟨reading.kind, '-' :: cs.take reading.more⟩ (cs.drop reading.more) := by
  cases cs with
  | nil => simp [Reading.hyphen] at h
  | cons d ds =>
      simp only [Reading.hyphen] at h
      split at h
      case isTrue harrow =>
        cases h
        subst harrow
        exact fits_token (by decide) .thinArrow
      split at h
      case isTrue hequals =>
        cases h
        subst hequals
        exact fits_token (by decide) .minusEquals
      split at h
      case isTrue hdigit =>
        cases h
        exact fits_number (.hyphen hdigit)
      split at h
      case isTrue hletter =>
        cases h
        have hrest : isWordRest d = true := by simp [isWordRest, hletter]
        have htail : (d :: ds).takeWhile isWordRest = d :: ds.takeWhile isWordRest := by
          rw [List.takeWhile_cons_of_pos hrest]
        simp only [Reading.word, Reading.token, htail, List.length_cons, List.take_succ_cons,
          List.drop_succ_cons]
        have htext : ds.take (ds.takeWhile isWordRest).length = ds.takeWhile isWordRest :=
          take_run isWordRest ds
        rw [htext]
        exact fits_word (.inr rfl) hletter (isRun_takeWhile isWordRest ds)
      case isFalse => cases h

/-- Every reading is a token text of the rules, or a gap. -/
theorem fits_of_reading {c : Char} {cs : List Char} {reading : Reading}
    (h : Reading.of c cs = .ok reading) :
    Fits ⟨reading.kind, c :: cs.take reading.more⟩ (cs.drop reading.more) := by
  -- From here on the selected rule stands for the character: `hlead` keeps what it says of it.
  have hlead := admits_of c
  simp only [Reading.of] at h
  generalize Lead.of c = lead at h hlead
  cases lead with
  | symbol kind =>
      cases h
      change (c, kind) ∈ symbols at hlead
      have hkind : ∀ entry ∈ symbols, entry.2 ≠ .color := by decide
      refine fits_token (hkind _ hlead) ?_
      rcases List.mem_append.mp (show (c, kind) ∈ punctuation ++ [('%', .unit)] from hlead) with
        hmem | hmem
      · exact .punctuation hmem
      · obtain ⟨rfl, rfl⟩ : c = '%' ∧ kind = .unit := by simpa using hmem
        exact .percentSign
  | blank =>
      cases h
      exact Gap.blank hlead
  | equals =>
      obtain rfl : c = '=' := hlead
      simp only [Except.ok.injEq] at h
      subst h
      split
      case isTrue hhead =>
        obtain ⟨after, rfl⟩ := List.head?_eq_some_iff.mp hhead
        exact fits_token (by decide) .thickArrow
      case isFalse hhead => exact fits_token (by decide) (.equals hhead)
  | plus =>
      obtain rfl : c = '+' := hlead
      simp only at h
      split at h
      case isTrue hhead =>
        cases h
        obtain ⟨after, rfl⟩ := List.head?_eq_some_iff.mp hhead
        exact fits_token (by decide) .plusEquals
      case isFalse => cases h
  | hyphen =>
      obtain rfl : c = '-' := hlead
      exact fits_hyphen h
  | slash =>
      obtain rfl : c = '/' := hlead
      simp only at h
      split at h
      case isTrue hhead =>
        cases h
        obtain ⟨after, rfl⟩ := List.head?_eq_some_iff.mp hhead
        -- The run of a comment begins at its second slash.
        have hslash : run (· != '\n') ('/' :: after) = run (· != '\n') after + 1 :=
          run_cons_of_pos (by decide) after
        simp only [Reading.gap, hslash, List.take_succ_cons, List.drop_succ_cons, take_run]
        exact Gap.comment (isRun_takeWhile _ after)
      case isFalse => cases h
  | hash =>
      obtain rfl : c = '#' := hlead
      cases h
      simp only [Reading.token, take_run]
      exact Lexeme.color (isRun_takeWhile isHexDigit cs)
  | quote =>
      obtain rfl : c = '"' := hlead
      exact fits_string h
  | digit =>
      cases h
      exact fits_number (.digit hlead)
  | letter =>
      cases h
      have htext : cs.take (cs.takeWhile isWordRest).length = cs.takeWhile isWordRest :=
        take_run isWordRest cs
      simp only [Reading.word, Reading.token, htext]
      exact fits_word (.inl rfl) hlead (isRun_takeWhile isWordRest cs)
  | foreign => cases h

/-! ## The rules are read -/

theorem of_numeralStart {c : Char} {cs : List Char} (h : NumeralStart c cs) :
    Reading.of c cs = .ok (Reading.number cs) := by
  cases h with
  | digit hc => simp only [Reading.of, lead_of_isDigit hc]
  | @hyphen d ds hd =>
      have harrow : d ≠ '>' := ne_of_class hd (by decide)
      have hequals : d ≠ '=' := ne_of_class hd (by decide)
      have hlead : Lead.of '-' = .hyphen := rfl
      simp only [Reading.of, hlead, Reading.hyphen, harrow, hequals, hd, if_true, if_false]

/-- A longest numeral is read in full, and the suffix behind it decides the rest. -/
theorem reading_of_isLongest {numeral rest : List Char}
    (hlongest : IsLongest IsNumeral numeral rest) :
    ∃ c cs, numeral = c :: cs ∧ Reading.of c (cs ++ rest) =
      .ok (if rest.head? = some '%' then .token .unit (cs.length + 1)
        else if isUnit (String.ofList (rest.takeWhile isWordStart)) then
          .token .unit (cs.length + (rest.takeWhile isWordStart).length)
        else .token .number cs.length) := by
  obtain ⟨c, cs, rfl, hstart⟩ := hlongest.mem.start rest
  refine ⟨c, cs, rfl, ?_⟩
  have hnumeral := numeral_eq_length hlongest hstart
  rw [of_numeralStart hstart]
  simp only [Reading.number, hnumeral, List.drop_left]

/-- Every token text of the rules is read, with the kind of its token. -/
theorem Lexeme.reading {token : Token} {text rest : List Char} (h : Lexeme token text rest) :
    ∃ c cs, text = c :: cs ∧
      Reading.of c (cs ++ rest) = .ok (.token token.kind cs.length) := by
  cases h with
  | @punctuation c kind _ hmem =>
      refine ⟨c, [], rfl, ?_⟩
      have hlead : ∀ entry ∈ Lexical.punctuation, Lead.of entry.1 = .symbol entry.2 := by decide
      simp only [Reading.of, hlead _ hmem, List.length_nil]
  | percentSign => exact ⟨'%', [], rfl, rfl⟩
  | equals hhead =>
      refine ⟨'=', [], rfl, ?_⟩
      have hlead : Lead.of '=' = .equals := rfl
      simp only [Reading.of, hlead, List.nil_append, hhead, if_false, List.length_nil]
  | thinArrow => exact ⟨'-', ['>'], rfl, rfl⟩
  | thickArrow => exact ⟨'=', ['>'], rfl, rfl⟩
  | minusEquals => exact ⟨'-', ['='], rfl, rfl⟩
  | plusEquals => exact ⟨'+', ['='], rfl, rfl⟩
  | @string content _ hcontent =>
      refine ⟨'"', content ++ ['"'], rfl, ?_⟩
      have hrun := isRun_of_not_mem hcontent rest
      have hlead : Lead.of '"' = .quote := rfl
      simp only [Reading.of, hlead, Reading.string, run, List.append_assoc,
        List.singleton_append, hrun.takeWhile_eq]
      simp
  | @color digits _ hdigits =>
      refine ⟨'#', digits, rfl, ?_⟩
      have hlead : Lead.of '#' = .hash := rfl
      simp only [Reading.of, hlead, run, hdigits.takeWhile_eq]
  | @word sign tail _ head hsign hhead htail =>
      rcases hsign with rfl | rfl
      · refine ⟨head, tail, rfl, ?_⟩
        simp only [Reading.of, lead_of_isWordStart hhead, Reading.word, htail.takeWhile_eq]
        rfl
      · refine ⟨'-', head :: tail, rfl, ?_⟩
        have harrow : head ≠ '>' := ne_of_class hhead (by decide)
        have hequals : head ≠ '=' := ne_of_class hhead (by decide)
        have hrun : (head :: (tail ++ rest)).takeWhile isWordRest = head :: tail := by
          rw [List.takeWhile_cons_of_pos (by simp [isWordRest, hhead]), htail.takeWhile_eq]
        have hlead : Lead.of '-' = .hyphen := rfl
        simp only [Reading.of, hlead, Reading.hyphen, List.cons_append, harrow, hequals,
          isDigit_of_isWordStart hhead, hhead, Reading.word, hrun]
        rfl
  | percentage hlongest =>
      obtain ⟨c, cs, rfl, hreading⟩ := reading_of_isLongest hlongest
      refine ⟨c, cs ++ ['%'], rfl, ?_⟩
      rw [List.append_assoc, List.singleton_append, hreading]
      simp
  | @measure numeral letters _ hlongest hletters hunit =>
      obtain ⟨c, cs, rfl, hreading⟩ := reading_of_isLongest hlongest
      refine ⟨c, cs ++ letters, rfl, ?_⟩
      have hpercent : (letters ++ rest).head? ≠ some '%' := by
        cases letters with
        | nil => exact absurd hunit (by decide)
        | cons c letters =>
            have hne : c ≠ '%' := ne_of_class (hletters.all c (by simp)) (by decide)
            exact fun hhead => hne (Option.some.inj hhead)
      rw [mem_letterUnits_iff hletters.all] at hunit
      rw [List.append_assoc, hreading, if_neg hpercent, hletters.takeWhile_eq, if_pos hunit,
        List.length_append]
  | @number _ letters _ hlongest hletters hunit hpercent =>
      obtain ⟨c, cs, rfl, hreading⟩ := reading_of_isLongest hlongest
      refine ⟨c, cs, rfl, ?_⟩
      rw [mem_letterUnits_iff hletters.all] at hunit
      rw [hreading, if_neg hpercent, hletters.takeWhile_eq, if_neg hunit]

/-- Every gap of the rules is read. -/
theorem Gap.reading {text rest : List Char} (h : Gap text rest) :
    ∃ c cs, text = c :: cs ∧ Reading.of c (cs ++ rest) = .ok (.gap cs.length) := by
  cases h with
  | @blank c _ hc =>
      refine ⟨c, [], rfl, ?_⟩
      simp only [Reading.of, lead_of_isBlank hc, List.length_nil]
  | @comment body _ hbody =>
      refine ⟨'/', '/' :: body, rfl, ?_⟩
      have hslash : run (· != '\n') ('/' :: (body ++ rest)) = body.length + 1 := by
        rw [run_cons_of_pos (by decide), run, hbody.takeWhile_eq]
      have hlead : Lead.of '/' = .slash := rfl
      simp only [Reading.of, hlead, List.cons_append, List.head?_cons, if_true, hslash,
        List.length_cons]

end Lexical
end SiteCompiler
