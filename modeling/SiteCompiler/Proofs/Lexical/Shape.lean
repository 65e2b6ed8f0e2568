import SiteCompiler.Proofs.Lexical.Scan

/-!
# The shape of tokens

What a single token text looks like, whatever follows it.

* `Lexeme.sourceText_eq` - a token is written exactly as it stood in its text.
* `Lexeme.quoted` - a string stands between its quotes, with none inside.
* `Lexeme.not_mem`, `Lexeme.quote_not_mem` - characters that no other token has, the
  quote among them.
* `Lexeme.append` - a token text stays one if a barrier is put behind what
  follows it.
* `Lexeme.before_barrier` - a token text is read again before any character that
  no token text could take in.
-/

namespace SiteCompiler
namespace Lexical

theorem Lexeme.ne_nil {token : Token} {text rest : List Char} (h : Lexeme token text rest) :
    text ≠ [] := by
  obtain ⟨c, cs, rfl, -⟩ := h.reading
  exact List.cons_ne_nil c cs

theorem Lexeme.kind_ne_endOfInput {token : Token} {text rest : List Char}
    (h : Lexeme token text rest) : token.kind ≠ .endOfInput := by
  cases h with
  | punctuation hmem => exact punctuation_kind_ne hmem (by decide)
  | word => exact wordKind_ne (by decide) _
  | _ => simp

/-- A token is written as it stood in its text: a color regains its `#`. -/
theorem Lexeme.sourceText_eq {token : Token} {text rest : List Char}
    (h : Lexeme token text rest) : token.sourceText.toList = text := by
  cases h with
  | @punctuation c kind _ hmem =>
      have hkind : kind ≠ .color := punctuation_kind_ne hmem (by decide)
      simp [Token.sourceText, hkind]
  | word => simp [Token.sourceText, wordKind_ne_color]
  | color => simp [Token.sourceText]
  | _ => simp [Token.sourceText]

/-! ## Quotes -/

/-- A numeral is a sign and digits, perhaps with points among them. -/
theorem IsNumeral.exists_sign {text : List Char} (h : IsNumeral text) :
    ∃ sign unsigned, text = sign ++ unsigned ∧ IsSign sign ∧
      ∀ c ∈ unsigned, c.isDigit = true ∨ c = '.' := by
  cases h with
  | whole hsign hdigits => exact ⟨_, _, rfl, hsign, fun c hc => .inl (hdigits.2 c hc)⟩
  | fraction hsign hdigits hdecimals =>
      refine ⟨_, _, rfl, hsign, ?_⟩
      intro c hc
      rw [List.mem_append, List.mem_cons] at hc
      rcases hc with hc | rfl | hc
      · exact .inl (hdigits.2 c hc)
      · exact .inr rfl
      · exact .inl (hdecimals.2 c hc)

theorem IsNumeral.mem {text : List Char} (h : IsNumeral text) :
    ∀ c ∈ text, c.isDigit = true ∨ c = '-' ∨ c = '.' := by
  obtain ⟨sign, unsigned, rfl, hsign, hall⟩ := h.exists_sign
  intro c hc
  rcases List.mem_append.mp hc with hc | hc
  · rcases hsign with rfl | rfl
    · simp at hc
    · exact .inr (.inl (List.mem_singleton.mp hc))
  · exact (hall c hc).imp_right .inr

/-- A character of none of these classes stands in no numeral. -/
theorem IsNumeral.not_mem {text : List Char} (h : IsNumeral text) {c : Char}
    (hdigit : c.isDigit = false) (hhyphen : c ≠ '-') (hpoint : c ≠ '.') : c ∉ text := by
  intro hc
  rcases h.mem c hc with hc | hc | hc
  · rw [hdigit] at hc
    contradiction
  · exact hhyphen hc
  · exact hpoint hc

theorem not_mem_of_all {cls : Char → Bool} {text : List Char} (h : ∀ c ∈ text, cls c = true)
    {c : Char} (hc : cls c = false) : c ∉ text := by
  intro hmem
  rw [h c hmem] at hc
  contradiction

/-- A string stands between its quotes, with none inside. -/
theorem Lexeme.quoted {token : Token} {text rest : List Char} (h : Lexeme token text rest)
    (hkind : token.kind = .string) :
    ∃ content, '"' ∉ content ∧ token.lexeme.toList = '"' :: (content ++ ['"']) := by
  cases h with
  | @string content _ hcontent => exact ⟨content, hcontent, String.toList_ofList⟩
  | punctuation hmem => exact (punctuation_kind_ne hmem (by decide) hkind).elim
  | word => exact (wordKind_ne (by decide) _ hkind).elim
  | _ => cases hkind

/-- What stands in tokens that are no strings besides punctuation, letters and digits. -/
def marks : List Char :=
  ['%', '=', '>', '-', '+', '#', '.']

/-- The characters that stand in tokens other than strings, punctuation apart. -/
def isTokenChar (c : Char) : Bool :=
  isWordRest c || isHexDigit c || marks.contains c

/-- Any other character stands in a string, or it is punctuation by itself. -/
theorem Lexeme.not_mem {token : Token} {text rest : List Char} (h : Lexeme token text rest)
    (hkind : token.kind ≠ .string) {c : Char} (hclass : isTokenChar c = false)
    (hpunctuation : (c, token.kind) ∉ Lexical.punctuation) : c ∉ text := by
  simp only [isTokenChar, Bool.or_eq_false_iff] at hclass
  obtain ⟨⟨hword, hhex⟩, hnone⟩ := hclass
  have hmark : c ∉ marks := by simpa using hnone
  have hclasses : (isWordStart c = false ∧ c.isDigit = false) ∧ c ≠ '-' := by
    simpa [isWordRest] using hword
  obtain ⟨⟨hstart, hdigit⟩, hhyphen⟩ := hclasses
  have hmarks {d : Char} (hd : d ∈ marks) : c ≠ d := (ne_of_mem_of_not_mem hd hmark).symm
  have hmade {text : List Char} (htext : text.all (marks.contains ·) = true) : c ∉ text :=
    fun hmem => hmark (List.contains_iff_mem.mp (List.all_eq_true.mp htext c hmem))
  have hnumeral {numeral : List Char} (h : IsNumeral numeral) : c ∉ numeral :=
    h.not_mem hdigit hhyphen (hmarks (by decide))
  cases h with
  | string => exact (hkind rfl).elim
  | punctuation hmem =>
      rw [List.mem_singleton]
      rintro rfl
      exact hpunctuation hmem
  | color hdigits =>
      exact List.not_mem_cons_of_ne_of_not_mem (hmarks (by decide))
        (not_mem_of_all hdigits.all hhex)
  | @word sign tail _ head hsign hhead htail =>
      have hhead : c ≠ head := (ne_of_class hhead hstart).symm
      have htail : c ∉ tail := not_mem_of_all htail.all hword
      rcases hsign with rfl | rfl <;> simp [hhead, htail, hhyphen]
  | percentage hlongest => simpa using ⟨hnumeral hlongest.mem, hmarks (by decide)⟩
  | measure hlongest hletters =>
      simpa using ⟨hnumeral hlongest.mem, not_mem_of_all hletters.all hstart⟩
  | number hlongest => exact hnumeral hlongest.mem
  | percentSign | equals | thinArrow | thickArrow | minusEquals | plusEquals =>
      exact hmade (by decide)

/-- A token that is no string has no quote. -/
theorem Lexeme.quote_not_mem {token : Token} {text rest : List Char} (h : Lexeme token text rest)
    (hkind : token.kind ≠ .string) : '"' ∉ text :=
  h.not_mem hkind (by decide) (by simp [Lexical.punctuation])

/-! ## Words -/

/-- Words: an optional hyphen, a letter or an underscore, and what may go on a word. -/
def IsWord (text : List Char) : Prop :=
  ∃ sign head tail, text = sign ++ head :: tail ∧ IsSign sign ∧ isWordStart head = true ∧
    ∀ c ∈ tail, isWordRest c = true

theorem IsWord.all {text : List Char} (h : IsWord text) : ∀ c ∈ text, isWordRest c = true := by
  obtain ⟨sign, head, tail, rfl, hsign, hhead, htail⟩ := h
  intro c hc
  rcases List.mem_append.mp hc with hc | hc
  · rcases hsign with rfl | rfl
    · cases hc
    · rw [List.mem_singleton.mp hc]
      decide
  · rcases List.mem_cons.mp hc with rfl | hc
    · rw [isWordRest, hhead]
      rfl
    · exact htail c hc

/-- The texts of identifiers: words that are no keywords. -/
def IsIdentifier (name : String) : Prop :=
  IsWord name.toList ∧ TokenKind.keyword? name = none

/-- No other character stands in the name of anything. -/
theorem IsIdentifier.not_mem {name : String} (h : IsIdentifier name) {c : Char}
    (hc : isWordRest c = false) : c ∉ name.toList :=
  not_mem_of_all h.1.all hc

theorem Lexeme.isIdentifier {token : Token} {text rest : List Char} (h : Lexeme token text rest)
    (hkind : token.kind = .identifier) : IsIdentifier token.lexeme := by
  cases h with
  | punctuation hmem => exact (punctuation_kind_ne hmem (by decide) hkind).elim
  | @word sign tail _ head hsign hhead htail =>
      refine ⟨⟨sign, head, tail, String.toList_ofList, hsign, hhead, htail.all⟩, ?_⟩
      have hreserved : ∀ entry ∈ TokenKind.reserved, entry.2 ≠ .identifier := by decide
      cases hkeyword : TokenKind.keyword? (String.ofList (sign ++ head :: tail)) with
      | none => rfl
      | some kind =>
          simp only [wordKind, hkeyword, Option.getD_some] at hkind
          exact (hreserved _ (mem_of_lookup hkeyword) hkind).elim
  | _ => cases hkind

theorem isWord_of_letters {text : List Char} (hne : text ≠ [])
    (hletters : text.all isWordStart = true) : IsWord text := by
  obtain ⟨head, tail, rfl⟩ := List.exists_cons_of_ne_nil hne
  have hall : ∀ c ∈ head :: tail, isWordStart c = true := List.all_eq_true.mp hletters
  refine ⟨[], head, tail, rfl, .inl rfl, hall head (by simp), ?_⟩
  intro c hc
  rw [isWordRest, hall c (by simp [hc])]
  rfl

theorem IsWord.lexeme {text : List Char} (h : IsWord text) :
    Lexeme ⟨wordKind text, String.ofList text⟩ text [] := by
  obtain ⟨sign, head, tail, rfl, hsign, hhead, htail⟩ := h
  exact .word hsign hhead ⟨htail, by simp⟩

/-! ## Barriers -/

/-- The characters that may begin a gap.  No token text that has begun could take one in, a string
apart, which has its own end. -/
def barriers : List Char :=
  [' ', '\t', '\r', '\n', '/']

/-- The text is empty, or it begins with a character that may begin a gap. -/
def AtBarrier (text : List Char) : Prop :=
  ∀ c ∈ text.head?, c ∈ barriers

theorem atBarrier_nil : AtBarrier [] := by
  simp [AtBarrier]

theorem atBarrier_cons {c : Char} (h : c ∈ barriers) (text : List Char) :
    AtBarrier (c :: text) := by
  simpa [AtBarrier] using h

theorem IsRun.append {cls : Char → Bool} {text rest more : List Char} (h : IsRun cls text rest)
    (hcls : barriers.any cls = false) (hmore : AtBarrier more) : IsRun cls text (rest ++ more) := by
  refine ⟨h.all, ?_⟩
  intro c hc
  cases rest with
  | nil => exact eq_false_of_any hcls (hmore c hc)
  | cons d rest => exact h.stops c hc

theorem IsRun.alone {cls : Char → Bool} {text rest : List Char} (h : IsRun cls text rest) :
    IsRun cls text [] :=
  ⟨h.all, by simp⟩

/-- A longest beginning stays the longest if the text behind it is cut short. -/
theorem IsLongest.front {language : List Char → Prop} {text rest more : List Char}
    (h : IsLongest language text (rest ++ more)) : IsLongest language text rest := by
  refine ⟨h.mem, ?_⟩
  intro other hprefix hother
  refine h.longest other ?_ hother
  rw [← List.append_assoc]
  exact hprefix.trans (List.prefix_append _ more)

/-- Behind its first character a numeral has digits and points only. -/
theorem IsNumeral.not_mem_tail {c d : Char} {cs : List Char} (h : IsNumeral (c :: cs))
    (hdigit : d.isDigit = false) (hpoint : d ≠ '.') : d ∉ cs := by
  obtain ⟨sign, unsigned, heq, hsign, hall⟩ := h.exists_sign
  have hnone : d ∉ unsigned := by
    intro hmem
    rcases hall d hmem with hd | hd
    · rw [hdigit] at hd
      contradiction
    · exact hpoint hd
  rcases hsign with rfl | rfl
  · rw [List.nil_append] at heq
    exact fun hmem => hnone (heq ▸ List.mem_cons_of_mem c hmem)
  · obtain ⟨-, rfl⟩ := List.cons.inj heq
    exact hnone

/-- No numeral reaches over a character that neither is a digit nor the point. -/
theorem IsLongest.append_of_stops {numeral rest more : List Char}
    (h : IsLongest IsNumeral numeral rest)
    (hmore : ∀ c ∈ more.head?, c.isDigit = false ∧ c ≠ '.') :
    IsLongest IsNumeral numeral (rest ++ more) := by
  refine ⟨h.mem, ?_⟩
  intro other hprefix hother
  rw [← List.append_assoc] at hprefix
  by_cases hle : other.length ≤ (numeral ++ rest).length
  · exact h.longest other (List.prefix_of_prefix_length_le hprefix (List.prefix_append _ _) hle)
      hother
  · -- A longer beginning of the text would take the character in.
    obtain _ | ⟨c, more⟩ := more
    · rw [List.append_nil] at hprefix
      exact (hle hprefix.length_le).elim
    · obtain ⟨hdigit, hpoint⟩ := hmore c rfl
      have hlonger : numeral ++ rest ++ [c] <+: other := by
        refine List.prefix_of_prefix_length_le ?_ hprefix ?_
        · exact ⟨more, by simp⟩
        · simp only [List.length_append, List.length_singleton] at hle ⊢
          omega
      obtain ⟨d, ds, rfl, -⟩ := h.mem.start rest
      obtain ⟨back, rfl⟩ := hlonger
      exact (hother.not_mem_tail hdigit hpoint (by simp)).elim

/-- No numeral reaches over a barrier. -/
theorem IsLongest.append {numeral rest more : List Char} (h : IsLongest IsNumeral numeral rest)
    (hmore : AtBarrier more) : IsLongest IsNumeral numeral (rest ++ more) :=
  h.append_of_stops fun c hc =>
    ⟨eq_false_of_any (by decide) (hmore c hc), ne_of_mem_of_not_mem (hmore c hc) (by decide)⟩

/-- A token text is the text of its token at the end of a text too. -/
theorem Lexeme.alone {token : Token} {text rest : List Char} (h : Lexeme token text rest) :
    Lexeme token text [] := by
  cases h with
  | punctuation hmem => exact .punctuation hmem
  | percentSign => exact .percentSign
  | equals => exact .equals (by simp)
  | thinArrow => exact .thinArrow
  | thickArrow => exact .thickArrow
  | minusEquals => exact .minusEquals
  | plusEquals => exact .plusEquals
  | string hcontent => exact .string hcontent
  | color hdigits => exact .color hdigits.alone
  | word hsign hhead htail => exact .word hsign hhead htail.alone
  | @percentage numeral rest hlongest =>
      have hsplit : IsLongest IsNumeral numeral (['%'] ++ rest) := hlongest
      exact .percentage hsplit.front
  | measure hlongest hletters hunit =>
      refine .measure ?_ hletters.alone hunit
      rw [List.append_nil]
      exact hlongest.front
  | number hlongest =>
      -- At the end there are no letters to give back.
      have hend : IsLongest IsNumeral text ([] ++ []) := IsLongest.front hlongest
      have hnone : IsRun isWordStart [] [] := ⟨by simp, by simp⟩
      exact .number hend hnone (by decide) (by simp)

/-- A token text is the text of its token too if a barrier stands behind what follows it. -/
theorem Lexeme.append {token : Token} {text rest more : List Char} (h : Lexeme token text rest)
    (hmore : AtBarrier more) : Lexeme token text (rest ++ more) := by
  have hhead {rest : List Char} {d : Char} (hd : d ∉ barriers) (hne : rest.head? ≠ some d) :
      (rest ++ more).head? ≠ some d := by
    cases rest with
    | nil => exact fun hhead => hd (hmore d hhead)
    | cons c rest => exact hne
  cases h with
  | punctuation hmem => exact .punctuation hmem
  | percentSign => exact .percentSign
  | equals hne => exact .equals (hhead (by decide) hne)
  | thinArrow => exact .thinArrow
  | thickArrow => exact .thickArrow
  | minusEquals => exact .minusEquals
  | plusEquals => exact .plusEquals
  | string hcontent => exact .string hcontent
  | color hdigits => exact .color (hdigits.append (by decide) hmore)
  | word hsign hstart htail => exact .word hsign hstart (htail.append (by decide) hmore)
  | percentage hlongest => exact .percentage (hlongest.append hmore)
  | @measure numeral letters rest hlongest hletters hunit =>
      refine .measure ?_ (hletters.append (by decide) hmore) hunit
      rw [← List.append_assoc]
      exact hlongest.append hmore
  | @number numeral letters rest hlongest hletters hunit hpercent =>
      rw [List.append_assoc]
      refine .number ?_ (hletters.append (by decide) hmore) hunit ?_
      · rw [← List.append_assoc]
        exact hlongest.append hmore
      · rw [← List.append_assoc]
        exact hhead (by decide) hpercent

/-- A token text is the text of its token before any barrier too. -/
theorem Lexeme.before_barrier {token : Token} {text rest more : List Char}
    (h : Lexeme token text rest) (hmore : AtBarrier more) : Lexeme token text more :=
  h.alone.append hmore

end Lexical
end SiteCompiler
