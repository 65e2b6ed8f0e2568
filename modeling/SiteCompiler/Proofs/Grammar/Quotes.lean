import SiteCompiler.Proofs.Grammar.Inside
import SiteCompiler.Proofs.Grammar.Refusals

/-!
# Quotes that cannot be taken off

A string of a source stands between its quotes, but a list of tokens that was made
by hand may hold any text as a string.  Of such a string the text is the bytes
between the first and the last, and there is none if these bytes are not whole
characters.

* `Sliceable` - the first and the last byte of a text can be cut off.
* `unquote_eq_ok_iff`, `unquote_eq_error_iff` - the text of a value, by its bytes.
* `HoldsUnsliceable`, `parse_eq_unquotedString_iff` - the tokens at which a reading
  stops because it cannot take off the quotes, and that it stops at no others.
-/

namespace SiteCompiler
namespace Grammar

/-! ## Bytes -/

/-- The bytes of a text without the first and the last are those of whole characters: there are two
bytes at least, and characters end behind the first of them and before the last. -/
structure Sliceable (lexeme : String) : Prop where
  size : 2 ≤ lexeme.utf8ByteSize
  front : (⟨1⟩ : String.Pos.Raw).IsValid lexeme
  back : (⟨lexeme.utf8ByteSize - 1⟩ : String.Pos.Raw).IsValid lexeme

instance (lexeme : String) : Decidable (Sliceable lexeme) :=
  decidable_of_iff
    (2 ≤ lexeme.utf8ByteSize ∧ (⟨1⟩ : String.Pos.Raw).IsValid lexeme ∧
      (⟨lexeme.utf8ByteSize - 1⟩ : String.Pos.Raw).IsValid lexeme)
    ⟨fun h => ⟨h.1, h.2.1, h.2.2⟩, fun h => ⟨h.size, h.front, h.back⟩⟩

theorem exists_char_of_one_byte {text : String} (h : text.utf8ByteSize = 1) :
    ∃ c, text.toList = [c] ∧ c.utf8Size = 1 := by
  rw [← String.ofList_toList (s := text)] at h
  cases hchars : text.toList with
  | nil => simp [hchars] at h
  | cons c cs =>
      have hpos := c.utf8Size_pos
      rw [hchars, String.ofList_cons, String.utf8ByteSize_append, String.utf8ByteSize_singleton]
        at h
      have hrest : (String.ofList cs).utf8ByteSize = 0 := by omega
      obtain rfl : cs = [] := by simpa using hrest
      exact ⟨c, rfl, by omega⟩

section Ends

variable {lexeme : String} {first last : Char} {inner : List Char}

theorem eq_append_of_ends (hchars : lexeme.toList = first :: (inner ++ [last])) :
    lexeme = String.singleton first ++ (String.ofList inner ++ String.singleton last) := by
  rw [← String.toList_inj, hchars]
  simp

theorem utf8ByteSize_of_ends (hchars : lexeme.toList = first :: (inner ++ [last]))
    (hfirst : first.utf8Size = 1) (hlast : last.utf8Size = 1) :
    lexeme.utf8ByteSize = 1 + (String.ofList inner).utf8ByteSize + 1 := by
  rw [eq_append_of_ends hchars, String.utf8ByteSize_append, String.utf8ByteSize_append,
    String.utf8ByteSize_singleton, String.utf8ByteSize_singleton, hfirst, hlast, Nat.add_assoc]

/-- What stands between two ends of one byte each, by the bytes of the whole. -/
theorem toUTF8_of_ends (hchars : lexeme.toList = first :: (inner ++ [last]))
    (hfirst : first.utf8Size = 1) (hlast : last.utf8Size = 1) :
    (String.ofList inner).toUTF8 = lexeme.toUTF8.extract 1 (lexeme.utf8ByteSize - 1) := by
  have hstart : (String.singleton first).toByteArray.size + 0 = 1 := by
    rw [String.size_toByteArray, String.utf8ByteSize_singleton, hfirst]
  have hstop : (String.singleton first).toByteArray.size + (String.ofList inner).toByteArray.size =
      lexeme.utf8ByteSize - 1 := by
    rw [utf8ByteSize_of_ends hchars hfirst hlast, String.size_toByteArray, String.size_toByteArray,
      String.utf8ByteSize_singleton, hfirst]
    omega
  have hbytes : lexeme.toUTF8 = (String.singleton first).toByteArray ++
      ((String.ofList inner).toByteArray ++ (String.singleton last).toByteArray) := by
    rw [eq_append_of_ends hchars]
    simp only [String.toUTF8_eq_toByteArray, String.toByteArray_append]
  rw [hbytes, ← hstop, ← hstart, ByteArray.extract_append_size_add,
    ByteArray.extract_append_eq_left rfl, String.toUTF8_eq_toByteArray]

theorem sliceable_of_ends (hchars : lexeme.toList = first :: (inner ++ [last]))
    (hfirst : first.utf8Size = 1) (hlast : last.utf8Size = 1) : Sliceable lexeme := by
  have hlexeme := eq_append_of_ends hchars
  have hsize := utf8ByteSize_of_ends hchars hfirst hlast
  refine ⟨by omega, ?front, ?back⟩
  case front =>
    refine String.Pos.Raw.isValid_iff_exists_append.mpr ⟨_, _, hlexeme, ?_⟩
    rw [String.Pos.Raw.ext_iff, String.byteIdx_rawEndPos, String.utf8ByteSize_singleton, hfirst]
  case back =>
    refine String.Pos.Raw.isValid_iff_exists_append.mpr
      ⟨String.singleton first ++ String.ofList inner, String.singleton last, ?_, ?_⟩
    · rw [String.append_assoc, hlexeme]
    · rw [String.Pos.Raw.ext_iff, String.byteIdx_rawEndPos, String.utf8ByteSize_append,
        String.utf8ByteSize_singleton, hfirst, hsize]
      show 1 + (String.ofList inner).utf8ByteSize + 1 - 1 = 1 + (String.ofList inner).utf8ByteSize
      omega

end Ends

theorem exists_ends_of_sliceable {lexeme : String} (h : Sliceable lexeme) :
    ∃ first inner last, lexeme.toList = first :: (inner ++ [last]) ∧ first.utf8Size = 1 ∧
      last.utf8Size = 1 := by
  have htwo := h.size
  obtain ⟨front, behind, hfront, hfrontEnd⟩ := String.Pos.Raw.isValid_iff_exists_append.mp h.front
  obtain ⟨before, back, hback, hbackEnd⟩ := String.Pos.Raw.isValid_iff_exists_append.mp h.back
  have hfrontSize : front.utf8ByteSize = 1 := (congrArg String.Pos.Raw.byteIdx hfrontEnd).symm
  have hbeforeSize : before.utf8ByteSize = lexeme.utf8ByteSize - 1 :=
    (congrArg String.Pos.Raw.byteIdx hbackEnd).symm
  have hbackSize : back.utf8ByteSize = 1 := by
    have hwhole := congrArg String.utf8ByteSize hback
    rw [String.utf8ByteSize_append] at hwhole
    omega
  obtain ⟨first, hfirst, hfirstSize⟩ := exists_char_of_one_byte hfrontSize
  obtain ⟨last, hlast, hlastSize⟩ := exists_char_of_one_byte hbackSize
  have hfirstChars : lexeme.toList = first :: behind.toList := by
    rw [hfront, String.toList_append, hfirst, List.singleton_append]
  have hlastChars : lexeme.toList = before.toList ++ [last] := by
    rw [hback, String.toList_append, hlast]
  -- The two characters are not the same one, as there are two bytes.
  cases hbefore : before.toList with
  | nil =>
      rw [String.toList_eq_nil_iff] at hbefore
      rw [hbefore, String.utf8ByteSize_empty] at hbeforeSize
      omega
  | cons c inner =>
      rw [hbefore, List.cons_append] at hlastChars
      obtain rfl : first = c := (List.cons.inj (hfirstChars.symm.trans hlastChars)).1
      exact ⟨first, inner, last, hlastChars, hfirstSize, hlastSize⟩

/-- The ends can be cut off exactly if they are two characters of one byte each. -/
theorem sliceable_iff (lexeme : String) :
    Sliceable lexeme ↔ ∃ first inner last, lexeme.toList = first :: (inner ++ [last]) ∧
      first.utf8Size = 1 ∧ last.utf8Size = 1 := by
  constructor
  · exact exists_ends_of_sliceable
  · rintro ⟨first, inner, last, hchars, hfirst, hlast⟩
    exact sliceable_of_ends hchars hfirst hlast

/-- Only the ends have to be of one byte. -/
example : Sliceable "\"é\"" ∧ ¬ Sliceable "é\"" ∧ ¬ Sliceable "\"" := by decide

theorem stripEnds?_eq_some_iff (chars inner : List Char) :
    stripEnds? chars = some inner ↔ ∃ first last, chars = first :: (inner ++ [last]) ∧
      first.utf8Size = 1 ∧ last.utf8Size = 1 := by
  cases chars with
  | nil => simp [stripEnds?]
  | cons first rest =>
      rcases List.eq_nil_or_concat rest with rfl | ⟨middle, last, rfl⟩
      · simp [stripEnds?]
      · simp only [stripEnds?, List.concat_eq_append, List.getLast?_concat, List.dropLast_concat,
          List.cons.injEq, Option.ite_none_right_eq_some, Option.some.injEq]
        constructor
        · rintro ⟨⟨hfirst, hlast⟩, rfl⟩
          exact ⟨first, last, ⟨rfl, rfl⟩, hfirst, hlast⟩
        · rintro ⟨_, _, ⟨rfl, happend⟩, hfirst, hlast⟩
          obtain ⟨rfl, hother⟩ := List.append_inj' happend rfl
          cases hother
          exact ⟨⟨hfirst, hlast⟩, rfl⟩

/-! ## Values -/

section Values

variable {token : Token} {text : String} {fault : ParseFault}

/-- The text of a string is its bytes without the first and the last, if they are a text. -/
theorem unquote_eq_ok_iff (hkind : token.kind = .string) :
    token.unquote = .ok text ↔ Sliceable token.lexeme ∧
      text.toUTF8 = token.lexeme.toUTF8.extract 1 (token.lexeme.utf8ByteSize - 1) := by
  simp only [Token.unquote, hkind, if_true]
  constructor
  · intro h
    cases hstrip : stripEnds? token.lexeme.toList with
    | none => simp [hstrip] at h
    | some inner =>
        obtain rfl : String.ofList inner = text := by simpa [hstrip] using h
        obtain ⟨first, last, hchars, hfirst, hlast⟩ := (stripEnds?_eq_some_iff _ _).mp hstrip
        exact ⟨(sliceable_iff _).mpr ⟨first, inner, last, hchars, hfirst, hlast⟩,
          toUTF8_of_ends hchars hfirst hlast⟩
  · rintro ⟨hsliceable, hbytes⟩
    obtain ⟨first, inner, last, hchars, hfirst, hlast⟩ := (sliceable_iff _).mp hsliceable
    rw [← toUTF8_of_ends hchars hfirst hlast] at hbytes
    simp only [String.toUTF8_eq_toByteArray, String.toByteArray_inj] at hbytes
    rw [(stripEnds?_eq_some_iff _ inner).mpr ⟨first, last, hchars, hfirst, hlast⟩, hbytes]

/-- A value has no text exactly if it is a string whose ends cannot be cut off. -/
theorem unquote_eq_error_iff : token.unquote = .error fault ↔
    token.kind = .string ∧ ¬ Sliceable token.lexeme ∧ fault = .unquotedString token.lexeme := by
  by_cases hkind : token.kind = .string
  · by_cases hsliceable : Sliceable token.lexeme
    · obtain ⟨first, inner, last, hends⟩ := (sliceable_iff _).mp hsliceable
      have hstrip := (stripEnds?_eq_some_iff _ inner).mpr ⟨first, last, hends⟩
      simp [Token.unquote, hkind, hstrip, hsliceable]
    · have hstrip : stripEnds? token.lexeme.toList = none := by
        rw [Option.eq_none_iff_forall_ne_some]
        intro inner hinner
        obtain ⟨first, last, hends⟩ := (stripEnds?_eq_some_iff _ _).mp hinner
        exact hsliceable ((sliceable_iff _).mpr ⟨first, inner, last, hends⟩)
      simp [Token.unquote, hkind, hstrip, hsliceable, eq_comm]
  · simp [Token.unquote, hkind]

theorem displayText_eq_error_iff : token.displayText = .error fault ↔
    token.unquote = .error fault := by
  unfold Token.displayText
  by_cases hkind : token.kind = .identifier
  · have hstring : token.kind ≠ .string := by simp [hkind]
    simp [hkind, unquote_eq_error_iff]
  · simp [hkind, map_eq_error_iff]

/-- The properties of an element that are taken without quotes. -/
def unquotedProperties : List String :=
  ["texto", "acao"]

theorem assign_eq_error_iff (element : Element) (property : String) :
    element.assign property token = .error fault ↔
      property ∈ unquotedProperties ∧ token.unquote = .error fault := by
  unfold Element.assign unquotedProperties
  by_cases htext : property = "texto"
  · simp [htext, map_eq_error_iff, displayText_eq_error_iff]
  by_cases haction : property = "acao"
  · simp [haction, map_eq_error_iff]
  · simp [htext, haction]

end Values

/-! ## Blocks -/

theorem expect_ne_unquotedString {α : Type} (token : Token) (kind : TokenKind)
    (wanted : Expectation) (next : α) (lexeme : String) :
    token.expect kind wanted next ≠ .error (.unquotedString lexeme) := by
  unfold Token.expect
  split <;> simp

theorem add_eq_error_iff (list : Pairs) (property : String) (token : Token)
    (fault : ParseFault) : list.add property token = .error fault ↔
      ∃ before element, list = .element before element ∧ property ∈ unquotedProperties ∧
        token.unquote = .error fault := by
  cases list with
  | state fields => simp [Pairs.add]
  | style properties => simp [Pairs.add]
  | element before current =>
      simp only [Pairs.add, map_eq_error_iff, assign_eq_error_iff, Pairs.element.injEq]
      constructor
      · exact fun h => ⟨before, current, ⟨rfl, rfl⟩, h⟩
      · rintro ⟨_, _, -, h⟩
        exact h

/-- A block cannot take off the quotes of a token at one place only: where the text or the action of
an element is read. -/
theorem step_eq_unquotedString_iff (block : OpenBlock) (token : Token) (lexeme : String) :
    block.step token = .error (.unquotedString lexeme) ↔
      ∃ before element property, block = .pairs (.element before element) (.value property) ∧
        property ∈ unquotedProperties ∧ token = ⟨.string, lexeme⟩ ∧ ¬ Sliceable lexeme := by
  constructor
  · intro h
    cases block with
    | opening kind => exact (expect_ne_unquotedString _ _ _ _ _ h).elim
    | pairs list stage =>
        cases stage with
        | name =>
            simp only [OpenBlock.step, Pairs.step] at h
            split at h
            · cases h
            · exact (expect_ne_unquotedString _ _ _ _ _ h).elim
        | colon name => exact (expect_ne_unquotedString _ _ _ _ _ h).elim
        | value property =>
            simp only [OpenBlock.step, Pairs.step] at h
            split at h
            · cases h
            · rw [map_eq_error_iff, add_eq_error_iff] at h
              obtain ⟨before, element, rfl, hproperty, hunquote⟩ := h
              obtain ⟨hkind, hends, hlexeme⟩ := unquote_eq_error_iff.mp hunquote
              obtain ⟨kind, text⟩ := token
              cases hkind
              cases hlexeme
              exact ⟨before, element, property, rfl, hproperty, rfl, hends⟩
    | elements done =>
        simp only [OpenBlock.step] at h
        split at h
        · cases h
        · exact (expect_ne_unquotedString _ _ _ _ _ h).elim
    | elementOpening done name => exact (expect_ne_unquotedString _ _ _ _ _ h).elim
    | handlers done =>
        simp only [OpenBlock.step] at h
        split at h
        · cases h
        · exact (expect_ne_unquotedString _ _ _ _ _ h).elim
    | handlerArrow done name => exact (expect_ne_unquotedString _ _ _ _ _ h).elim
    | handlerOpening done name => exact (expect_ne_unquotedString _ _ _ _ _ h).elim
    | statements done name depth words => cases h
  · rintro ⟨before, element, property, rfl, hproperty, rfl, hends⟩
    have hunquote : Token.unquote ⟨.string, lexeme⟩ = .error (.unquotedString lexeme) :=
      unquote_eq_error_iff.mpr ⟨rfl, hends, rfl⟩
    have hadd : (Pairs.element before element).add property ⟨.string, lexeme⟩ =
        .error (.unquotedString lexeme) :=
      (add_eq_error_iff _ _ _ _).mpr ⟨before, element, rfl, hproperty, hunquote⟩
    simp [OpenBlock.step, Pairs.step, hadd, Except.map]

/-! ## Lists of tokens -/

section Lists

variable {π : Type}

/-- Among the tokens, and not behind an earlier refusal, the text or the action of an element is
given by a string whose ends cannot be cut off. -/
inductive HoldsUnsliceable (tokens : List (Placed π)) (lexeme : String) (place : π) : Prop
  | intro {front back : List (Placed π)} {name colon value : Placed π}
      {components : List Component} {draft : Draft π} {before : List Element} {element : Element}
      {property : String} {told : List Record} :
      tokens = front ++ name :: colon :: value :: back →
        Leads .start front ⟨components, .within draft (.pairs (.element before element) .name)⟩
          told →
          name.token = ⟨.identifier, property⟩ → property ∈ unquotedProperties →
            colon.token.kind = .colon → value = ⟨⟨.string, lexeme⟩, place⟩ →
              ¬ Sliceable lexeme → HoldsUnsliceable tokens lexeme place

/-- A reading stops at quotes that it cannot take off exactly at such a string. -/
theorem parse_eq_unquotedString_iff (stream : TokenStream π) (lexeme : String) (place : π) :
    stream.parse.result = .error ⟨.unquotedString lexeme, place⟩ ↔
      HoldsUnsliceable stream.tokens lexeme place := by
  rw [TokenStream.parse, run_eq_error_iff_blames]
  constructor
  · intro h
    generalize hfault : ParseFault.unquotedString lexeme = fault at h
    cases h with
    | @token front back placed progress records _ consumed heq hleads hrefuses _ =>
        subst hfault
        cases hrefuses with
        | inside hstep =>
            obtain ⟨before, element, property, rfl, hproperty, htoken, hends⟩ :=
              (step_eq_unquotedString_iff _ _ _).mp hstep
            obtain ⟨front, name, colon, told, rfl, hbefore, hname, hcolon⟩ := exists_pair hleads
            obtain ⟨token, place⟩ := placed
            cases htoken
            exact .intro (by simpa using heq) hbefore hname hproperty hcolon rfl hends
    | finish => cases hfault
    | name => cases hfault
  · intro h
    cases h with
    | @intro front back name colon value components draft before element property told heq hleads
      hname hproperty hcolon hvalue hends =>
        subst hvalue
        obtain ⟨told, hreached⟩ := exists_leads_of_pair hleads hname hcolon
        have hstep := (step_eq_unquotedString_iff _ ⟨.string, lexeme⟩ lexeme).mpr
          ⟨before, element, property, rfl, hproperty, rfl, hends⟩
        let value : Placed π := ⟨⟨.string, lexeme⟩, place⟩
        have hrefuses : Refuses
            ⟨components, .within draft (.pairs (.element before element) (.value property))⟩ value
            ⟨⟨.unquotedString lexeme, place⟩, false⟩ := .inside hstep
        have htokens : stream.tokens = (front ++ [name, colon]) ++ value :: back := by
          rw [heq, List.append_assoc, List.cons_append, List.singleton_append]
        exact .token htokens hreached hrefuses (by simp)

/-- A lone quote in the place of an action. -/
example :
    (TokenStream.parse ⟨[⟨.component, "component"⟩, ⟨.identifier, "A"⟩, ⟨.leftBrace, "\x7b"⟩,
      ⟨.interface, "interface"⟩, ⟨.leftBrace, "\x7b"⟩, ⟨.identifier, "B"⟩, ⟨.leftBrace, "\x7b"⟩,
      ⟨.identifier, "acao"⟩, ⟨.colon, ":"⟩, ⟨.string, "\""⟩].map fun token => ⟨token, ()⟩,
        ()⟩).result = .error ⟨.unquotedString "\"", ()⟩ := by
  rfl

end Lists

end Grammar
end SiteCompiler
