import SiteCompiler.Proofs.Grammar.Continues
import SiteCompiler.Proofs.Grammar.Rules

/-!
# Blocks and their grammar

An open block is a state of the reader.  This module says which tokens complete
it, first by the reader's own steps and then by the grammar.

* `Reaches`, `Completes` - the tokens that leave a block open, and those that lead
  it to its end, by its steps.
* `reaches_pairs`, `reaches_elements`, `reaches_statements`, `reaches_handlers` -
  what the grammar derives is read.
* `exists_pairs`, `exists_elements`, `exists_statements`, `exists_handlers` - what
  is read, the grammar derives.
* `completes_opening_iff` - both, for a whole block.
-/

namespace SiteCompiler
namespace Grammar

/-- What a token makes of the block, if the block stays open. -/
def next? (block : OpenBlock) (token : Token) : Option OpenBlock :=
  match block.step token with
  | .ok (.more next _) => some next
  | _ => none

/-- The tokens lead from one open block to another. -/
def Reaches (block : OpenBlock) (tokens : List Token) (reached : OpenBlock) : Prop :=
  tokens.foldlM next? block = some reached

/-- The tokens complete the block, and leave the result behind. -/
def Completes : OpenBlock → List Token → Option Block → Prop
  | _, [], _ => False
  | block, token :: rest, result =>
    match block.step token with
    | .error _ => False
    | .ok (.more next _) => Completes next rest result
    | .ok (.done found _) => rest = [] ∧ found = result

/-! ## Single steps -/

theorem completes_cons_of_more {block next : OpenBlock} {token : Token} {records : List Record}
    (h : block.step token = .ok (.more next records)) (rest : List Token)
    (result : Option Block) :
    Completes block (token :: rest) result ↔ Completes next rest result := by
  simp only [Completes, h]

theorem completes_cons_of_done {block : OpenBlock} {token : Token} {found : Option Block}
    {records : List Record} (h : block.step token = .ok (.done found records))
    (rest : List Token) (result : Option Block) :
    Completes block (token :: rest) result ↔ rest = [] ∧ found = result := by
  simp only [Completes, h]

theorem next?_eq_some_iff (block next : OpenBlock) (token : Token) :
    next? block token = some next ↔ ∃ records, block.step token = .ok (.more next records) := by
  unfold next?
  rcases block.step token with fault | ⟨other, records⟩ | ⟨result, records⟩ <;> simp

theorem Reaches.nil (block : OpenBlock) : Reaches block [] block := rfl

theorem Reaches.cons {block next reached : OpenBlock} {token : Token} {tokens : List Token}
    (h : Continues block token next) (hrest : Reaches next tokens reached) :
    Reaches block (token :: tokens) reached := by
  have hnext := (next?_eq_some_iff block next token).mpr ((continues_iff block next token).mpr h)
  rw [Reaches, List.foldlM_cons, hnext]
  exact hrest

theorem Reaches.append {block middle reached : OpenBlock} {front back : List Token}
    (h : Reaches block front middle) (hrest : Reaches middle back reached) :
    Reaches block (front ++ back) reached := by
  rw [Reaches, List.foldlM_append, h]
  exact hrest

/-- Where a block has come with some tokens, it goes on. -/
theorem Reaches.completes_iff {block reached : OpenBlock} {front : List Token}
    (h : Reaches block front reached) (rest : List Token) (result : Option Block) :
    Completes block (front ++ rest) result ↔ Completes reached rest result := by
  induction front generalizing block with
  | nil =>
      cases h
      rfl
  | cons token front ih =>
      rw [Reaches, List.foldlM_cons] at h
      obtain ⟨next, hnext, hfront⟩ := Option.bind_eq_some_iff.mp h
      obtain ⟨records, hstep⟩ := (next?_eq_some_iff block next token).mp hnext
      rw [List.cons_append, completes_cons_of_more hstep]
      exact ih hfront

/-- A block that waits for one kind of token goes on with that kind only. -/
theorem completes_expect_iff {block next : OpenBlock} {kind : TokenKind} {wanted : Expectation}
    (hstep : ∀ token, block.step token = token.expect kind wanted (.more next []))
    (tokens : List Token) (result : Option Block) :
    Completes block tokens result ↔
      ∃ token rest, tokens = token :: rest ∧ token.kind = kind ∧ Completes next rest result := by
  cases tokens with
  | nil => simp [Completes]
  | cons token rest =>
      by_cases hkind : token.kind = kind
      · rw [completes_cons_of_more (by rw [hstep, Token.expect, if_pos hkind])]
        constructor
        · intro h
          exact ⟨token, rest, rfl, hkind, h⟩
        · rintro ⟨token, rest, heq, -, h⟩
          cases heq
          exact h
      · simp [Completes, hstep, Token.expect, hkind]

theorem completes_colon_iff (list : Pairs) (name : String) (tokens : List Token)
    (result : Option Block) :
    Completes (.pairs list (.colon name)) tokens result ↔
      ∃ colon rest, tokens = colon :: rest ∧ colon.kind = .colon ∧
        Completes (.pairs list (.value name)) rest result :=
  completes_expect_iff (fun _ => rfl) tokens result

theorem completes_elementOpening_iff (done : List Element) (name : String)
    (tokens : List Token) (result : Option Block) :
    Completes (.elementOpening done name) tokens result ↔
      ∃ opening rest, tokens = opening :: rest ∧ opening.kind = .leftBrace ∧
        Completes (.pairs (.element done ⟨name, none, none⟩) .name) rest result :=
  completes_expect_iff (fun _ => rfl) tokens result

theorem completes_handlerArrow_iff (done : List Handler) (name : String)
    (tokens : List Token) (result : Option Block) :
    Completes (.handlerArrow done name) tokens result ↔
      ∃ arrow rest, tokens = arrow :: rest ∧ arrow.kind = .arrow ∧
        Completes (.handlerOpening done name) rest result :=
  completes_expect_iff (fun _ => rfl) tokens result

theorem completes_handlerOpening_iff (done : List Handler) (name : String)
    (tokens : List Token) (result : Option Block) :
    Completes (.handlerOpening done name) tokens result ↔
      ∃ opening rest, tokens = opening :: rest ∧ opening.kind = .leftBrace ∧
        Completes (.statements done name 0 []) rest result :=
  completes_expect_iff (fun _ => rfl) tokens result

/-- A move is made on the way to the end of the block. -/
theorem Continues.completes_iff {block next : OpenBlock} {token : Token}
    (h : Continues block token next) (rest : List Token) (result : Option Block) :
    Completes block (token :: rest) result ↔ Completes next rest result := by
  obtain ⟨records, hstep⟩ := (continues_iff block next token).mpr h
  exact completes_cons_of_more hstep rest result

/-- On the way to its end a block stays open up to a closing brace. -/
theorem Completes.exists_continues {block : OpenBlock} {token : Token} {rest : List Token}
    {result : Option Block} (h : Completes block (token :: rest) result)
    (hopen : token.kind ≠ .rightBrace) :
    ∃ next, Continues block token next ∧ Completes next rest result := by
  match hstep : block.step token with
  | .error fault => simp [Completes, hstep] at h
  | .ok (.more next records) =>
      have hmove := (continues_iff block next token).mp ⟨records, hstep⟩
      exact ⟨next, hmove, (hmove.completes_iff rest result).mp h⟩
  | .ok (.done found records) => exact (step_ne_done hopen block found records hstep).elim

/-! ## Pairs -/

/-- A list of pairs with further pairs behind it. -/
def addPairs : Pairs → List (String × Token) → Pairs
  | .state fields, pairs => .state (fields ++ pairs.map declarationOf)
  | .style properties, pairs => .style (properties ++ pairs.map declarationOf)
  | .element before element, pairs =>
    .element before
      ⟨element.name, ((lastValue "texto" pairs).map displayOf).or element.text,
        ((lastValue "acao" pairs).map textOf).or element.action⟩

@[simp] theorem addPairs_nil (list : Pairs) : addPairs list [] = list := by
  cases list <;> simp [addPairs, lastValue_nil]

theorem addPairs_cons (list : Pairs) (pair : String × Token) (pairs : List (String × Token)) :
    addPairs (addPairs list [pair]) pairs = addPairs list (pair :: pairs) := by
  obtain ⟨key, value⟩ := pair
  cases list with
  | state fields => simp [addPairs]
  | style properties => simp [addPairs]
  | element before element =>
      simp only [addPairs, lastValue_cons, lastValue_nil, Option.none_or, Option.map_or,
        Option.or_assoc]

/-- A pair is added as the grammar has it. -/
theorem add_eq {value : Token} (hquoted : Quoted value) (list : Pairs) (name : String) :
    ∃ records, list.add name value = .ok (addPairs list [(name, value)], records) := by
  cases list with
  | state fields => exact ⟨[], rfl⟩
  | style properties => exact ⟨[], rfl⟩
  | element before element =>
      simp only [Pairs.add, Element.assign, addPairs, lastValue_cons, lastValue_nil,
        Option.none_or]
      by_cases htext : name = "texto"
      · simp [htext, hquoted.displayText_eq, Except.map]
      · by_cases haction : name = "acao"
        · simp [haction, hquoted.unquote_eq, Except.map]
        · simp [htext, haction, Except.map]

/-- Behind a colon any token but a brace is the value of the pair. -/
theorem completes_value_cons {value : Token} (hquoted : Quoted value) (list : Pairs)
    (name : String) (rest : List Token) (result : Option Block) :
    Completes (.pairs list (.value name)) (value :: rest) result ↔
      value.kind ≠ .leftBrace ∧ value.kind ≠ .rightBrace ∧
        Completes (.pairs (addPairs list [(name, value)]) .name) rest result := by
  obtain ⟨records, hadd⟩ := add_eq hquoted list name
  by_cases hbrace : value.kind = .leftBrace ∨ value.kind = .rightBrace
  · have hstep : (OpenBlock.pairs list (.value name)).step value =
        .error (.expected (.pairValue name) (some value)) := by
      simp [OpenBlock.step, Pairs.step, hbrace]
    simp only [Completes, hstep, false_iff]
    rintro ⟨hleft, hright, -⟩
    rcases hbrace with hbrace | hbrace
    · exact hleft hbrace
    · exact hright hbrace
  · rw [not_or] at hbrace
    rw [(Continues.pairValue hbrace.1 hbrace.2 hadd).completes_iff]
    simp [hbrace]

/-- Pairs of the grammar are read into the list. -/
theorem reaches_pairs {inner : List Token} {pairs : List (String × Token)}
    (h : DerivesPairs inner pairs) (hquoted : AllQuoted inner) (list : Pairs) :
    Reaches (.pairs list .name) inner (.pairs (addPairs list pairs) .name) := by
  induction h generalizing list with
  | nil =>
      rw [addPairs_nil]
      rfl
  | @cons name colon value inner pairs hname hcolon hleft hright _ ih =>
      simp only [allQuoted_cons] at hquoted
      obtain ⟨-, -, hvalue, hinner⟩ := hquoted
      obtain ⟨records, hadd⟩ := add_eq hvalue list name.lexeme
      rw [← addPairs_cons]
      exact .cons (.pairName hname) (.cons (.pairColon hcolon)
        (.cons (.pairValue hleft hright hadd) (ih hinner _)))

/-- Whatever completes a list of pairs begins with pairs of the grammar and a closing brace. -/
theorem exists_pairs {list : Pairs} {tokens : List Token} {result : Option Block}
    (h : Completes (.pairs list .name) tokens result) (hquoted : AllQuoted tokens) :
    ∃ inner pairs closing rest, tokens = inner ++ closing :: rest ∧ DerivesPairs inner pairs ∧
      closing.kind = .rightBrace ∧
      Completes (.pairs (addPairs list pairs) .name) (closing :: rest) result := by
  cases tokens with
  | nil => exact h.elim
  | cons name tokens =>
      by_cases hclosing : name.kind = .rightBrace
      · exact ⟨[], [], name, tokens, rfl, .nil, hclosing, by simpa using h⟩
      obtain ⟨next, hmove, h⟩ := h.exists_continues hclosing
      cases hmove with
      | elementClosing hkind => exact (hclosing hkind).elim
      | pairName hname =>
          -- A pair takes three tokens, and the recursion goes on behind its value.
          obtain ⟨colon, values, rfl, hcolon, h⟩ := (completes_colon_iff _ _ _ _).mp h
          cases values with
          | nil => exact h.elim
          | cons value more =>
              simp only [allQuoted_cons] at hquoted
              obtain ⟨-, -, hvalue, hmore⟩ := hquoted
              rw [completes_value_cons hvalue] at h
              obtain ⟨hleft, hright, h⟩ := h
              obtain ⟨inner, pairs, closing, rest, rfl, hpairs, hclosing, h⟩ := exists_pairs h hmore
              refine ⟨name :: colon :: value :: inner, (name.lexeme, value) :: pairs, closing, rest,
                rfl, .cons hname hcolon hleft hright hpairs, hclosing, ?_⟩
              rw [← addPairs_cons]
              exact h
termination_by tokens.length

theorem completes_pairs_closing_iff {closing : Token} (hclosing : closing.kind = .rightBrace)
    (list : Pairs) (rest : List Token) (result : Option Block) :
    Completes (.pairs list .name) (closing :: rest) result ↔
      match list with
      | .state fields => rest = [] ∧ some (.state fields) = result
      | .style properties => rest = [] ∧ some (.style properties) = result
      | .element before element => Completes (.elements (before ++ [element])) rest result := by
  cases list <;> simp [Completes, OpenBlock.step, Pairs.step, hclosing, Pairs.close]

/-! ## Elements -/

theorem completes_elements_closing_iff {closing : Token} (hclosing : closing.kind = .rightBrace)
    (done : List Element) (rest : List Token) (result : Option Block) :
    Completes (.elements done) (closing :: rest) result ↔
      rest = [] ∧ some (.interface done) = result := by
  have hstep : (OpenBlock.elements done).step closing =
      .ok (.done (some (.interface done)) []) := by
    simp [OpenBlock.step, hclosing]
  exact completes_cons_of_done hstep rest result

theorem addPairs_element (done : List Element) (name : String) (pairs : List (String × Token)) :
    addPairs (.element done ⟨name, none, none⟩) pairs = .element done (elementOf name pairs) := by
  simp [addPairs, elementOf]

/-- Elements of the grammar are read behind those that have been read. -/
theorem reaches_elements {inner : List Token} {elements : List Element}
    (h : DerivesElements inner elements) (hquoted : AllQuoted inner) (done : List Element) :
    Reaches (.elements done) inner (.elements (done ++ elements)) := by
  induction h generalizing done with
  | nil =>
      rw [List.append_nil]
      rfl
  | @cons name opening closing inner more pairs elements hname hopening hpairs hclosing _ ih =>
      simp only [allQuoted_cons, allQuoted_append] at hquoted
      obtain ⟨-, -, hinner, -, hmore⟩ := hquoted
      have hbody := reaches_pairs hpairs hinner (.element done ⟨name.lexeme, none, none⟩)
      rw [addPairs_element] at hbody
      have htail := ih hmore (done ++ [elementOf name.lexeme pairs])
      rw [List.append_assoc, List.singleton_append] at htail
      exact .cons (.elementName hname) (.cons (.elementOpening hopening)
        (hbody.append (.cons (.elementClosing hclosing) htail)))

/-- Whatever completes an interface is elements of the grammar and a closing brace. -/
theorem exists_elements {done : List Element} {tokens : List Token} {result : Option Block}
    (h : Completes (.elements done) tokens result) (hquoted : AllQuoted tokens) :
    ∃ inner elements closing, tokens = inner ++ [closing] ∧ DerivesElements inner elements ∧
      closing.kind = .rightBrace ∧ result = some (.interface (done ++ elements)) := by
  cases tokens with
  | nil => exact h.elim
  | cons name tokens =>
      by_cases hclosing : name.kind = .rightBrace
      · rw [completes_elements_closing_iff hclosing] at h
        obtain ⟨rfl, rfl⟩ := h
        exact ⟨[], [], name, rfl, .nil, hclosing, by simp⟩
      obtain ⟨next, hmove, h⟩ := h.exists_continues hclosing
      cases hmove with
      | elementName hname =>
          obtain ⟨opening, body, rfl, hopening, h⟩ := (completes_elementOpening_iff _ _ _ _).mp h
          simp only [allQuoted_cons] at hquoted
          obtain ⟨-, -, hbody⟩ := hquoted
          obtain ⟨inner, pairs, closing, more, rfl, hpairs, hclosing, h⟩ := exists_pairs h hbody
          simp only [allQuoted_append, allQuoted_cons] at hbody
          obtain ⟨-, -, hmore⟩ := hbody
          rw [addPairs_element, completes_pairs_closing_iff hclosing] at h
          obtain ⟨others, elements, last, rfl, helements, hlast, rfl⟩ := exists_elements h hmore
          refine ⟨name :: opening :: (inner ++ closing :: others),
            elementOf name.lexeme pairs :: elements, last, by simp,
            .cons hname hopening hpairs hclosing helements, hlast, by simp⟩
termination_by tokens.length

/-! ## Statements -/

/-- A balanced sequence is read at every depth and leaves the depth as it was. -/
theorem reaches_statements {body : List Token} (h : Balanced body) (done : List Handler)
    (name : String) (depth : Nat) (words : List String) :
    Reaches (.statements done name depth words) body
      (.statements done name depth (words ++ body.map Token.statementWord)) := by
  induction h generalizing depth words with
  | nil =>
      rw [List.map_nil, List.append_nil]
      rfl
  | @word token more hleft hright _ ih =>
      have hmore := ih depth (words ++ [token.statementWord])
      rw [List.append_assoc, List.singleton_append] at hmore
      exact .cons (.word hleft hright) hmore
  | @braces opening closing inner more hopening _ hclosing _ ihinner ihmore =>
      -- The inner sequence is read one brace deeper, which its closing brace takes back.
      have hback := (ihinner (depth + 1) (words ++ [opening.statementWord])).append
        (.cons (.innerClosing hclosing) (ihmore depth _))
      simpa using Reaches.cons (.innerOpening hopening) hback

/-- The rest of a body below `depth` open braces: balanced but for as many closing braces. -/
inductive ClosesDepth : Nat → List Token → Prop
  | balanced {body : List Token} : Balanced body → ClosesDepth 0 body
  | brace {closing : Token} {inner rest : List Token} {depth : Nat} :
      Balanced inner → closing.kind = .rightBrace → ClosesDepth depth rest →
        ClosesDepth (depth + 1) (inner ++ closing :: rest)

theorem ClosesDepth.word {token : Token} {body : List Token} {depth : Nat}
    (h : ClosesDepth depth body) (hleft : token.kind ≠ .leftBrace)
    (hright : token.kind ≠ .rightBrace) : ClosesDepth depth (token :: body) := by
  cases h with
  | balanced hbody => exact .balanced (.word hleft hright hbody)
  | brace hinner hclosing hrest => exact .brace (.word hleft hright hinner) hclosing hrest

/-- An opening brace takes the first of the closing braces for its partner. -/
theorem ClosesDepth.opening {token : Token} {body : List Token} {depth : Nat}
    (h : ClosesDepth (depth + 1) body) (hopening : token.kind = .leftBrace) :
    ClosesDepth depth (token :: body) := by
  cases h with
  | @brace closing inner rest _ hinner hclosing hrest =>
      cases hrest with
      | balanced hbody => exact .balanced (.braces hopening hinner hclosing hbody)
      | @brace outer more last depth hmore houter hlast =>
          -- The second closing brace becomes the first one that is still wanted.
          have hbraces := Balanced.braces hopening hinner hclosing hmore
          simpa using ClosesDepth.brace hbraces houter hlast

/-- Whatever completes a body begins with the rest of it and its closing brace. -/
theorem exists_statements {done : List Handler} {name : String} {depth : Nat}
    {words : List String} {tokens : List Token} {result : Option Block}
    (h : Completes (.statements done name depth words) tokens result) :
    ∃ body closing rest, tokens = body ++ closing :: rest ∧ ClosesDepth depth body ∧
      closing.kind = .rightBrace ∧
      Completes (.handlers
        (done ++ [⟨name, " ".intercalate (words ++ body.map Token.statementWord)⟩])) rest
        result := by
  -- The depth and the words change along the body, so the induction is on the tokens for all
  -- depths and words.
  induction tokens generalizing depth words with
  | nil => exact h.elim
  | cons token tokens ih =>
      by_cases hopening : token.kind = .leftBrace
      · rw [(Continues.innerOpening hopening).completes_iff] at h
        obtain ⟨body, closing, rest, rfl, hbody, hclosing, h⟩ := ih h
        exact ⟨token :: body, closing, rest, rfl, hbody.opening hopening, hclosing,
          by simpa using h⟩
      by_cases hright : token.kind = .rightBrace
      · cases depth with
        | zero =>
            rw [(Continues.bodyClosing hright).completes_iff] at h
            exact ⟨[], token, tokens, rfl, .balanced .nil, hright, by simpa using h⟩
        | succ depth =>
            rw [(Continues.innerClosing hright).completes_iff] at h
            obtain ⟨body, closing, rest, rfl, hbody, hclosing, h⟩ := ih h
            exact ⟨token :: body, closing, rest, rfl, .brace .nil hright hbody, hclosing,
              by simpa using h⟩
      · rw [(Continues.word hopening hright).completes_iff] at h
        obtain ⟨body, closing, rest, rfl, hbody, hclosing, h⟩ := ih h
        exact ⟨token :: body, closing, rest, rfl, hbody.word hopening hright, hclosing,
          by simpa using h⟩

/-! ## Handlers -/

theorem keepFirst_eq (handlers : List Handler) :
    ∃ records, keepFirst handlers = .done (handlers.head?.map .event) records := by
  rcases handlers with _ | ⟨first, _ | ⟨second, others⟩⟩
  · exact ⟨_, rfl⟩
  · exact ⟨_, rfl⟩
  · exact ⟨_, rfl⟩

/-- Of the handlers of a block the first remains. -/
theorem completes_handlers_closing_iff {closing : Token} (hclosing : closing.kind = .rightBrace)
    (done : List Handler) (rest : List Token) (result : Option Block) :
    Completes (.handlers done) (closing :: rest) result ↔
      rest = [] ∧ done.head?.map .event = result := by
  obtain ⟨records, hkeep⟩ := keepFirst_eq done
  have hstep : (OpenBlock.handlers done).step closing =
      .ok (.done (done.head?.map .event) records) := by
    simp only [OpenBlock.step, hclosing, if_true, hkeep]
  exact completes_cons_of_done hstep rest result

/-- Handlers of the grammar are read behind those that have been read. -/
theorem reaches_handlers {inner : List Token} {handlers : List Handler}
    (h : DerivesHandlers inner handlers) (done : List Handler) :
    Reaches (.handlers done) inner (.handlers (done ++ handlers)) := by
  induction h generalizing done with
  | nil =>
      rw [List.append_nil]
      rfl
  | @cons name arrow opening closing body more handlers hname harrow hopening hbody hclosing _
      ih =>
      have hstatements := reaches_statements hbody done name.lexeme 0 []
      have hclosingMove :
          Continues (.statements done name.lexeme 0 ([] ++ body.map Token.statementWord)) closing
            (.handlers (done ++ [⟨name.lexeme, bodyText body⟩])) := by
        rw [bodyText_eq]
        exact .bodyClosing hclosing
      have htail := ih (done ++ [⟨name.lexeme, bodyText body⟩])
      rw [List.append_assoc, List.singleton_append] at htail
      exact .cons (.handlerName hname) (.cons (.handlerArrow harrow)
        (.cons (.handlerOpening hopening) (hstatements.append (.cons hclosingMove htail))))

/-- Whatever completes a block of events is handlers of the grammar and a closing brace. -/
theorem exists_handlers {done : List Handler} {tokens : List Token} {result : Option Block}
    (h : Completes (.handlers done) tokens result) :
    ∃ inner handlers closing, tokens = inner ++ [closing] ∧ DerivesHandlers inner handlers ∧
      closing.kind = .rightBrace ∧ result = (done ++ handlers).head?.map .event := by
  cases tokens with
  | nil => exact h.elim
  | cons name tokens =>
      by_cases hclosing : name.kind = .rightBrace
      · rw [completes_handlers_closing_iff hclosing] at h
        obtain ⟨rfl, rfl⟩ := h
        exact ⟨[], [], name, rfl, .nil, hclosing, by simp⟩
      obtain ⟨next, hmove, h⟩ := h.exists_continues hclosing
      cases hmove with
      | handlerName hname =>
          obtain ⟨arrow, behind, rfl, harrow, h⟩ := (completes_handlerArrow_iff _ _ _ _).mp h
          obtain ⟨opening, statements, rfl, hopening, h⟩ :=
            (completes_handlerOpening_iff _ _ _ _).mp h
          obtain ⟨body, closing, more, rfl, hbody, hclosing, h⟩ := exists_statements h
          cases hbody with
          | balanced hbody =>
              obtain ⟨others, handlers, last, rfl, hhandlers, hlast, rfl⟩ := exists_handlers h
              refine ⟨name :: arrow :: opening :: (body ++ closing :: others),
                ⟨name.lexeme, bodyText body⟩ :: handlers, last, by simp,
                .cons hname harrow hopening hbody hclosing hhandlers, hlast, ?_⟩
              simp [bodyText_eq]
termination_by tokens.length

/-! ## Whole blocks -/

/-- A block that has been opened by its keyword is completed by what the grammar derives, between
braces, and by nothing else. -/
theorem completes_opening_iff {kind : BlockKind} {tokens : List Token} {result : Option Block}
    (hquoted : AllQuoted tokens) :
    Completes (.opening kind) tokens result ↔
      ∃ opening inner closing, tokens = opening :: (inner ++ [closing]) ∧
        opening.kind = .leftBrace ∧ DerivesBlock kind inner result ∧
        closing.kind = .rightBrace := by
  have hstep : ∀ token, (OpenBlock.opening kind).step token =
      token.expect .leftBrace (.blockOpening kind) (.more kind.enter []) := fun _ => rfl
  rw [completes_expect_iff hstep]
  constructor
  · rintro ⟨opening, rest, rfl, hopening, h⟩
    obtain ⟨-, hrest⟩ := (allQuoted_cons opening rest).mp hquoted
    cases kind with
    | state =>
        obtain ⟨inner, pairs, closing, more, rfl, hpairs, hclosing, h⟩ := exists_pairs h hrest
        obtain ⟨rfl, rfl⟩ := (completes_pairs_closing_iff hclosing _ _ _).mp h
        exact ⟨opening, inner, closing, rfl, hopening, .state hpairs, hclosing⟩
    | style =>
        obtain ⟨inner, pairs, closing, more, rfl, hpairs, hclosing, h⟩ := exists_pairs h hrest
        obtain ⟨rfl, rfl⟩ := (completes_pairs_closing_iff hclosing _ _ _).mp h
        exact ⟨opening, inner, closing, rfl, hopening, .style hpairs, hclosing⟩
    | interface =>
        obtain ⟨inner, elements, closing, rfl, helements, hclosing, rfl⟩ :=
          exists_elements h hrest
        exact ⟨opening, inner, closing, rfl, hopening, .interface helements, hclosing⟩
    | events =>
        obtain ⟨inner, handlers, closing, rfl, hhandlers, hclosing, rfl⟩ := exists_handlers h
        exact ⟨opening, inner, closing, rfl, hopening, .events hhandlers, hclosing⟩
  · rintro ⟨opening, inner, closing, rfl, hopening, hblock, hclosing⟩
    refine ⟨opening, _, rfl, hopening, ?_⟩
    simp only [allQuoted_cons, allQuoted_append] at hquoted
    obtain ⟨-, hinner, -⟩ := hquoted
    cases hblock with
    | state hpairs =>
        exact ((reaches_pairs hpairs hinner _).completes_iff _ _).mpr
          ((completes_pairs_closing_iff hclosing _ _ _).mpr ⟨rfl, rfl⟩)
    | style hpairs =>
        exact ((reaches_pairs hpairs hinner _).completes_iff _ _).mpr
          ((completes_pairs_closing_iff hclosing _ _ _).mpr ⟨rfl, rfl⟩)
    | interface helements =>
        exact ((reaches_elements helements hinner _).completes_iff _ _).mpr
          ((completes_elements_closing_iff hclosing _ _ _).mpr ⟨rfl, rfl⟩)
    | events hhandlers =>
        exact ((reaches_handlers hhandlers _).completes_iff _ _).mpr
          ((completes_handlers_closing_iff hclosing _ _ _).mpr ⟨rfl, rfl⟩)

end Grammar
end SiteCompiler
