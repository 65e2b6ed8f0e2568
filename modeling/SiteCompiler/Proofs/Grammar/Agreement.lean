import SiteCompiler.Proofs.Grammar.Descent
import SiteCompiler.Proofs.Grammar.Refusals

/-!
# The descent and the reader

The parser in place goes down into the parts of a program, and a reader goes from token to
token.  Wherever the parser stands, its position and the part that it is in say what
progress the reader has made, and so each part of the descent takes the reader with it.

* `Parser.Follows` - a part of the descent comes to its end together with a reader, or to
  the error of the reader.
* `Parser.Follows.bind`, `Parser.follows_loop` - one part behind the other, and a loop.
* `Parser.follows_token`, `Parser.follows_expect` - a token that must stand there.
* `Parser.follows_block`, `Parser.follows_component` - the parts of a program.
* `Parser.exists_program_eq` - no check ever fails where strings are quoted, and the parser
  comes to the result of the reader and leaves the tokens that the reader leaves.
-/

namespace SiteCompiler
namespace Grammar
namespace Parser

variable {π α β : Type}

/-! ## A reader from a position on -/

/-- What comes of a reading of the tokens ahead: its result, and the tokens that it leaves. -/
abbrev Ending (π : Type) := Except (ParseError π) Program × List (Placed π)

/-- What comes of a reader that goes on from a position. -/
def reading (parser : Parser π) (progress : Progress π) (position : Nat) : Ending π :=
  let outcome := progress.run parser.stream.finish (parser.ahead position)
  (outcome.result, outcome.rest)

section Reader

variable {parser : Parser π} {position : Nat} {progress next : Progress π} {placed : Placed π}
  {rest : List (Placed π)}

theorem reading_of_ahead_nil (hahead : parser.ahead position = []) :
    parser.reading progress position = (progress.conclude parser.stream.finish, []) := by
  simp only [reading, hahead, Progress.run]

theorem reading_of_moves {records : List Record} (hahead : parser.ahead position = placed :: rest)
    (h : Moves progress placed next records) :
    parser.reading progress position = parser.reading next (position + 1) := by
  have hstep := (step_eq_ok_iff _ _ _ _).mpr h
  simp only [reading, hahead, ahead_succ hahead, Progress.run, hstep]

theorem reading_of_refuses {refusal : Refusal π}
    (hahead : parser.ahead position = placed :: rest) (h : Refuses progress placed refusal) :
    parser.reading progress position = (.error refusal.error,
      parser.ahead (if refusal.consumed then position + 1 else position)) := by
  have hstep := (step_eq_error_iff _ _ _).mpr h
  cases hconsumed : refusal.consumed <;>
    simp [reading, hahead, ahead_succ hahead, Progress.run, hstep, hconsumed]

end Reader

/-! ## Taking a reader along -/

/-- A part of the descent comes to a value and to a position where this holds of them, or to the
error of the reader and to the tokens that the reader leaves. -/
inductive Follows (parser : Parser π) (ending : Ending π) (position : Nat)
    (post : α → Nat → Prop) : Option (Except (ParseError π) α × Nat) → Prop
  | ok {value : α} {next : Nat} : position ≤ next → parser.Holds next → post value next →
      Follows parser ending position post (some (.ok value, next))
  | error {cause : ParseError π} {next : Nat} : position ≤ next → parser.Holds next →
      ending = (.error cause, parser.ahead next) →
        Follows parser ending position post (some (.error cause, next))

section Follows

variable {parser : Parser π} {ending : Ending π} {position : Nat} {progress : Progress π}

theorem Follows.of_le {post weaker : α → Nat → Prop} {next : Nat}
    {outcome : Option (Except (ParseError π) α × Nat)}
    (h : Follows parser ending next post outcome) (hle : position ≤ next)
    (hpost : ∀ value after, next ≤ after → post value after → weaker value after) :
    Follows parser ending position weaker outcome := by
  cases h with
  | ok hmore hholds hvalue =>
      exact .ok (Nat.le_trans hle hmore) hholds (hpost _ _ hmore hvalue)
  | error hmore hholds heq => exact .error (Nat.le_trans hle hmore) hholds heq

/-- The rest of a descent follows its first part. -/
theorem Follows.bind {x : Reading π α} {f : α → Reading π β} {mid : α → Nat → Prop}
    {post : β → Nat → Prop} (h : Follows parser ending position mid (x position))
    (hf : ∀ value next, position ≤ next → parser.Holds next → mid value next →
      Follows parser ending next post (f value next)) :
    Follows parser ending position post ((x >>= f) position) := by
  have hbind : (x >>= f) position = match x position with
      | none => none
      | some (.ok value, next) => f value next
      | some (.error cause, next) => some (.error cause, next) := by
    show (x position >>= _) = _
    rcases x position with _ | ⟨_ | _, _⟩ <;> rfl
  rw [hbind]
  generalize x position = outcome at h
  cases h with
  | ok hle hholds hmid =>
      exact (hf _ _ hle hholds hmid).of_le hle fun _ _ _ hpost => hpost
  | error hle hholds heq => exact .error hle hholds heq

theorem Follows.pure {post : α → Nat → Prop} {value : α} (hposition : parser.Holds position)
    (hpost : post value position) :
    Follows parser ending position post ((Pure.pure value : Reading π α) position) :=
  .ok (Nat.le_refl _) hposition hpost

theorem look_bind (f : Placed π → Reading π α) (position : Nat) :
    (parser.look >>= f) position = f (parser.peek position) position := rfl

theorem follows_advance {placed : Placed π} {rest : List (Placed π)}
    (hposition : parser.Holds position) (hahead : parser.ahead position = placed :: rest) :
    Follows parser ending position (fun value next => value = placed ∧ next = position + 1)
      (parser.advance position) := by
  obtain ⟨hpeek, hend, hnext⟩ := peek_of_ahead_cons hposition hahead
  rw [advance, hpeek, hend]
  exact .ok (Nat.le_succ _) hnext ⟨rfl, rfl⟩

/-- What the parser misses, the reader wants. -/
theorem follows_miss {wanted : Expectation} {post : α → Nat → Prop}
    (hposition : parser.Holds position) (hending : ending = parser.reading progress position)
    (hwanted : parser.ahead position = [] → progress.wanted? = some wanted)
    (hrefuse : ∀ placed ∈ (parser.ahead position).head?,
      Refuses progress placed ⟨⟨.expected wanted (some placed.token), placed.place⟩, false⟩) :
    Follows parser ending position post (parser.miss wanted position) := by
  refine .error (Nat.le_refl _) hposition ?_
  rw [hending]
  cases hahead : parser.ahead position with
  | nil =>
      obtain ⟨hend, hplace⟩ := peek_of_ahead_nil hposition hahead
      rw [reading_of_ahead_nil hahead, Progress.conclude, hwanted hahead, hend, hplace]
      rfl
  | cons placed rest =>
      obtain ⟨hpeek, hend, -⟩ := peek_of_ahead_cons hposition hahead
      rw [reading_of_refuses hahead (hrefuse placed (by simp [hahead])), hpeek, hend]
      simp [hahead]

/-- The token that is gone past is the one ahead, and it is of the kind. -/
theorem follows_token {kind : TokenKind} {wanted : Expectation}
    (hposition : parser.Holds position) (hending : ending = parser.reading progress position)
    (hwanted : parser.ahead position = [] → progress.wanted? = some wanted)
    (hrefuse : ∀ placed ∈ (parser.ahead position).head?, placed.token.kind ≠ kind →
      Refuses progress placed ⟨⟨.expected wanted (some placed.token), placed.place⟩, false⟩) :
    Follows parser ending position
      (fun placed next => (∃ rest, parser.ahead position = placed :: rest) ∧
        placed.token.kind = kind ∧ next = position + 1)
      (parser.expect kind wanted position) := by
  unfold expect
  split
  case isTrue hcheck =>
    obtain ⟨placed, hhead, hkind⟩ := (check_iff hposition).mp hcheck
    obtain ⟨rest, hahead⟩ := List.head?_eq_some_iff.mp hhead
    refine (follows_advance hposition hahead).of_le (Nat.le_refl _) ?_
    rintro value next - ⟨rfl, rfl⟩
    exact ⟨⟨rest, hahead⟩, hkind, rfl⟩
  case isFalse hcheck =>
    refine follows_miss hposition hending hwanted ?_
    intro placed hhead
    exact hrefuse placed hhead fun hkind =>
      hcheck ((check_iff hposition).mpr ⟨placed, hhead, hkind⟩)

/-- Where the reader goes on with tokens of one kind only, so does the parser. -/
theorem follows_expect {kind : TokenKind} {wanted : Expectation} (after : Placed π → Progress π)
    (hposition : parser.Holds position) (hending : ending = parser.reading progress position)
    (hwanted : parser.ahead position = [] → progress.wanted? = some wanted)
    (hstep : ∀ placed ∈ (parser.ahead position).head?,
      (placed.token.kind = kind ∧ ∃ records, Moves progress placed (after placed) records) ∨
        (placed.token.kind ≠ kind ∧
          Refuses progress placed
            ⟨⟨.expected wanted (some placed.token), placed.place⟩, false⟩)) :
    Follows parser ending position
      (fun placed next => position < next ∧ ending = parser.reading (after placed) next)
      (parser.expect kind wanted position) := by
  refine (follows_token hposition hending hwanted ?_).of_le (Nat.le_refl _) ?_
  · intro placed hhead hkind
    exact ((hstep placed hhead).resolve_left fun h => hkind h.1).2
  · rintro placed next - ⟨⟨rest, hahead⟩, hkind, rfl⟩
    obtain ⟨-, records, hmove⟩ : placed.token.kind = kind ∧ _ :=
      (hstep placed (by simp [hahead])).resolve_right fun h => h.1 hkind
    exact ⟨Nat.lt_succ_self _, by rw [hending, reading_of_moves hahead hmove]⟩

/-- A loop takes a reader along if each of its rounds does. -/
theorem follows_loop {stop : α → Token → Bool} {round : α → Reading π α}
    (state : α → Progress π)
    (hround : ∀ value position placed rest, parser.Holds position →
      ending = parser.reading (state value) position →
        parser.ahead position = placed :: rest → stop value placed.token = false →
          Follows parser ending position
            (fun longer next => position < next ∧ ending = parser.reading (state longer) next)
            (round value position))
    (value : α) (hposition : parser.Holds position)
    (hending : ending = parser.reading (state value) position) :
    Follows parser ending position
      (fun last next => ending = parser.reading (state last) next ∧
        ∀ placed ∈ (parser.ahead next).head?, stop last placed.token = true)
      (parser.loop stop round value position) := by
  -- Every round leaves fewer tokens ahead.
  induction hcount : (parser.ahead position).length using Nat.strongRecOn
    generalizing value position with
  | _ count ih =>
    rw [loop]
    cases hahead : parser.ahead position with
    | nil =>
        rw [if_pos (peek_of_ahead_nil hposition hahead).1]
        exact .ok (Nat.le_refl _) hposition ⟨hending, by simp [hahead]⟩
    | cons placed rest =>
        obtain ⟨hpeek, hend, -⟩ := peek_of_ahead_cons hposition hahead
        rw [hpeek, hend, if_neg Bool.false_ne_true]
        cases hstop : stop value placed.token with
        | true => exact .ok (Nat.le_refl _) hposition ⟨hending, by simpa [hahead] using hstop⟩
        | false =>
            have hfollows := hround value position placed rest hposition hending hahead hstop
            rw [if_neg Bool.false_ne_true]
            generalize round value position = outcome at hfollows ⊢
            cases hfollows with
            | error hle hholds hcause => exact .error hle hholds hcause
            | @ok longer next hle hholds hpost =>
                have hfewer : (parser.ahead next).length < count := by
                  simp only [← hcount, ahead, List.length_drop]
                  have hnext : next ≤ parser.stream.tokens.length := hholds
                  omega
                simp only [hpost.1, if_true]
                exact (ih _ hfewer longer hholds hpost.2 rfl).of_le hle fun _ _ _ hlast => hlast

/-! ## Inside a block -/

section Within

variable {components : List Component} {draft : Draft π}

/-- The progress that a step of a block makes. -/
def behind (components : List Component) (draft : Draft π) : BlockStep → Progress π
  | .more next _ => ⟨components, .within draft next⟩
  | .done result _ => ⟨components, .between (draft.add result)⟩

theorem exists_moves_within {block : OpenBlock} {placed : Placed π} {made : BlockStep}
    (h : block.step placed.token = .ok made) (components : List Component) (draft : Draft π) :
    ∃ records, Moves ⟨components, .within draft block⟩ placed (behind components draft made)
      records := by
  cases made with
  | more next records => exact ⟨records, .more h⟩
  | done result records => exact ⟨records, .done h⟩

theorem follows_expect_within {block : OpenBlock} {kind : TokenKind} {wanted : Expectation}
    (made : Token → BlockStep) (hposition : parser.Holds position)
    (hending : ending = parser.reading ⟨components, .within draft block⟩ position)
    (hwanted : parser.ahead position = [] → block.wanted = wanted)
    (hstep : ∀ placed ∈ (parser.ahead position).head?,
      block.step placed.token = placed.token.expect kind wanted (made placed.token)) :
    Follows parser ending position
      (fun placed next => position < next ∧
        ending = parser.reading (behind components draft (made placed.token)) next)
      (parser.expect kind wanted position) := by
  refine follows_expect (fun placed => behind components draft (made placed.token)) hposition
    hending (fun hahead => congrArg some (hwanted hahead)) ?_
  intro placed hhead
  have hblock := hstep placed hhead
  by_cases hkind : placed.token.kind = kind
  · rw [Token.expect, if_pos hkind] at hblock
    exact .inl ⟨hkind, exists_moves_within hblock components draft⟩
  · rw [Token.expect, if_neg hkind] at hblock
    exact .inr ⟨hkind, .inside hblock⟩

/-- Where a token is ahead, what the block does with it is all that counts. -/
theorem follows_expect_ahead {block : OpenBlock} {kind : TokenKind} {wanted : Expectation}
    (made : Token → BlockStep) {placed : Placed π} {rest : List (Placed π)}
    (hposition : parser.Holds position)
    (hending : ending = parser.reading ⟨components, .within draft block⟩ position)
    (hahead : parser.ahead position = placed :: rest)
    (hstep : block.step placed.token = placed.token.expect kind wanted (made placed.token)) :
    Follows parser ending position
      (fun placed next => position < next ∧
        ending = parser.reading (behind components draft (made placed.token)) next)
      (parser.expect kind wanted position) := by
  refine follows_expect_within made hposition hending (by simp [hahead]) ?_
  intro other hhead
  obtain rfl : placed = other := by simpa [hahead] using hhead
  exact hstep

/-! ## Pairs -/

/-- Where a loop has stopped, the end of input follows or a closing brace. -/
def Closes (parser : Parser π) (position : Nat) : Prop :=
  ∀ placed ∈ (parser.ahead position).head?, placed.token.kind = .rightBrace

theorem follows_untilClosing {round : α → Reading π α} (state : α → Progress π)
    (hround : ∀ value position placed rest, parser.Holds position →
      ending = parser.reading (state value) position →
        parser.ahead position = placed :: rest → placed.token.kind ≠ .rightBrace →
          Follows parser ending position
            (fun longer next => position < next ∧ ending = parser.reading (state longer) next)
            (round value position))
    (value : α) (hposition : parser.Holds position)
    (hending : ending = parser.reading (state value) position) :
    Follows parser ending position
      (fun last next => ending = parser.reading (state last) next ∧ Closes parser next)
      (parser.untilClosing round value position) := by
  refine (follows_loop state ?_ value hposition hending).of_le (Nat.le_refl _) ?_
  · intro value position placed rest hholds hstate hahead hstop
    exact hround value position placed rest hholds hstate hahead (by simpa using hstop)
  · rintro last next - ⟨hlast, hstop⟩
    exact ⟨hlast, fun placed hhead => by simpa using hstop placed hhead⟩

theorem follows_literal {list : Pairs} {name : String}
    (hquoted : parser.StringsQuoted) (hposition : parser.Holds position)
    (hending : ending =
      parser.reading ⟨components, .within draft (.pairs list (.value name))⟩ position) :
    Follows parser ending position
      (fun value next => position < next ∧
        ∃ added records, list.add name value = .ok (added, records) ∧
          ending = parser.reading ⟨components, .within draft (.pairs added .name)⟩ next)
      (parser.literal name position) := by
  rw [literal, look_bind]
  cases hahead : parser.ahead position with
  | nil =>
      obtain ⟨hend, -⟩ := peek_of_ahead_nil hposition hahead
      have hkind : (parser.peek position).token.kind = .endOfInput := by simpa [isAtEnd] using hend
      rw [if_pos (.inl hkind)]
      exact follows_miss hposition hending (fun _ => rfl) (by simp [hahead])
  | cons placed rest =>
      obtain ⟨hpeek, hend, -⟩ := peek_of_ahead_cons hposition hahead
      have hkind : placed.token.kind ≠ .endOfInput := by simpa [isAtEnd, hpeek] using hend
      rw [hpeek]
      by_cases hbrace : placed.token.kind = .leftBrace ∨ placed.token.kind = .rightBrace
      · rw [if_pos (.inr hbrace)]
        refine follows_miss hposition hending (fun _ => rfl) ?_
        intro other hhead
        obtain rfl : placed = other := by simpa [hahead] using hhead
        exact .inside (by simp only [OpenBlock.step, Pairs.step, hbrace, if_true])
      · rw [if_neg fun h => h.elim hkind hbrace]
        have hmem : placed ∈ parser.stream.tokens := by
          have hhere : placed ∈ parser.ahead position := by simp [hahead]
          exact List.mem_of_mem_drop hhere
        obtain ⟨records, hadd⟩ := add_eq (hquoted placed hmem) list name
        have hblock : (OpenBlock.pairs list (.value name)).step placed.token =
            .ok (.more (.pairs (addPairs list [(name, placed.token)]) .name) records) := by
          simp only [OpenBlock.step, Pairs.step, hbrace, if_false, hadd]
          rfl
        refine (follows_advance hposition hahead).bind ?_
        rintro value next - hnext ⟨rfl, rfl⟩
        refine .pure hnext ⟨Nat.lt_succ_self _, _, records, hadd, ?_⟩
        rw [hending, reading_of_moves hahead (.more hblock)]

/-- The values of a list of pairs are kept as the reader keeps them. -/
structure Keeps (list : PairList) (add : α → String → Token → Except ParseFault α)
    (inject : α → Pairs) : Prop where
  list : ∀ state, (inject state).list = list
  add : ∀ state name value added records, (inject state).add name value = .ok (added, records) →
    ∃ longer, add state name value = .ok longer ∧ inject longer = added

theorem follows_pairs {list : PairList} {add : α → String → Token → Except ParseFault α}
    {inject : α → Pairs} (hkeeps : Keeps list add inject)
    (hquoted : parser.StringsQuoted) (state : α)
    (hposition : parser.Holds position)
    (hending : ending =
      parser.reading ⟨components, .within draft (.pairs (inject state) .name)⟩ position) :
    Follows parser ending position
      (fun last next =>
        ending = parser.reading ⟨components, .within draft (.pairs (inject last) .name)⟩ next ∧
          Closes parser next)
      (parser.pairs list add state position) := by
  refine follows_untilClosing
    (fun state => ⟨components, .within draft (.pairs (inject state) .name)⟩) ?_ state hposition
    hending
  intro state position placed rest hholds hstate hahead hopen
  refine (follows_expect_ahead
    (fun token => .more (.pairs (inject state) (.colon token.lexeme)) []) hholds hstate hahead
    ?_).bind ?_
  · simp only [OpenBlock.step, Pairs.step, hopen, if_false, hkeeps.list]
  rintro name next - hholds ⟨hlt, hname⟩
  refine (follows_expect_within
    (fun _ => .more (.pairs (inject state) (.value name.token.lexeme)) []) hholds hname
    (fun _ => congrArg Expectation.pairColon (hkeeps.list state)) ?_).bind ?_
  · intro other _
    simp only [OpenBlock.step, Pairs.step, hkeeps.list]
  rintro colon behindColon - hholds ⟨hcolon, hvalue⟩
  refine (follows_literal hquoted hholds hvalue).bind ?_
  rintro value last - hholds ⟨hlast, added, records, hadd, hadded⟩
  obtain ⟨longer, htaken, rfl⟩ := hkeeps.add _ _ _ _ _ hadd
  rw [htaken]
  exact .ok (Nat.le_refl _) hholds ⟨by omega, hadded⟩

/-! ## Blocks -/

/-- A closing brace behind a loop. -/
theorem follows_closing {block : OpenBlock} {wanted : Expectation} (made : BlockStep)
    (hposition : parser.Holds position)
    (hending : ending = parser.reading ⟨components, .within draft block⟩ position)
    (hwanted : block.wanted = wanted) (hcloses : Closes parser position)
    (hstep : ∀ token : Token, token.kind = .rightBrace → block.step token = .ok made) :
    Follows parser ending position
      (fun _ next => position < next ∧ ending = parser.reading (behind components draft made) next)
      (parser.expect .rightBrace wanted position) := by
  refine follows_expect_within (fun _ => made) hposition hending (fun _ => hwanted) ?_
  intro placed hhead
  have hkind := hcloses placed hhead
  rw [hstep _ hkind, Token.expect, if_pos hkind]

theorem follows_declarations {kind : BlockKind} {list : PairList}
    {inject : List Declaration → Pairs} (hkeeps : Keeps list declare inject)
    (henter : kind.enter = .pairs (inject []) .name)
    (hquoted : parser.StringsQuoted) (hposition : parser.Holds position)
    (hending : ending = parser.reading ⟨components, .within draft (.opening kind)⟩ position) :
    Follows parser ending position
      (fun fields next =>
        ending = parser.reading (behind components draft (inject fields).close) next)
      (parser.declarations kind list position) := by
  refine (follows_expect_within (fun _ => .more kind.enter []) hposition hending (fun _ => rfl)
    (fun _ _ => rfl)).bind ?_
  rintro opening next - hholds ⟨-, hentered⟩
  rw [henter] at hentered
  refine (follows_pairs hkeeps hquoted [] hholds hentered).bind ?_
  rintro fields next - hholds ⟨hpairs, hcloses⟩
  refine (follows_closing (inject fields).close hholds hpairs
    (congrArg Expectation.pairsEnd (hkeeps.list fields)) hcloses ?_).bind ?_
  · intro token hkind
    simp only [OpenBlock.step, Pairs.step, hkind, if_true]
  · rintro closing last - hholds ⟨-, hclosed⟩
    exact .pure hholds hclosed

theorem keeps_state : Keeps .state declare Pairs.state := by
  refine ⟨fun _ => rfl, ?_⟩
  intro fields name value added records hadd
  cases hadd
  exact ⟨_, rfl, rfl⟩

theorem keeps_style : Keeps .style declare Pairs.style := by
  refine ⟨fun _ => rfl, ?_⟩
  intro properties name value added records hadd
  cases hadd
  exact ⟨_, rfl, rfl⟩

theorem keeps_element (done : List Element) :
    Keeps .element (fun element property value => (element.assign property value).map Prod.fst)
      (Pairs.element done) := by
  refine ⟨fun _ => rfl, ?_⟩
  intro element name value added records hadd
  cases hassign : element.assign name value with
  | error fault => simp [Pairs.add, hassign, Except.map] at hadd
  | ok assigned =>
      obtain ⟨rfl, -⟩ : Pairs.element done assigned.1 = added ∧ _ := by
        simpa [Pairs.add, hassign, Except.map] using hadd
      exact ⟨assigned.1, rfl, rfl⟩

theorem follows_element {done : List Element} {placed : Placed π} {rest : List (Placed π)}
    (hquoted : parser.StringsQuoted)
    (hposition : parser.Holds position) (hahead : parser.ahead position = placed :: rest)
    (hopen : placed.token.kind ≠ .rightBrace)
    (hending : ending = parser.reading ⟨components, .within draft (.elements done)⟩ position) :
    Follows parser ending position
      (fun element next => position < next ∧
        ending = parser.reading ⟨components, .within draft (.elements (done ++ [element]))⟩ next)
      (parser.element position) := by
  refine (follows_expect_ahead (fun token => .more (.elementOpening done token.lexeme) [])
    hposition hending hahead ?_).bind ?_
  · simp only [OpenBlock.step, hopen, if_false]
  rintro name next - hholds ⟨hlt, hname⟩
  refine (follows_expect_within
    (fun _ => .more (.pairs (.element done ⟨name.token.lexeme, none, none⟩) .name) [])
    hholds hname (fun _ => rfl) (fun _ _ => rfl)).bind ?_
  rintro opening next hle hholds ⟨-, hopening⟩
  refine (follows_pairs (keeps_element done) hquoted _ hholds hopening).bind ?_
  rintro element next hmore hholds ⟨hpairs, hcloses⟩
  refine (follows_closing (Pairs.element done element).close hholds hpairs rfl hcloses ?_).bind ?_
  · intro token hkind
    simp only [OpenBlock.step, Pairs.step, hkind, if_true]
  · rintro closing last hlast hholds ⟨-, hclosed⟩
    exact .pure hholds ⟨by omega, hclosed⟩

theorem follows_elements (hquoted : parser.StringsQuoted) (hposition : parser.Holds position)
    (hending : ending = parser.reading ⟨components, .within draft (.opening .interface)⟩ position) :
    Follows parser ending position
      (fun elements next => ending =
        parser.reading ⟨components, .between (draft.add (some (.interface elements)))⟩ next)
      (parser.elements position) := by
  refine (follows_expect_within (fun _ => .more (.elements []) []) hposition hending
    (fun _ => rfl) (fun _ _ => rfl)).bind ?_
  rintro opening next - hholds ⟨-, hentered⟩
  refine (follows_untilClosing
    (fun elements => ⟨components, .within draft (.elements elements)⟩) ?_ [] hholds
    hentered).bind ?_
  · intro done position placed rest hholds hstate hahead hopen
    refine (follows_element hquoted hholds hahead hopen hstate).bind ?_
    rintro element next - hholds helement
    exact .pure hholds helement
  rintro elements next - hholds ⟨hloop, hcloses⟩
  refine (follows_closing (.done (some (.interface elements)) []) hholds hloop rfl
    hcloses ?_).bind ?_
  · intro token hkind
    simp only [OpenBlock.step, hkind, if_true]
  · rintro closing last - hholds ⟨-, hclosed⟩
    exact .pure hholds hclosed

/-- A token of the body is a word of it, unless it is the brace that closes the body. -/
theorem stepStatements_eq {depth : Nat} {token : Token}
    (h : ¬ (token.kind = .rightBrace ∧ depth = 0)) (done : List Handler) (name : String)
    (words : List String) :
    stepStatements done name depth words token =
      .more (.statements done name (depthBehind depth token)
        (words ++ [token.statementWord])) [] := by
  by_cases hopening : token.kind = .leftBrace
  · simp only [stepStatements, depthBehind, hopening, if_true]
  · by_cases hclosing : token.kind = .rightBrace
    · obtain ⟨outer, rfl⟩ := Nat.exists_eq_succ_of_ne_zero fun hdepth => h ⟨hclosing, hdepth⟩
      simp [stepStatements, depthBehind, hclosing]
    · simp only [stepStatements, depthBehind, hopening, hclosing, if_false]

theorem follows_words {done : List Handler} {name : String} (hposition : parser.Holds position)
    (hending : ending =
      parser.reading ⟨components, .within draft (.statements done name 0 [])⟩ position) :
    Follows parser ending position
      (fun body next =>
        ending = parser.reading
          ⟨components, .within draft (.statements done name body.1 body.2)⟩ next ∧
        ∀ placed ∈ (parser.ahead next).head?, placed.token.kind = .rightBrace ∧ body.1 = 0)
      (parser.words position) := by
  refine (follows_loop
    (fun body => ⟨components, .within draft (.statements done name body.1 body.2)⟩) ?_ (0, [])
    hposition hending).of_le (Nat.le_refl _) ?_
  · rintro ⟨depth, words⟩ position placed rest hholds hstate hahead hstop
    refine (follows_advance hholds hahead).bind ?_
    rintro value next - hnext ⟨rfl, rfl⟩
    have hword := stepStatements_eq (by simpa using hstop) done name words
    have hblock : (OpenBlock.statements done name depth words).step value.token = .ok _ :=
      congrArg Except.ok hword
    exact .pure hnext ⟨Nat.lt_succ_self _, by rw [hstate, reading_of_moves hahead (.more hblock)]⟩
  · rintro ⟨depth, words⟩ next - ⟨hlast, hstop⟩
    exact ⟨hlast, fun placed hhead => by simpa using hstop placed hhead⟩

theorem follows_handler {done : List Handler} {placed : Placed π} {rest : List (Placed π)}
    (hposition : parser.Holds position) (hahead : parser.ahead position = placed :: rest)
    (hopen : placed.token.kind ≠ .rightBrace)
    (hending : ending = parser.reading ⟨components, .within draft (.handlers done)⟩ position) :
    Follows parser ending position
      (fun handler next => position < next ∧
        ending = parser.reading ⟨components, .within draft (.handlers (done ++ [handler]))⟩ next)
      (parser.handler position) := by
  refine (follows_expect_ahead (fun token => .more (.handlerArrow done token.lexeme) [])
    hposition hending hahead ?_).bind ?_
  · simp only [OpenBlock.step, hopen, if_false]
  rintro name next - hholds ⟨hlt, hname⟩
  refine (follows_expect_within (fun _ => .more (.handlerOpening done name.token.lexeme) [])
    hholds hname (fun _ => rfl) (fun _ _ => rfl)).bind ?_
  rintro arrow next hle hholds ⟨-, harrow⟩
  refine (follows_expect_within (fun _ => .more (.statements done name.token.lexeme 0 []) [])
    hholds harrow (fun _ => rfl) (fun _ _ => rfl)).bind ?_
  rintro opening next hmore hholds ⟨-, hopening⟩
  refine (follows_words hholds hopening).bind ?_
  rintro ⟨depth, words⟩ next hwords hholds ⟨hbody, hcloses⟩
  refine (follows_expect_within
    (fun _ => .more (.handlers (done ++ [⟨name.token.lexeme, " ".intercalate words⟩])) [])
    hholds hbody (fun _ => rfl) ?_).bind ?_
  · intro other hhead
    obtain ⟨hkind, rfl⟩ := hcloses other hhead
    simp [OpenBlock.step, stepStatements, Token.expect, hkind]
  · rintro closing last hlast hholds ⟨-, hclosed⟩
    exact .pure hholds ⟨by omega, hclosed⟩

theorem follows_handlers (hposition : parser.Holds position)
    (hending : ending = parser.reading ⟨components, .within draft (.opening .events)⟩ position) :
    Follows parser ending position
      (fun handlers next => ending =
        parser.reading ⟨components, .between (draft.add (handlers.head?.map .event))⟩ next)
      (parser.handlers position) := by
  refine (follows_expect_within (fun _ => .more (.handlers []) []) hposition hending
    (fun _ => rfl) (fun _ _ => rfl)).bind ?_
  rintro opening next - hholds ⟨-, hentered⟩
  refine (follows_untilClosing
    (fun handlers => ⟨components, .within draft (.handlers handlers)⟩) ?_ [] hholds
    hentered).bind ?_
  · intro done position placed rest hholds hstate hahead hopen
    refine (follows_handler hholds hahead hopen hstate).bind ?_
    rintro handler next - hholds hhandler
    exact .pure hholds hhandler
  rintro handlers next - hholds ⟨hloop, hcloses⟩
  obtain ⟨records, hfirst⟩ := keepFirst_eq handlers
  refine (follows_closing (.done (handlers.head?.map .event) records) hholds hloop rfl
    hcloses ?_).bind ?_
  · intro token hkind
    simp only [OpenBlock.step, hkind, if_true, hfirst]
  · rintro closing last - hholds ⟨-, hclosed⟩
    exact .pure hholds hclosed

theorem follows_block (kind : BlockKind)
    (hquoted : parser.StringsQuoted) (hposition : parser.Holds position)
    (hending : ending = parser.reading ⟨components, .within draft (.opening kind)⟩ position) :
    Follows parser ending position
      (fun result next =>
        ending = parser.reading ⟨components, .between (draft.add result)⟩ next)
      (parser.block kind position) := by
  cases kind with
  | state =>
      refine (follows_declarations keeps_state rfl hquoted hposition hending).bind ?_
      exact fun fields next _ hholds hfields => .pure hholds hfields
  | style =>
      refine (follows_declarations keeps_style rfl hquoted hposition hending).bind ?_
      exact fun properties next _ hholds hproperties => .pure hholds hproperties
  | interface =>
      refine (follows_elements hquoted hposition hending).bind ?_
      exact fun elements next _ hholds helements => .pure hholds helements
  | events =>
      refine (follows_handlers hposition hending).bind ?_
      exact fun handlers next _ hholds hhandlers => .pure hholds hhandlers

end Within

/-! ## Components -/

/-- What comes of a reader behind a component: the component is accepted if its name is new. -/
def accepted (parser : Parser π) (components : List Component) (place : π) (component : Component)
    (position : Nat) : Ending π :=
  if components.any fun other => other.name = component.name then
    (.error ⟨.duplicateComponent component.name, place⟩, parser.ahead position)
  else parser.reading ⟨components ++ [component], .outside⟩ position

theorem reading_of_closing {components : List Component} {name : String} {place : π}
    {blocks : List Block} {closing : Placed π} {rest : List (Placed π)}
    (hahead : parser.ahead position = closing :: rest)
    (hkind : closing.token.kind = .rightBrace) :
    parser.reading ⟨components, .between ⟨name, place, blocks⟩⟩ position =
      parser.accepted components place ⟨name, blocks⟩ (position + 1) := by
  rw [accepted]
  split
  case isTrue htaken =>
    have hname := (any_name_eq_true_iff _ _).mp htaken
    rw [reading_of_refuses hahead (.repeated hkind hname)]
    rfl
  case isFalse hnew =>
    have hname := (any_name_eq_false_iff _ _).mp (Bool.of_not_eq_true hnew)
    rw [reading_of_moves hahead (.closing hkind hname)]

/-- The blocks of a component that has a name. -/
theorem follows_blocks {components : List Component} {name : String} {place : π}
    (hquoted : parser.StringsQuoted) (hposition : parser.Holds position)
    (hending : ending = parser.reading ⟨components, .between ⟨name, place, []⟩⟩ position) :
    Follows parser ending position
      (fun blocks next =>
        ending = parser.reading ⟨components, .between ⟨name, place, blocks⟩⟩ next ∧
          Closes parser next)
      (parser.blocks position) := by
  refine follows_untilClosing (fun blocks => ⟨components, .between ⟨name, place, blocks⟩⟩) ?_ []
    hposition hending
  intro blocks position placed rest hholds hstate hahead hopen
  obtain ⟨hpeek, -, -⟩ := peek_of_ahead_cons hholds hahead
  rw [look_bind, hpeek]
  cases hblock : placed.token.kind.block? with
  | none =>
      rw [reading_of_moves hahead (.skipInside hopen hblock)] at hstate
      refine (follows_advance hholds hahead).bind ?_
      rintro value next - hnext ⟨rfl, rfl⟩
      exact .pure hnext ⟨Nat.lt_succ_self _, hstate⟩
  | some kind =>
      -- The reader refuses a second block where the parser finds the first.
      cases htwice : kind != .events && blocks.any fun block => block.kind = kind with
      | true =>
          have hrefuses : Draft.refuses ⟨name, place, blocks⟩ kind = true := htwice
          rw [reading_of_refuses hahead (.twice hblock hrefuses), ← hpeek] at hstate
          simp only [htwice, if_true]
          exact .error (Nat.le_refl _) hholds hstate
      | false =>
          have htakes : Draft.refuses ⟨name, place, blocks⟩ kind = false := htwice
          rw [reading_of_moves hahead (.block hblock htakes)] at hstate
          simp only [htwice]
          refine (follows_advance hholds hahead).bind ?_
          rintro value next - hnext ⟨rfl, rfl⟩
          refine (follows_block kind hquoted hnext hstate).bind ?_
          rintro result last hlast hholds hresult
          exact .pure hholds ⟨hlast, hresult⟩

theorem follows_component {components : List Component}
    (hquoted : parser.StringsQuoted) (hposition : parser.Holds position)
    (hending : ending = parser.reading ⟨components, .naming⟩ position) :
    Follows parser ending position
      (fun component next =>
        ending = parser.accepted components (parser.peek position).place component next)
      (parser.component position) := by
  refine (follows_token hposition hending (fun _ => rfl) fun _ _ hkind => .naming hkind).bind ?_
  rintro name next - hholds ⟨⟨rest, hahead⟩, hkind, rfl⟩
  rw [(peek_of_ahead_cons hposition hahead).1]
  cases hname : isComponentName name.token.lexeme with
  | false =>
      rw [reading_of_refuses hahead (.invalidName hkind hname)] at hending
      exact .error (Nat.le_refl _) hholds hending
  | true =>
      rw [reading_of_moves hahead (.name hkind hname)] at hending
      refine (follows_expect
        (fun _ => ⟨components, .between ⟨name.token.lexeme, name.place, []⟩⟩) hholds hending
        (fun _ => rfl) ?_).bind ?_
      · intro placed _
        by_cases hopening : placed.token.kind = .leftBrace
        · exact .inl ⟨hopening, [], .opening hopening⟩
        · exact .inr ⟨hopening, .opening hopening⟩
      rintro opening next - hholds ⟨-, hopened⟩
      refine (follows_blocks hquoted hholds hopened).bind ?_
      rintro blocks next - hholds ⟨hblocks, hcloses⟩
      refine (follows_token hholds hblocks (fun _ => rfl) ?_).bind ?_
      · exact fun placed hhead hnone => (hnone (hcloses placed hhead)).elim
      rintro closing last - hlast ⟨⟨behind, hclosing⟩, hbrace, rfl⟩
      exact .pure hlast (hblocks.trans (reading_of_closing hclosing hbrace))

theorem follows_program (hquoted : parser.StringsQuoted) (hposition : parser.Holds position) :
    Follows parser (parser.reading .start position) position
      (fun program next => parser.reading .start position = (.ok program, []) ∧
        parser.ahead next = [])
      (parser.program position) := by
  refine (follows_loop (fun components => ⟨components, .outside⟩) ?_ [] hposition rfl).bind ?_
  · intro components position placed rest hholds hstate hahead _
    obtain ⟨hpeek, -, -⟩ := peek_of_ahead_cons hholds hahead
    rw [look_bind, hpeek]
    by_cases hkind : placed.token.kind = .component
    · rw [reading_of_moves hahead (.keyword hkind)] at hstate
      rw [if_pos hkind]
      refine (follows_advance hholds hahead).bind ?_
      rintro value next - hnext ⟨rfl, rfl⟩
      rw [look_bind]
      refine (follows_component hquoted hnext hstate).bind ?_
      rintro component last hlast hholds haccepted
      rw [accepted] at haccepted
      split at haccepted
      case isTrue htaken =>
        rw [if_pos htaken]
        exact .error (Nat.le_refl _) hholds haccepted
      case isFalse hnew =>
        rw [if_neg hnew]
        exact .pure hholds ⟨hlast, haccepted⟩
    · rw [reading_of_moves hahead (.skipOutside hkind)] at hstate
      rw [if_neg hkind]
      refine (follows_advance hholds hahead).bind ?_
      rintro value next - hnext ⟨rfl, rfl⟩
      exact .pure hnext ⟨Nat.lt_succ_self _, hstate⟩
  · rintro components next - hholds ⟨hloop, hstop⟩
    have hend : parser.ahead next = [] := by
      rw [← List.head?_eq_none_iff, Option.eq_none_iff_forall_ne_some]
      intro placed hhead
      cases hstop placed hhead
    exact .pure hholds ⟨hloop.trans (reading_of_ahead_nil hend), hend⟩

/-- No check of the parser fails.  It comes to the result that a reader has for the tokens ahead,
and leaves the tokens that the reader leaves. -/
theorem exists_program_eq (hquoted : parser.StringsQuoted) (hposition : parser.Holds position) :
    ∃ next, parser.program position = some ((parser.reading .start position).1, next) ∧
      position ≤ next ∧ parser.Holds next ∧
        (parser.reading .start position).2 = parser.ahead next := by
  have hfollows := follows_program hquoted hposition
  generalize parser.program position = outcome at hfollows
  cases hfollows with
  | ok hle hholds hpost => exact ⟨_, by rw [hpost.1], hle, hholds, by rw [hpost.1, hpost.2]⟩
  | error hle hholds heq => exact ⟨_, by rw [heq], hle, hholds, by rw [heq]⟩

end Follows

end Parser
end Grammar
end SiteCompiler
