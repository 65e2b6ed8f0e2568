import SiteCompiler.Proofs.Grammar.Program
import SiteCompiler.Proofs.Grammar.Refusals
import SiteCompiler.Proofs.Image.Spelling

/-!
# Beginnings of programs

Wherever a reader stands, a few more tokens bring it to the end of a program, unless
the component that it is reading has the name of one that it has read.  So what is
read without a refusal is the beginning of a program, and a refusal comes at the first
token that no program could have in its place.

* `blockEnding`, `completes_blockEnding` - tokens that complete an open block.
* `ending`, `accepts_ending` - tokens that bring a reading to its end.
* `Opens` - the names of the components that tokens open.
* `nodup_iff_exists_ending` - the tokens that lead somewhere are the beginning of a
  program exactly if the components they open have names of their own.
* `refused_at_first_impossible_token` - where a list of tokens is refused.
-/

namespace SiteCompiler
namespace Grammar

open Lexical Image

/-! ## Endings of a block -/

/-- What is missing of a pair, and then the braces that are missing behind it. -/
def pairsEnding (list : Pairs) (stage : PairStage) : List Token :=
  (match stage with
    | .name => []
    | .colon _ => [colonToken, nameToken "x"]
    | .value _ => [nameToken "x"]) ++
  (match list with
    | .state _ | .style _ => [closingBrace]
    | .element .. => [closingBrace, closingBrace])

/-- Tokens that complete an open block. -/
def blockEnding : OpenBlock → List Token
  | .opening _ => [openingBrace, closingBrace]
  | .pairs list stage => pairsEnding list stage
  | .elements _ | .handlers _ => [closingBrace]
  | .elementOpening .. | .handlerOpening .. => [openingBrace, closingBrace, closingBrace]
  | .handlerArrow .. => [arrowToken, openingBrace, closingBrace, closingBrace]
  | .statements _ _ depth _ => List.replicate (depth + 1) closingBrace ++ [closingBrace]

theorem completes_elements_ending (done : List Element) :
    ∃ result, Completes (.elements done) [closingBrace] result :=
  ⟨_, (completes_elements_closing_iff rfl _ _ _).mpr ⟨rfl, rfl⟩⟩

theorem completes_handlers_ending (done : List Handler) :
    ∃ result, Completes (.handlers done) [closingBrace] result :=
  ⟨_, (completes_handlers_closing_iff rfl _ _ _).mpr ⟨rfl, rfl⟩⟩

theorem completes_name_ending (list : Pairs) :
    ∃ result, Completes (.pairs list .name) (pairsEnding list .name) result := by
  cases list with
  | state fields => exact ⟨_, (completes_pairs_closing_iff rfl _ _ _).mpr ⟨rfl, rfl⟩⟩
  | style properties => exact ⟨_, (completes_pairs_closing_iff rfl _ _ _).mpr ⟨rfl, rfl⟩⟩
  | element before current =>
      obtain ⟨result, h⟩ := completes_elements_ending (before ++ [current])
      exact ⟨result, (completes_pairs_closing_iff rfl _ _ _).mpr h⟩

theorem pairsEnding_addPairs (list : Pairs) (pairs : List (String × Token)) (stage : PairStage) :
    pairsEnding (addPairs list pairs) stage = pairsEnding list stage := by
  cases list <;> rfl

theorem completes_value_ending (list : Pairs) (name : String) :
    ∃ result, Completes (.pairs list (.value name)) (pairsEnding list (.value name)) result := by
  have hquoted : Quoted (nameToken "x") := fun hkind => by cases hkind
  obtain ⟨result, h⟩ := completes_name_ending (addPairs list [(name, nameToken "x")])
  rw [pairsEnding_addPairs] at h
  exact ⟨result, (completes_value_cons hquoted list name _ result).mpr
    ⟨by decide, by decide, h⟩⟩

theorem completes_pairsEnding (list : Pairs) (stage : PairStage) :
    ∃ result, Completes (.pairs list stage) (pairsEnding list stage) result := by
  cases stage with
  | name => exact completes_name_ending list
  | colon name =>
      obtain ⟨result, h⟩ := completes_value_ending list name
      exact ⟨result, (completes_colon_iff list name _ result).mpr ⟨colonToken, _, rfl, rfl, h⟩⟩
  | value name => exact completes_value_ending list name

/-- Below `depth` open braces a body needs as many closing braces, and one more for itself. -/
theorem completes_statements_ending (done : List Handler) (name : String) (depth : Nat)
    (words : List String) :
    ∃ result, Completes (.statements done name depth words)
      (List.replicate (depth + 1) closingBrace ++ [closingBrace]) result := by
  induction depth generalizing words with
  | zero =>
      obtain ⟨result, h⟩ := completes_handlers_ending (done ++ [⟨name, " ".intercalate words⟩])
      exact ⟨result, ((Continues.bodyClosing rfl).completes_iff _ result).mpr h⟩
  | succ depth ih =>
      obtain ⟨result, h⟩ := ih (words ++ [closingBrace.statementWord])
      exact ⟨result, ((Continues.innerClosing rfl).completes_iff _ result).mpr h⟩

theorem completes_enter_ending (kind : BlockKind) :
    ∃ result, Completes kind.enter [closingBrace] result := by
  cases kind with
  | state => exact completes_name_ending (.state [])
  | style => exact completes_name_ending (.style [])
  | interface => exact completes_elements_ending []
  | events => exact completes_handlers_ending []

/-- Every open block can be completed. -/
theorem completes_blockEnding (block : OpenBlock) :
    ∃ result, Completes block (blockEnding block) result := by
  cases block with
  | opening kind =>
      obtain ⟨result, h⟩ := completes_enter_ending kind
      exact ⟨result, (completes_expect_iff (fun _ => rfl) _ result).mpr
        ⟨openingBrace, _, rfl, rfl, h⟩⟩
  | pairs list stage => exact completes_pairsEnding list stage
  | elements done => exact completes_elements_ending done
  | elementOpening done name =>
      obtain ⟨result, h⟩ := completes_name_ending (.element done ⟨name, none, none⟩)
      exact ⟨result, (completes_elementOpening_iff done name _ result).mpr
        ⟨openingBrace, _, rfl, rfl, h⟩⟩
  | handlers done => exact completes_handlers_ending done
  | handlerArrow done name =>
      obtain ⟨result, h⟩ := completes_statements_ending done name 0 []
      exact ⟨result, (completes_handlerArrow_iff done name _ result).mpr
        ⟨arrowToken, _, rfl, rfl, (completes_handlerOpening_iff done name _ result).mpr
          ⟨openingBrace, _, rfl, rfl, h⟩⟩⟩
  | handlerOpening done name =>
      obtain ⟨result, h⟩ := completes_statements_ending done name 0 []
      exact ⟨result, (completes_handlerOpening_iff done name _ result).mpr
        ⟨openingBrace, _, rfl, rfl, h⟩⟩
  | statements done name depth words => exact completes_statements_ending done name depth words

theorem writable_blockEnding (block : OpenBlock) : Writable (blockEnding block) := by
  have hword : IsLexeme (nameToken "x") :=
    isLexeme_identifier ⟨isWord_of_letters (by decide) (by decide), by decide⟩
  have hpairs (list : Pairs) (stage : PairStage) : Writable (pairsEnding list stage) := by
    cases stage <;> cases list <;> simp [pairsEnding, hword]
  cases block with
  | pairs list stage => exact hpairs list stage
  | statements done name depth words =>
      intro token htoken
      have heq : token = closingBrace := by
        simpa [blockEnding, List.mem_replicate] using htoken
      rw [heq]
      exact isLexeme_closingBrace
  | _ => simp [blockEnding]

/-! ## New names -/

theorem exists_length_lt (taken : List String) : ∃ bound, ∀ name ∈ taken, name.length < bound := by
  induction taken with
  | nil => exact ⟨0, by simp⟩
  | cons first taken ih =>
      obtain ⟨bound, hbound⟩ := ih
      refine ⟨max bound (first.length + 1), ?_⟩
      intro name hname
      rcases List.mem_cons.mp hname with rfl | hname
      · omega
      · have hlt := hbound name hname
        omega

/-- However many names are taken, a class can have another: one that is longer than all of them. -/
theorem exists_isClassName_notMem (taken : List String) :
    ∃ name, IsClassName name ∧ name ∉ taken := by
  obtain ⟨bound, hbound⟩ := exists_length_lt
    (taken ++ reservedWords ++ restrictedNames ++ TokenKind.reserved.map Prod.fst)
  let name := String.ofList ('A' :: List.replicate bound 'A')
  have hlength : name.length = bound + 1 := by
    rw [String.length_ofList, List.length_cons, List.length_replicate]
  have hnew : name ∉
      taken ++ reservedWords ++ restrictedNames ++ TokenKind.reserved.map Prod.fst := by
    intro hmem
    have hlt := hbound name hmem
    omega
  simp only [List.mem_append, not_or] at hnew
  obtain ⟨⟨⟨htaken, hreserved⟩, hrestricted⟩, hkeywords⟩ := hnew
  refine ⟨name, ⟨⟨'A', List.replicate bound 'A', String.toList_ofList, by decide, ?_⟩, ?_,
    hreserved, hrestricted⟩, htaken⟩
  · intro c hc
    rw [List.eq_of_mem_replicate hc]
    decide
  · refine List.lookup_eq_none_iff.mpr ?_
    intro entry hentry
    simpa using fun heq : name = entry.1 => hkeywords (heq ▸ List.mem_map_of_mem hentry)

/-! ## Endings of a program -/

section Readings

variable {π ρ : Type}

/-- The names of the components that have been read, and behind them the name of the component that
is being read, if it has one. -/
def openedNames (progress : Progress π) : List String :=
  progress.components.map Component.name ++ ((draft? progress.mode).map Draft.name).toList

/-- Tokens that bring a reading to its end.  Behind the keyword of a component they begin with the
name that is given. -/
def ending (name : String) (progress : Progress π) : List Token :=
  match progress.mode with
  | .outside => []
  | .naming => [nameToken name, openingBrace, closingBrace]
  | .opening _ => [openingBrace, closingBrace]
  | .between _ => [closingBrace]
  | .within _ block => blockEnding block ++ [closingBrace]

theorem openedNames_map (f : π → ρ) (progress : Progress π) :
    openedNames (progress.map f) = openedNames progress := by
  obtain ⟨components, mode⟩ := progress
  cases mode <;> rfl

theorem ending_map (f : π → ρ) (name : String) (progress : Progress π) :
    ending name (progress.map f) = ending name progress := by
  obtain ⟨components, mode⟩ := progress
  cases mode <;> rfl

theorem writable_ending {name : String} (hclass : IsClassName name) (progress : Progress π) :
    Writable (ending name progress) := by
  have hname : IsLexeme (nameToken name) := isLexeme_identifier ((isClassName_iff name).mp hclass).1
  obtain ⟨components, mode⟩ := progress
  cases mode with
  | within draft block => simp [ending, writable_blockEnding]
  | _ => simp [ending, hname]

theorem name_notMem_of_nodup {components : List Component} {mode : Mode π} {draft : Draft π}
    (h : (openedNames ⟨components, mode⟩).Nodup) (hdraft : draft? mode = some draft) :
    draft.name ∉ components.map Component.name := by
  simp only [openedNames, hdraft, Option.map_some, Option.toList_some, List.nodup_append] at h
  intro hmem
  exact h.2.2 _ hmem draft.name (by simp) rfl

theorem accepts_closingBrace {components : List Component} {draft : Draft Unit}
    (hname : draft.name ∉ components.map Component.name) :
    ∃ program, Accepts ⟨components, .between draft⟩ [closingBrace] program :=
  ⟨_, (accepts_between_closing rfl).mpr ⟨hname, (accepts_nil_iff _ _).mpr ⟨rfl, rfl⟩⟩⟩

/-- A reading can be brought to its end if the components that it has opened have names of their
own. -/
theorem accepts_ending {progress : Progress Unit} {name : String}
    (hopened : (openedNames progress).Nodup) (hclass : IsClassName name)
    (hname : name ∉ progress.components.map Component.name) :
    ∃ program, Accepts progress (ending name progress) program := by
  obtain ⟨components, mode⟩ := progress
  cases mode with
  | outside => exact ⟨_, (accepts_nil_iff _ _).mpr ⟨rfl, rfl⟩⟩
  | naming =>
      have hclosed : ∃ program,
          Accepts ⟨components, .between ⟨name, (), []⟩⟩ [closingBrace] program :=
        accepts_closingBrace hname
      obtain ⟨program, h⟩ := hclosed
      exact ⟨program, (accepts_naming_iff _).mpr ⟨nameToken name, _, rfl, rfl,
        ((isClassName_iff name).mp hclass).2,
        (accepts_opening_iff _ _).mpr ⟨openingBrace, _, rfl, rfl, h⟩⟩⟩
  | opening draft =>
      obtain ⟨program, h⟩ := accepts_closingBrace (name_notMem_of_nodup hopened rfl)
      exact ⟨program, (accepts_opening_iff draft _).mpr ⟨openingBrace, _, rfl, rfl, h⟩⟩
  | between draft => exact accepts_closingBrace (name_notMem_of_nodup hopened rfl)
  | within draft block =>
      -- The block adds to the draft, and leaves its name.
      obtain ⟨result, hblock⟩ := completes_blockEnding block
      have hnew : draft.name ∉ components.map Component.name := name_notMem_of_nodup hopened rfl
      have hclosed : ∃ program,
          Accepts ⟨components, .between (draft.add result)⟩ [closingBrace] program :=
        accepts_closingBrace hnew
      obtain ⟨program, h⟩ := hclosed
      exact ⟨program, (accepts_within_iff components draft block _ program).mpr
        ⟨_, _, result, rfl, hblock, h⟩⟩

/-! ## Names that are opened -/

theorem Moves.nodup_names {progress next : Progress π} {placed : Placed π}
    {records : List Record} (h : Moves progress placed next records)
    (hnodup : (progress.components.map Component.name).Nodup) :
    (next.components.map Component.name).Nodup := by
  cases h with
  | @closing components draft _ _ hname => simpa [List.nodup_append, hnodup] using hname
  | _ => exact hnodup

/-- No two of the components that have been read share a name. -/
theorem Leads.nodup_names {tokens : List (Placed π)} {progress : Progress π}
    {records : List Record} (h : Leads .start tokens progress records) :
    (progress.components.map Component.name).Nodup := by
  induction h with
  | nil => exact .nil
  | snoc _ hmove ih => exact hmove.nodup_names ih

/-- A component whose name is taken is never closed, so it is read on and on. -/
theorem Moves.name_of_taken {progress next : Progress π} {placed : Placed π}
    {records : List Record} (h : Moves progress placed next records) {draft : Draft π}
    (hdraft : draft? progress.mode = some draft)
    (htaken : draft.name ∈ progress.components.map Component.name) :
    ∃ later, draft? next.mode = some later ∧
      later.name ∈ next.components.map Component.name := by
  cases h with
  | skipOutside | keyword | name => cases hdraft
  | closing _ hnew =>
      cases hdraft
      exact (hnew htaken).elim
  | opening | skipInside | block | more | done =>
      cases hdraft
      exact ⟨_, rfl, htaken⟩

theorem run_ne_ok_of_taken {finish : π} {tokens : List (Placed π)} {progress : Progress π}
    {draft : Draft π} (hdraft : draft? progress.mode = some draft)
    (htaken : draft.name ∈ progress.components.map Component.name) (program : Program) :
    (progress.run finish tokens).result ≠ .ok program := by
  induction tokens generalizing progress draft with
  | nil =>
      intro h
      rw [(conclude_eq_ok_iff _ _ _).mp h] at hdraft
      cases hdraft
  | cons placed tokens ih =>
      match hstep : progress.step placed with
      | .error refusal => simp [Progress.run, hstep]
      | .ok (next, records) =>
        obtain ⟨later, hlater, hmem⟩ :=
          ((step_eq_ok_iff _ _ _ _).mp hstep).name_of_taken hdraft htaken
        simp only [Progress.run, hstep]
        exact ih hlater hmem

/-- Tokens that lead somewhere are the beginning of a program exactly if the components that they
open have names of their own. -/
theorem nodup_iff_exists_ending {tokens : List (Placed π)} {progress : Progress π}
    {records : List Record} (h : Leads .start tokens progress records) (finish : π) :
    (openedNames progress).Nodup ↔
      ∃ more program, Writable (more.map Placed.token) ∧
        (Progress.start.run finish (tokens ++ more)).result = .ok program := by
  constructor
  · intro hopened
    obtain ⟨name, hclass, hname⟩ :=
      exists_isClassName_notMem (progress.components.map Component.name)
    have hbare : (openedNames (progress.map fun _ => ())).Nodup := by
      rwa [openedNames_map]
    obtain ⟨program, haccepts⟩ := accepts_ending hbare hclass hname
    let more := (ending name progress).map fun token => (⟨token, finish⟩ : Placed π)
    have hmore : more.map Placed.token = ending name progress := by
      simp [more, Function.comp_def]
    refine ⟨more, program, hmore ▸ writable_ending hclass progress, ?_⟩
    rw [ending_map, ← hmore] at haccepts
    rw [run_append h]
    exact (run_eq_ok_iff_accepts _ _ _ _).mpr haccepts
  · rintro ⟨more, program, -, hrun⟩
    rw [run_append h] at hrun
    have hnames := h.nodup_names
    cases hdraft : draft? progress.mode with
    | none => simpa [openedNames, hdraft] using hnames
    | some draft =>
        have hnew : draft.name ∉ progress.components.map Component.name :=
          fun htaken => run_ne_ok_of_taken hdraft htaken program hrun
        simpa [openedNames, hdraft, List.nodup_append, hnames] using hnew

/-! ## Refused lists of tokens -/

/-- These are the names of the components that the tokens open, in order: of those that they close,
and of the one that they leave open behind its name. -/
def Opens (tokens : List (Placed π)) (names : List String) : Prop :=
  ∃ progress records, Leads .start tokens progress records ∧ openedNames progress = names

/-- The same for lists of tokens, which go on to their first end of input. -/
theorem nodup_iff_exists_parse {tokens : List (Placed π)} {progress : Progress π}
    {records : List Record} (h : Leads .start tokens progress records)
    (htokens : ∀ placed ∈ tokens, placed.token.kind ≠ .endOfInput) (nowhere : π) :
    (openedNames progress).Nodup ↔
      ∃ more program, Writable (more.map Placed.token) ∧
        (TokenStream.ofTokens nowhere (tokens ++ more)).parse.result = .ok program := by
  rw [nodup_iff_exists_ending h nowhere]
  have hmore {more : List (Placed π)} (hwritable : Writable (more.map Placed.token)) :
      TokenStream.ofTokens nowhere (tokens ++ more) = ⟨tokens ++ more, nowhere⟩ := by
    have hkinds : ∀ placed ∈ tokens ++ more, placed.token.kind ≠ .endOfInput := by
      intro placed hplaced
      rcases List.mem_append.mp hplaced with hplaced | hplaced
      · exact htokens placed hplaced
      · exact hwritable.kind_ne_endOfInput _ (List.mem_map_of_mem hplaced)
    have hnone : TokenStream.ofTokens nowhere ([] : List (Placed π)) = ⟨[], nowhere⟩ := rfl
    have hall := ofTokens_append hkinds nowhere []
    simpa only [hnone, List.append_nil] using hall
  constructor
  · rintro ⟨more, program, hwritable, hrun⟩
    exact ⟨more, program, hwritable, hmore hwritable ▸ hrun⟩
  · rintro ⟨more, program, hwritable, hparse⟩
    rw [hmore hwritable] at hparse
    exact ⟨more, program, hwritable, hparse⟩

/-- A list of tokens that ends in its only end of input, and that is refused for another cause than
the name of an earlier component, is refused at the first token that no program could have there.
Whatever stands behind that token, the list is refused for the same cause and at the same place.
And without it, what stands in front is the beginning of a program, exactly if the components that
are opened there have names of their own. -/
theorem refused_at_first_impossible_token (nowhere : π) {body : List (Placed π)} {last : Placed π}
    (hbody : ∀ placed ∈ body, placed.token.kind ≠ .endOfInput)
    (hlast : last.token.kind = .endOfInput) {error : ParseError π}
    (h : (TokenStream.ofTokens nowhere (body ++ [last])).parse.result = .error error)
    (hfault : ∀ name, error.fault ≠ .duplicateComponent name) :
    ∃ front blamed back names, body ++ [last] = front ++ blamed :: back ∧
      blamed.place = error.place ∧
      (∀ elsewhere more, (TokenStream.ofTokens elsewhere (front ++ blamed :: more)).parse.result =
        .error error) ∧
      Opens front names ∧
      (names.Nodup ↔ ∃ more program, Writable (more.map Placed.token) ∧
        (TokenStream.ofTokens nowhere (front ++ more)).parse.result = .ok program) := by
  obtain ⟨fault, place⟩ := error
  -- The end of input is a token of the list, but none of the reading.
  have hstream := ofTokens_append hbody nowhere [last]
  rw [ofTokens_endOfInput hlast, List.append_nil] at hstream
  rw [hstream] at h
  cases (run_eq_error_iff_blames body last.place fault place).mp h with
  | @token front back blamed progress records _ _ heq hleads hrefuses _ =>
      have hcut (rest : List (Placed π)) :
          front ++ blamed :: rest = (front ++ [blamed]) ++ rest := by
        simp
      rw [heq, hcut] at hbody
      have hread : ∀ placed ∈ front ++ [blamed], placed.token.kind ≠ .endOfInput :=
        fun placed hplaced => hbody placed (List.mem_append_left back hplaced)
      have hfront : ∀ placed ∈ front, placed.token.kind ≠ .endOfInput :=
        fun placed hplaced => hread placed (List.mem_append_left [blamed] hplaced)
      refine ⟨front, blamed, back ++ [last], _, by simp [heq], rfl, ?_,
        ⟨progress, records, hleads, rfl⟩, nodup_iff_exists_parse hleads hfront nowhere⟩
      intro elsewhere more
      let rest := TokenStream.ofTokens elsewhere more
      have hblames : Blames (front ++ [blamed] ++ rest.tokens) rest.finish fault
          blamed.place :=
        .token (hcut rest.tokens).symm hleads hrefuses hfault
      rw [hcut, ofTokens_append hread]
      exact (run_eq_error_iff_blames _ _ _ _).mpr hblames
  | @finish progress records expectation hleads hwanted =>
      refine ⟨body, last, [], _, rfl, rfl, ?_, ⟨progress, records, hleads, rfl⟩,
        nodup_iff_exists_parse hleads hbody nowhere⟩
      intro elsewhere more
      rw [ofTokens_append hbody, ofTokens_endOfInput hlast, List.append_nil]
      exact h
  | name => exact (hfault _ rfl).elim

end Readings

/-- The tokens of a state block whose variable has no value. -/
def valuelessTokens : List (Placed Nat) :=
  [⟨componentToken, 0⟩, ⟨nameToken "A", 1⟩, ⟨openingBrace, 2⟩, ⟨blockToken .state, 3⟩,
    ⟨openingBrace, 4⟩, ⟨nameToken "x", 5⟩, ⟨colonToken, 6⟩, ⟨closingBrace, 7⟩]

/-- The brace is blamed that stands in the place of the value. -/
def valuelessError : ParseError Nat :=
  ⟨.expected (.pairValue "x") (some closingBrace), 7⟩

/-- A value could stand in the place of the brace, and a program goes on from there. -/
theorem refused_at_first_impossible_token_without_value :
    (TokenStream.ofTokens 0 (valuelessTokens ++ [⟨.finish, 8⟩])).parse.result =
        .error valuelessError ∧
      ∃ front blamed back names,
        valuelessTokens ++ [⟨.finish, 8⟩] = front ++ blamed :: back ∧
        blamed.place = valuelessError.place ∧
        (∀ elsewhere more,
          (TokenStream.ofTokens elsewhere (front ++ blamed :: more)).parse.result =
            .error valuelessError) ∧
        Opens front names ∧
        (names.Nodup ↔ ∃ more program, Writable (more.map Placed.token) ∧
          (TokenStream.ofTokens 0 (front ++ more)).parse.result = .ok program) := by
  have hrefused : (TokenStream.ofTokens 0 (valuelessTokens ++ [⟨.finish, 8⟩])).parse.result =
      .error valuelessError := by
    decide +kernel
  have hbody : ∀ placed ∈ valuelessTokens, placed.token.kind ≠ .endOfInput := by decide
  have hfault : ∀ name, valuelessError.fault ≠ .duplicateComponent name := by
    simp [valuelessError]
  exact ⟨hrefused, refused_at_first_impossible_token 0 hbody rfl hrefused hfault⟩

end Grammar
end SiteCompiler
