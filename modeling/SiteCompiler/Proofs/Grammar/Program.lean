import SiteCompiler.Proofs.Grammar.Block
import SiteCompiler.Proofs.Grammar.Places

/-!
# Programs and their grammar

A stream of tokens is read as a program exactly if the grammar derives it, and
the grammar derives no other program from it.

* `Accepts` - the tokens that lead a reader to the end of a program.
* `accepts_within_iff`, `accepts_blocks`, `exists_blocks` - the body of a
  component.
* `accepts_components`, `exists_components` - a sequence of components.
* `accepts_start_iff` - a whole program.
* `parse_eq_ok_iff_derives` - what is read from a stream, at any places.
-/

namespace SiteCompiler
namespace Grammar

/-- A token that stands nowhere. -/
def bare (token : Token) : Placed Unit :=
  ⟨token, ()⟩

/-- Reading the tokens from here ends in the program. -/
def Accepts (progress : Progress Unit) (tokens : List Token) (program : Program) : Prop :=
  (progress.run () (tokens.map bare)).result = .ok program

theorem accepts_nil_iff (progress : Progress Unit) (program : Program) :
    Accepts progress [] program ↔
      progress.mode = .outside ∧ program = ⟨progress.components⟩ := by
  obtain ⟨components, mode⟩ := progress
  cases mode <;>
    simp [Accepts, Progress.run, Progress.conclude, Progress.wanted?, eq_comm]

theorem accepts_cons_of_ok {progress next : Progress Unit} {token : Token}
    {records : List Record} (h : progress.step (bare token) = .ok (next, records))
    (rest : List Token) (program : Program) :
    Accepts progress (token :: rest) program ↔ Accepts next rest program := by
  simp only [Accepts, List.map_cons, Progress.run, h]

/-! ## Blocks of a component -/

section Within

variable {components : List Component} {draft : Draft Unit} {block : OpenBlock} {token : Token}
  {rest : List Token} {program : Program}

theorem accepts_within_of_more {next : OpenBlock} {records : List Record}
    (h : block.step token = .ok (.more next records)) :
    Accepts ⟨components, .within draft block⟩ (token :: rest) program ↔
      Accepts ⟨components, .within draft next⟩ rest program := by
  have hstep : Progress.step ⟨components, .within draft block⟩ (bare token) =
      .ok (⟨components, .within draft next⟩, records) := by
    simp [Progress.step, Progress.moveTo, bare, h]
  exact accepts_cons_of_ok hstep rest program

theorem accepts_within_of_done {result : Option Block} {records : List Record}
    (h : block.step token = .ok (.done result records)) :
    Accepts ⟨components, .within draft block⟩ (token :: rest) program ↔
      Accepts ⟨components, .between (draft.add result)⟩ rest program := by
  have hstep : Progress.step ⟨components, .within draft block⟩ (bare token) =
      .ok (⟨components, .between (draft.add result)⟩, records) := by
    simp [Progress.step, Progress.moveTo, bare, h]
  exact accepts_cons_of_ok hstep rest program

theorem not_accepts_within_of_error {fault : ParseFault} (h : block.step token = .error fault) :
    ¬ Accepts ⟨components, .within draft block⟩ (token :: rest) program := by
  simp [Accepts, Progress.run, Progress.step, Placed.refuse, bare, h]

end Within

/-- A block of a component is read to its end, and the component goes on behind it. -/
theorem accepts_within_iff (components : List Component) (draft : Draft Unit)
    (block : OpenBlock) (tokens : List Token) (program : Program) :
    Accepts ⟨components, .within draft block⟩ tokens program ↔
      ∃ inner rest result, tokens = inner ++ rest ∧ Completes block inner result ∧
        Accepts ⟨components, .between (draft.add result)⟩ rest program := by
  -- The block changes with every token; the draft waits for the block to be done.
  induction tokens generalizing block with
  | nil =>
      rw [accepts_nil_iff]
      constructor
      · rintro ⟨hmode, -⟩
        cases hmode
      · rintro ⟨inner, rest, result, heq, hinner, -⟩
        obtain ⟨rfl, rfl⟩ := List.append_eq_nil_iff.mp heq.symm
        exact hinner.elim
  | cons token tokens ih =>
      constructor
      · intro h
        match hstep : block.step token with
        | .error fault => exact (not_accepts_within_of_error hstep h).elim
        | .ok (.more next records) =>
          rw [accepts_within_of_more hstep, ih] at h
          obtain ⟨inner, rest, result, rfl, hinner, hrest⟩ := h
          exact ⟨token :: inner, rest, result, rfl,
            (completes_cons_of_more hstep inner result).mpr hinner, hrest⟩
        | .ok (.done result records) =>
          rw [accepts_within_of_done hstep] at h
          exact ⟨[token], tokens, result, rfl,
            (completes_cons_of_done hstep [] result).mpr ⟨rfl, rfl⟩, h⟩
      · rintro ⟨inner, rest, result, heq, hinner, hrest⟩
        cases inner with
        | nil => exact hinner.elim
        | cons first inner =>
            obtain ⟨rfl, rfl⟩ := List.cons.inj heq
            match hstep : block.step token with
            | .error fault => simp [Completes, hstep] at hinner
            | .ok (.more next records) =>
              rw [completes_cons_of_more hstep] at hinner
              rw [accepts_within_of_more hstep, ih]
              exact ⟨inner, rest, result, rfl, hinner, hrest⟩
            | .ok (.done found records) =>
              obtain ⟨rfl, rfl⟩ := (completes_cons_of_done hstep inner result).mp hinner
              rw [accepts_within_of_done hstep]
              exact hrest

/-! ## The body of a component -/

theorem keywordKind_of_block? {kind : TokenKind} {block : BlockKind}
    (h : kind.block? = some block) : kind = keywordKind block := by
  cases kind <;> simp [TokenKind.block?] at h <;> subst h <;> rfl

theorem block?_keywordKind (block : BlockKind) : (keywordKind block).block? = some block := by
  cases block <;> rfl

theorem block?_eq_none_iff (kind : TokenKind) :
    kind.block? = none ↔ ∀ block, kind ≠ keywordKind block := by
  constructor
  · rintro h block rfl
    rw [block?_keywordKind] at h
    cases h
  · intro h
    cases hblock : kind.block? with
    | none => rfl
    | some block => exact (h block (keywordKind_of_block? hblock)).elim

theorem keywordKind_ne_rightBrace (block : BlockKind) : keywordKind block ≠ .rightBrace := by
  cases block <;> decide

/-- A block keeps the kind of its keyword; only handlers may leave nothing behind. -/
theorem DerivesBlock.kind_eq {kind : BlockKind} {inner : List Token} {result : Option Block}
    (h : DerivesBlock kind inner result) :
    (∀ block ∈ result, block.kind = kind) ∧ (kind ≠ .events → result.isSome) := by
  cases h with
  | @events inner handlers _ =>
      refine ⟨?_, fun hne => (hne rfl).elim⟩
      intro block hblock
      obtain ⟨handler, -, rfl⟩ := Option.map_eq_some_iff.mp hblock
      rfl
  | _ => exact ⟨by rintro block ⟨⟩; rfl, fun _ => rfl⟩

theorem refuses_eq_false_iff (draft : Draft Unit) (kind : BlockKind) :
    draft.refuses kind = false ↔
      ∀ block ∈ draft.blocks, block.kind = kind → block.kind = .events := by
  by_cases hkind : kind = .events
  · subst hkind
    simp [Draft.refuses]
  · have hbne : (kind != .events) = true := bne_iff_ne.mpr hkind
    simp only [Draft.refuses, hbne, Bool.true_and, List.any_eq_false, decide_eq_true_eq]
    constructor
    · intro h block hblock heq
      exact (h block hblock heq).elim
    · intro h block hblock heq
      exact hkind (heq ▸ h block hblock heq)

section Between

variable {components : List Component} {draft : Draft Unit} {token : Token}
  {rest : List Token} {program : Program}

theorem accepts_between_noise (hclosing : token.kind ≠ .rightBrace)
    (hkeyword : ∀ kind, token.kind ≠ keywordKind kind) :
    Accepts ⟨components, .between draft⟩ (token :: rest) program ↔
      Accepts ⟨components, .between draft⟩ rest program := by
  have hstep : Progress.step ⟨components, .between draft⟩ (bare token) =
      .ok (⟨components, .between draft⟩, [.skippedInside token draft.name]) := by
    simp [Progress.step, bare, hclosing, (block?_eq_none_iff _).mpr hkeyword]
  exact accepts_cons_of_ok hstep rest program

/-- A keyword opens its block if the component may still have one. -/
theorem accepts_between_keyword {kind : BlockKind} (hkeyword : token.kind = keywordKind kind) :
    Accepts ⟨components, .between draft⟩ (token :: rest) program ↔
      draft.refuses kind = false ∧
        Accepts ⟨components, .within draft (.opening kind)⟩ rest program := by
  have hclosing : token.kind ≠ .rightBrace := hkeyword ▸ keywordKind_ne_rightBrace kind
  have hblock : token.kind.block? = some kind := hkeyword ▸ block?_keywordKind kind
  cases hrefuses : draft.refuses kind with
  | false =>
      have hstep : Progress.step ⟨components, .between draft⟩ (bare token) =
          .ok (⟨components, .within draft (.opening kind)⟩, []) := by
        simp [Progress.step, Progress.moveTo, bare, hclosing, hblock, hrefuses]
      rw [accepts_cons_of_ok hstep]
      exact (and_iff_right rfl).symm
  | true =>
      simp [Accepts, Progress.run, Progress.step, Placed.refuse, bare, hclosing, hblock, hrefuses]

/-- The closing brace of a component accepts it if its name is new. -/
theorem accepts_between_closing (hclosing : token.kind = .rightBrace) :
    Accepts ⟨components, .between draft⟩ (token :: rest) program ↔
      draft.name ∉ components.map Component.name ∧
        Accepts ⟨components ++ [⟨draft.name, draft.blocks⟩], .outside⟩ rest program := by
  by_cases hname : draft.name ∈ components.map Component.name
  · have hany : components.any (fun component => component.name = draft.name) = true := by
      simpa using hname
    simp [Accepts, Progress.run, Progress.step, Progress.accept, bare, hclosing, hany, hname]
  · have hany : components.any (fun component => component.name = draft.name) = false := by
      simpa using hname
    have hstep : Progress.step ⟨components, .between draft⟩ (bare token) =
        .ok (⟨components ++ [⟨draft.name, draft.blocks⟩], .outside⟩,
          [.parsedComponent draft.name draft.blocks.length]) := by
      simp [Progress.step, Progress.accept, bare, hclosing, hany]
    rw [accepts_cons_of_ok hstep]
    exact (and_iff_right hname).symm

end Between

/-- Blocks of the grammar are read behind those that have been read. -/
theorem accepts_blocks {inner : List Token} {blocks : List Block}
    (h : DerivesBlocks inner blocks) (hquoted : AllQuoted inner)
    {components : List Component} {name : String} {before : List Block} {rest : List Token}
    {program : Program} (honce : OncePerKind (before ++ blocks))
    (hrest : Accepts ⟨components, .between ⟨name, (), before ++ blocks⟩⟩ rest program) :
    Accepts ⟨components, .between ⟨name, (), before⟩⟩ (inner ++ rest) program := by
  induction h generalizing before with
  | nil => simpa using hrest
  | @noise token inner blocks hclosing hkeyword _ ih =>
      rw [List.cons_append, accepts_between_noise hclosing hkeyword]
      exact ih ((allQuoted_cons _ _).mp hquoted).2 honce hrest
  | @block keyword opening closing inner more kind result blocks hkeyword hopening hblock
      hclosing _ ih =>
      simp only [allQuoted_cons, allQuoted_append] at hquoted
      obtain ⟨-, hopeningQuoted, hinnerQuoted, hclosingQuoted, hmore⟩ := hquoted
      obtain ⟨hkind, hsome⟩ := hblock.kind_eq
      have hrefuses : (⟨name, (), before⟩ : Draft Unit).refuses kind = false := by
        rw [refuses_eq_false_iff]
        intro block hmem heq
        by_cases hevents : kind = .events
        · rw [heq, hevents]
        · -- The block that is opened here stands behind the one of the same kind.
          obtain ⟨found, rfl⟩ := Option.isSome_iff_exists.mp (hsome hevents)
          refine (List.pairwise_append.mp honce).2.2 block hmem found (by simp) ?_
          rw [heq, hkind found rfl]
      have htail : Accepts ⟨components, .between ⟨name, (), before ++ result.toList⟩⟩
          (more ++ rest) program := by
        refine ih hmore ?_ ?_
        · simpa using honce
        · simpa using hrest
      have hsegment : AllQuoted (opening :: (inner ++ [closing])) := by
        simp [hopeningQuoted, hinnerQuoted, hclosingQuoted]
      have hinner : Completes (.opening kind) (opening :: (inner ++ [closing])) result :=
        (completes_opening_iff hsegment).mpr
          ⟨opening, inner, closing, rfl, hopening, hblock, hclosing⟩
      rw [List.cons_append, accepts_between_keyword hkeyword]
      refine ⟨hrefuses, (accepts_within_iff _ _ _ _ _).mpr
        ⟨opening :: (inner ++ [closing]), more ++ rest, result, by simp, hinner, htail⟩⟩

/-- Whatever is read from the inside of a component begins with blocks of the grammar and the
closing brace of the component. -/
theorem exists_blocks {components : List Component} {name : String} {before : List Block}
    {tokens : List Token} {program : Program}
    (h : Accepts ⟨components, .between ⟨name, (), before⟩⟩ tokens program)
    (hquoted : AllQuoted tokens) (honce : OncePerKind before) :
    ∃ inner blocks closing rest, tokens = inner ++ closing :: rest ∧
      DerivesBlocks inner blocks ∧ closing.kind = .rightBrace ∧
      OncePerKind (before ++ blocks) ∧ name ∉ components.map Component.name ∧
      Accepts ⟨components ++ [⟨name, before ++ blocks⟩], .outside⟩ rest program := by
  cases tokens with
  | nil => cases ((accepts_nil_iff _ _).mp h).1
  | cons token tokens =>
      by_cases hclosing : token.kind = .rightBrace
      · obtain ⟨hname, h⟩ := (accepts_between_closing hclosing).mp h
        exact ⟨[], [], token, tokens, rfl, .nil, hclosing, by simpa using honce, hname,
          by simpa using h⟩
      cases hopens : token.kind.block? with
      | none =>
          have hkeyword := (block?_eq_none_iff token.kind).mp hopens
          rw [accepts_between_noise hclosing hkeyword] at h
          obtain ⟨inner, blocks, closing, rest, rfl, hblocks, hlast, hall, hname, h⟩ :=
            exists_blocks h ((allQuoted_cons _ _).mp hquoted).2 honce
          exact ⟨token :: inner, blocks, closing, rest, rfl, .noise hclosing hkeyword hblocks,
            hlast, hall, hname, h⟩
      | some kind =>
          have hkeyword := keywordKind_of_block? hopens
          obtain ⟨hrefuses, hwithin⟩ := (accepts_between_keyword hkeyword).mp h
          obtain ⟨segment, more, result, rfl, hsegment, hmore⟩ :=
            (accepts_within_iff _ _ _ _ _).mp hwithin
          simp only [allQuoted_cons, allQuoted_append] at hquoted
          obtain ⟨-, hsegmentQuoted, hmoreQuoted⟩ := hquoted
          rw [completes_opening_iff hsegmentQuoted] at hsegment
          obtain ⟨opening, inner, closing, rfl, hopening, hblock, hend⟩ := hsegment
          obtain ⟨hkind, -⟩ := hblock.kind_eq
          have hadded : OncePerKind (before ++ result.toList) := by
            refine List.pairwise_append.mpr ⟨honce, ?_, ?_⟩
            · cases result <;> simp
            · intro block hmem found hfound heq
              have hresult : found ∈ result := by simpa using hfound
              rw [hkind found hresult] at heq
              exact (refuses_eq_false_iff _ kind).mp hrefuses block hmem heq
          have hbody : Accepts ⟨components, .between ⟨name, (), before ++ result.toList⟩⟩ more
              program := hmore
          -- The recursion goes on behind the whole block, not behind its keyword.
          obtain ⟨others, blocks, last, rest, rfl, hblocks, hlast, hall, hname, hrest⟩ :=
            exists_blocks hbody hmoreQuoted hadded
          refine ⟨token :: opening :: (inner ++ closing :: others), result.toList ++ blocks, last,
            rest, by simp, .block hkeyword hopening hblock hend hblocks, hlast, ?_, hname, ?_⟩
          · simpa using hall
          · simpa using hrest
termination_by tokens.length

/-! ## Components -/

theorem isComponentName_iff (name : String) : isComponentName name = true ↔ CanName name := by
  simp [isComponentName, CanName, and_assoc]

section Outside

variable {components : List Component} {program : Program}

theorem accepts_outside_noise {token : Token} (hkind : token.kind ≠ .component)
    (rest : List Token) :
    Accepts ⟨components, .outside⟩ (token :: rest) program ↔
      Accepts ⟨components, .outside⟩ rest program := by
  have hstep : Progress.step ⟨components, .outside⟩ (bare token) =
      .ok (⟨components, .outside⟩, [.skippedOutside token]) := by
    simp [Progress.step, bare, hkind]
  exact accepts_cons_of_ok hstep rest program

theorem accepts_outside_keyword {token : Token} (hkind : token.kind = .component)
    (rest : List Token) :
    Accepts ⟨components, .outside⟩ (token :: rest) program ↔
      Accepts ⟨components, .naming⟩ rest program := by
  have hstep : Progress.step ⟨components, .outside⟩ (bare token) =
      .ok (⟨components, .naming⟩, []) := by
    simp [Progress.step, Progress.moveTo, bare, hkind]
  exact accepts_cons_of_ok hstep rest program

/-- Behind its keyword a component has a name that it can bear. -/
theorem accepts_naming_iff (tokens : List Token) :
    Accepts ⟨components, .naming⟩ tokens program ↔
      ∃ name rest, tokens = name :: rest ∧ name.kind = .identifier ∧ CanName name.lexeme ∧
        Accepts ⟨components, .opening ⟨name.lexeme, (), []⟩⟩ rest program := by
  have hstep {name : Token} (hkind : name.kind = .identifier) (hname : CanName name.lexeme) :
      Progress.step ⟨components, .naming⟩ (bare name) =
        .ok (⟨components, .opening ⟨name.lexeme, (), []⟩⟩, []) := by
    simp [Progress.step, Progress.moveTo, bare, hkind, (isComponentName_iff _).mpr hname]
  cases tokens with
  | nil => simp [accepts_nil_iff]
  | cons name rest =>
      constructor
      · intro h
        by_cases hkind : name.kind = .identifier
        · by_cases hname : isComponentName name.lexeme = true
          · have hcan := (isComponentName_iff _).mp hname
            exact ⟨name, rest, rfl, hkind, hcan,
              (accepts_cons_of_ok (hstep hkind hcan) rest program).mp h⟩
          · simp [Accepts, Progress.run, Progress.step, bare, hkind, hname] at h
        · simp [Accepts, Progress.run, Progress.step, Placed.refuse, bare, hkind] at h
      · rintro ⟨_, _, heq, hkind, hname, h⟩
        cases heq
        exact (accepts_cons_of_ok (hstep hkind hname) rest program).mpr h

theorem accepts_opening_iff (draft : Draft Unit) (tokens : List Token) :
    Accepts ⟨components, .opening draft⟩ tokens program ↔
      ∃ opening rest, tokens = opening :: rest ∧ opening.kind = .leftBrace ∧
        Accepts ⟨components, .between draft⟩ rest program := by
  have hstep {opening : Token} (hkind : opening.kind = .leftBrace) :
      Progress.step ⟨components, .opening draft⟩ (bare opening) =
        .ok (⟨components, .between draft⟩, []) := by
    simp [Progress.step, Progress.moveTo, bare, hkind]
  cases tokens with
  | nil => simp [accepts_nil_iff]
  | cons opening rest =>
      constructor
      · intro h
        by_cases hkind : opening.kind = .leftBrace
        · exact ⟨opening, rest, rfl, hkind,
            (accepts_cons_of_ok (hstep hkind) rest program).mp h⟩
        · simp [Accepts, Progress.run, Progress.step, Placed.refuse, bare, hkind] at h
      · rintro ⟨_, _, heq, hkind, h⟩
        cases heq
        exact (accepts_cons_of_ok (hstep hkind) rest program).mpr h

end Outside

/-- Components of the grammar are read behind those that have been read. -/
theorem accepts_components {tokens : List Token} {components : List Component}
    (h : DerivesComponents tokens components) (hquoted : AllQuoted tokens)
    {before : List Component}
    (hnodup : ((before ++ components).map Component.name).Nodup) :
    Accepts ⟨before, .outside⟩ tokens ⟨before ++ components⟩ := by
  induction h generalizing before with
  | nil => simp [accepts_nil_iff]
  | @noise token rest components hkind _ ih =>
      rw [accepts_outside_noise hkind]
      exact ih ((allQuoted_cons _ _).mp hquoted).2 hnodup
  | @component keyword name opening closing inner rest blocks components hkeyword hname hcan
      hopening hblocks honce hclosing _ ih =>
      simp only [allQuoted_cons, allQuoted_append] at hquoted
      obtain ⟨-, -, -, hinner, -, hrest⟩ := hquoted
      -- The names are checked when a component ends, against the components before it.
      have hnew : name.lexeme ∉ before.map Component.name := by
        rw [List.map_append, List.nodup_append] at hnodup
        intro hmem
        exact hnodup.2.2 _ hmem name.lexeme (by simp) rfl
      have htail : Accepts ⟨before ++ [⟨name.lexeme, blocks⟩], .outside⟩ rest
          ⟨before ++ ([⟨name.lexeme, blocks⟩] ++ components)⟩ := by
        rw [← List.append_assoc]
        exact ih hrest (by simpa using hnodup)
      have hclosed : Accepts ⟨before, .between ⟨name.lexeme, (), [] ++ blocks⟩⟩
          (closing :: rest) ⟨before ++ ⟨name.lexeme, blocks⟩ :: components⟩ :=
        (accepts_between_closing hclosing).mpr ⟨hnew, htail⟩
      have honceBefore : OncePerKind ([] ++ blocks) := honce
      have hbody := accepts_blocks hblocks hinner honceBefore hclosed
      rw [accepts_outside_keyword hkeyword, accepts_naming_iff]
      exact ⟨name, _, rfl, hname, hcan,
        (accepts_opening_iff _ _).mpr ⟨opening, _, rfl, hopening, hbody⟩⟩

/-- Whatever is read as a program is components of the grammar. -/
theorem exists_components {tokens : List Token} {before : List Component} {program : Program}
    (h : Accepts ⟨before, .outside⟩ tokens program) (hquoted : AllQuoted tokens)
    (hnodup : (before.map Component.name).Nodup) :
    ∃ components, DerivesComponents tokens components ∧
      program.components = before ++ components ∧
      ((before ++ components).map Component.name).Nodup := by
  cases tokens with
  | nil =>
      obtain ⟨-, rfl⟩ := (accepts_nil_iff _ _).mp h
      exact ⟨[], .nil, by simp, by simpa using hnodup⟩
  | cons token tokens =>
      by_cases hkeyword : token.kind = .component
      · rw [accepts_outside_keyword hkeyword, accepts_naming_iff] at h
        obtain ⟨name, behind, rfl, hname, hcan, h⟩ := h
        obtain ⟨opening, body, rfl, hopening, h⟩ := (accepts_opening_iff _ _).mp h
        simp only [allQuoted_cons] at hquoted
        obtain ⟨-, -, -, hbody⟩ := hquoted
        obtain ⟨inner, blocks, closing, rest, rfl, hblocks, hclosing, honce, hnew, h⟩ :=
          exists_blocks h hbody .nil
        simp only [allQuoted_append, allQuoted_cons] at hbody
        obtain ⟨-, -, hrest⟩ := hbody
        have hadded :
            ((before ++ [Component.mk name.lexeme ([] ++ blocks)]).map Component.name).Nodup := by
          rw [List.map_append, List.nodup_append]
          refine ⟨hnodup, by simp, ?_⟩
          intro other hother found hfound heq
          obtain rfl : found = name.lexeme := by simpa using hfound
          exact hnew (heq ▸ hother)
        obtain ⟨components, hcomponents, heq, hall⟩ :=
          exists_components h hrest hadded
        refine ⟨⟨name.lexeme, blocks⟩ :: components,
          .component hkeyword hname hcan hopening hblocks honce hclosing hcomponents, ?_, ?_⟩
        · simpa using heq
        · simpa using hall
      · rw [accepts_outside_noise hkeyword] at h
        obtain ⟨components, hcomponents, heq, hall⟩ :=
          exists_components h ((allQuoted_cons _ _).mp hquoted).2 hnodup
        exact ⟨components, .noise hkeyword hcomponents, heq, hall⟩
termination_by tokens.length

/-! ## Programs -/

/-- From the start, what is read is what the grammar derives. -/
theorem accepts_start_iff {tokens : List Token} (hquoted : AllQuoted tokens)
    (program : Program) : Accepts .start tokens program ↔ Derives tokens program := by
  constructor
  · intro h
    obtain ⟨components, hcomponents, heq, hnodup⟩ := exists_components h hquoted .nil
    rw [List.nil_append] at heq hnodup
    rw [← heq] at hcomponents hnodup
    exact ⟨hcomponents, hnodup⟩
  · rintro ⟨hcomponents, hnodup⟩
    have hnodupBefore : (([] ++ program.components).map Component.name).Nodup := hnodup
    exact accepts_components hcomponents hquoted hnodupBefore

/-- The tokens of a program determine it. -/
theorem Derives.unique {tokens : List Token} (hquoted : AllQuoted tokens)
    {program other : Program} (h : Derives tokens program) (hother : Derives tokens other) :
    other = program := by
  have hread := (accepts_start_iff hquoted program).mpr h
  have hreadOther := (accepts_start_iff hquoted other).mpr hother
  exact Except.ok.inj (hreadOther.symm.trans hread)

/-- The tokens in front of the first end of input, or all of them if there is none. -/
def tokensBefore {π : Type} (tokens : List (Placed π)) : List Token :=
  (tokens.takeWhile fun placed => placed.token.kind != .endOfInput).map Placed.token

/-- In front of the only end of input stand all other tokens. -/
theorem tokensBefore_eq {π : Type} {placed : List (Placed π)} {body : List Token}
    (hplaced : placed.map Placed.token = body ++ [.finish])
    (hbody : ∀ token ∈ body, token.kind ≠ .endOfInput) : tokensBefore placed = body := by
  have hkinds : ∀ token ∈ body, (token.kind != .endOfInput) = true := by simpa using hbody
  have hmap : tokensBefore placed =
      (placed.map Placed.token).takeWhile fun token => token.kind != .endOfInput := by
    rw [List.takeWhile_map]
    rfl
  rw [hmap, hplaced, List.takeWhile_append_of_pos hkinds]
  simp [Token.finish]

theorem mapError_eq_ok_iff {ε δ α : Type} (f : ε → δ) (result : Except ε α) (value : α) :
    result.mapError f = .ok value ↔ result = .ok value := by
  cases result with
  | ok found => simp [mapError_ok]
  | error error => simp [mapError_error]

/-! ## Streams of tokens -/

/-- In front of the first end of input every token is read. -/
theorem ofTokens_append {π : Type} {front : List (Placed π)}
    (hfront : ∀ placed ∈ front, placed.token.kind ≠ .endOfInput) (nowhere : π)
    (rest : List (Placed π)) :
    TokenStream.ofTokens nowhere (front ++ rest) =
      ⟨front ++ (TokenStream.ofTokens nowhere rest).tokens,
        (TokenStream.ofTokens nowhere rest).finish⟩ := by
  have hkinds : ∀ placed ∈ front, (placed.token.kind != .endOfInput) = true := by
    simpa using hfront
  have hnone : front.find? (fun placed => placed.token.kind == .endOfInput) = none := by
    rw [List.find?_eq_none]
    simpa using hfront
  simp [TokenStream.ofTokens, List.takeWhile_append_of_pos hkinds, List.find?_append, hnone]

theorem ofTokens_endOfInput {π : Type} {last : Placed π}
    (hlast : last.token.kind = .endOfInput) (nowhere : π) (rest : List (Placed π)) :
    TokenStream.ofTokens nowhere (last :: rest) = ⟨[], last.place⟩ := by
  simp [TokenStream.ofTokens, hlast]

/-- Where tokens stand does not decide whether a reading goes on with them to its end, nor to
which. -/
theorem run_eq_ok_iff_accepts {π : Type} (finish : π) (progress : Progress π)
    (tokens : List (Placed π)) (program : Program) :
    (progress.run finish tokens).result = .ok program ↔
      Accepts (progress.map fun _ => ()) (tokens.map Placed.token) program := by
  have hbare : (tokens.map Placed.token).map bare = tokens.map (Placed.map fun _ => ()) := by
    rw [List.map_map]
    rfl
  -- Forgetting the places maps the reading onto the reading of bare tokens.
  have hrun := congrArg Outcome.result (Progress.run_map (fun _ => ()) finish progress tokens)
  rw [Accepts, hbare, hrun]
  exact (mapError_eq_ok_iff _ _ _).symm

/-- Where the tokens stand does not decide whether they are a program, nor which. -/
theorem parse_eq_ok_iff_accepts {π : Type} (nowhere : π) (tokens : List (Placed π))
    (program : Program) :
    (TokenStream.ofTokens nowhere tokens).parse.result = .ok program ↔
      Accepts .start (tokensBefore tokens) program :=
  run_eq_ok_iff_accepts _ .start _ program

/-- A list of tokens whose strings are quoted is read as a program exactly if the tokens in front
of its first end of input derive the program, and they derive no other. -/
theorem parse_eq_ok_iff_derives {π : Type} (nowhere : π) (tokens : List (Placed π))
    (hquoted : ∀ placed ∈ tokens, Quoted placed.token) (program : Program) :
    ((TokenStream.ofTokens nowhere tokens).parse.result = .ok program ↔
        Derives (tokensBefore tokens) program) ∧
      (Derives (tokensBefore tokens) program →
        ∀ other, Derives (tokensBefore tokens) other → other = program) := by
  have hbefore : AllQuoted (tokensBefore tokens) := by
    intro token htoken
    obtain ⟨placed, hplaced, rfl⟩ := List.mem_map.mp htoken
    exact hquoted placed ((List.takeWhile_sublist _).mem hplaced)
  refine ⟨?_, ?_⟩
  · rw [parse_eq_ok_iff_accepts, accepts_start_iff hbefore]
  · intro h other hother
    exact h.unique hbefore hother

/-- A component with one element, and behind the end of input the beginning of another. -/
def sampleTokens : List (Placed Unit) :=
  [bare ⟨.component, "component"⟩, bare ⟨.identifier, "A"⟩, bare ⟨.leftBrace, "\x7b"⟩,
    bare ⟨.interface, "interface"⟩, bare ⟨.leftBrace, "\x7b"⟩,
    bare ⟨.identifier, "B"⟩, bare ⟨.leftBrace, "\x7b"⟩,
    bare ⟨.identifier, "texto"⟩, bare ⟨.colon, ":"⟩, bare ⟨.string, "\"x\""⟩,
    bare ⟨.rightBrace, "\x7d"⟩, bare ⟨.rightBrace, "\x7d"⟩, bare ⟨.rightBrace, "\x7d"⟩,
    bare .finish, bare ⟨.component, "component"⟩]

/-- The text of the element is a quoted string, and what stands behind the end of input does not
count. -/
theorem parse_eq_ok_iff_derives_quoted_text :
    (∀ placed ∈ sampleTokens, Quoted placed.token) ∧
      Derives (tokensBefore sampleTokens)
        ⟨[⟨"A", [.interface [⟨"B", some (.literal "x"), none⟩]]⟩]⟩ := by
  have hquoted : ∀ placed ∈ sampleTokens, Quoted placed.token := by
    simp [sampleTokens, bare, Quoted, Token.finish]
    exact ⟨['x'], rfl⟩
  refine ⟨hquoted, (parse_eq_ok_iff_derives () sampleTokens hquoted _).1.mp ?_⟩
  rfl

end Grammar
end SiteCompiler
