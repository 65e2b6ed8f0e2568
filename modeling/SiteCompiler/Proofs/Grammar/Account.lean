import SiteCompiler.Proofs.Grammar.Inside
import SiteCompiler.Proofs.Grammar.Refusals
import SiteCompiler.Proofs.Grammar.Unambiguous

/-!
# What is told of a reading

Handlers that a block loses are told of when the block is complete, and a
component when it is accepted.  So what has been told at any time is decided by
the outlines of the tokens up to there.

* `told` - the records that are more than a trace.
* `Concludes`, `exists_part` - what a block tells of at its closing brace.
* `Accounted`, `Accounted.step` - what has been told, by where the reader stands.
* `Accounted.interrupted`, `Accounted.interrupted_of_refuses` - the tokens up to a
  refusal.
* `told_of_run_ok`, `told_of_run_error` - what a whole reading tells of.
-/

namespace SiteCompiler
namespace Grammar

variable {π : Type}

/-- The level and the wording of every record of the reader that is more than a trace. -/
def told (records : List Record) : List (Level × String) :=
  (records.filter fun record =>
      record.origin = "zyra_parser::parser" ∧ record.level ≠ .trace).map fun record =>
    (record.level, record.text)

@[simp] theorem told_nil : told [] = [] := rfl

@[simp] theorem told_append (records more : List Record) :
    told (records ++ more) = told records ++ told more := by
  simp [told]

/-! ## Blocks -/

section Blocks

variable {block next : OpenBlock} {token : Token} {result : Option Block} {records : List Record}

theorem told_of_assign {element assigned : Element} {property : String} {value : Token}
    (h : element.assign property value = .ok (assigned, records)) : told records = [] := by
  unfold Element.assign at h
  split at h
  · obtain ⟨text, -, heq⟩ := (map_eq_ok_iff _ _ _).mp h
    cases heq
    rfl
  split at h
  · obtain ⟨action, -, heq⟩ := (map_eq_ok_iff _ _ _).mp h
    cases heq
    rfl
  · cases h
    rfl

theorem told_of_add {list added : Pairs} {name : String} {value : Token}
    (h : list.add name value = .ok (added, records)) : told records = [] := by
  cases list with
  | state fields =>
      cases h
      rfl
  | style properties =>
      cases h
      rfl
  | element before current =>
      obtain ⟨assigned, hassign, heq⟩ := (map_eq_ok_iff _ _ _).mp h
      cases heq
      exact told_of_assign hassign

/-- What a block has been declared to be, at its closing brace. -/
inductive Concludes : OpenBlock → Part → Prop
  | state {fields : List Declaration} :
      Concludes (.pairs (.state fields) .name) (.whole (.state fields))
  | style {properties : List Declaration} :
      Concludes (.pairs (.style properties) .name) (.whole (.style properties))
  | interface {done : List Element} : Concludes (.elements done) (.whole (.interface done))
  | events {done : List Handler} : Concludes (.handlers done) (.events done)

/-- Nothing is told of a block that stays open, and of a block that is complete what it loses. -/
inductive Tells (block : OpenBlock) : BlockStep → Prop
  | more {next : OpenBlock} {records : List Record} :
      told records = [] → Tells block (.more next records)
  | done {part : Part} {records : List Record} :
      Concludes block part → told records = part.warnings → Tells block (.done part.kept records)

theorem tells_of_expect {kind : TokenKind} {wanted : Expectation} {step : BlockStep}
    (h : token.expect kind wanted (.more next []) = .ok step) : Tells block step := by
  obtain ⟨-, rfl⟩ := (expect_eq_ok_iff _ _ _ _ _).mp h
  exact .more rfl

theorem tells_of_pairs_step {list : Pairs} {stage : PairStage} {step : BlockStep}
    (h : list.step stage token = .ok step) : Tells (.pairs list stage) step := by
  cases stage with
  | name =>
      simp only [Pairs.step] at h
      split at h
      · cases h
        cases list with
        | state fields => exact .done .state rfl
        | style properties => exact .done .style rfl
        | element before current => exact .more rfl
      · exact tells_of_expect h
  | colon name => exact tells_of_expect h
  | value name =>
      simp only [Pairs.step] at h
      split at h
      · cases h
      · obtain ⟨⟨added, records⟩, hadd, rfl⟩ := (map_eq_ok_iff _ _ _).mp h
        exact .more (told_of_add hadd)

theorem tells_of_keepFirst (handlers : List Handler) :
    Tells (.handlers handlers) (keepFirst handlers) := by
  match handlers with
  | [] => exact .done .events rfl
  | [first] => exact .done .events rfl
  | first :: second :: others => exact .done .events rfl

theorem tells_of_stepStatements (done : List Handler) (name : String) (depth : Nat)
    (words : List String) :
    Tells (.statements done name depth words) (stepStatements done name depth words token) := by
  unfold stepStatements
  split
  · exact .more rfl
  split
  · cases depth with
    | zero => exact .more rfl
    | succ outer => exact .more rfl
  · exact .more rfl

theorem tells_of_step {step : BlockStep} (h : block.step token = .ok step) : Tells block step := by
  cases block with
  | opening | elementOpening | handlerArrow | handlerOpening => exact tells_of_expect h
  | pairs list stage => exact tells_of_pairs_step h
  | elements done =>
      simp only [OpenBlock.step] at h
      split at h
      · cases h
        exact .done .interface rfl
      · exact tells_of_expect h
  | handlers done =>
      simp only [OpenBlock.step] at h
      split at h
      · rw [← Except.ok.inj h]
        exact tells_of_keepFirst done
      · exact tells_of_expect h
  | statements done name depth words =>
      rw [← Except.ok.inj h]
      exact tells_of_stepStatements done name depth words

/-- A block of events has read the handlers that its tokens declare. -/
theorem derivesPart_of_handlers {kind : BlockKind} {opening : Token} {inner : List Token}
    {handlers : List Handler} (hopening : opening.kind = .leftBrace)
    (hreached : Reaches (.opening kind) (opening :: inner) (.handlers handlers))
    (hblock : DerivesBlock kind inner (Part.events handlers).kept) :
    DerivesPart kind inner (.events handlers) := by
  obtain ⟨hkinds, hsome⟩ := hblock.kind_eq
  have hkind : kind = .events := by
    refine Decidable.byContradiction fun hne => ?_
    obtain ⟨found, hfound⟩ := Option.isSome_iff_exists.mp (hsome hne)
    obtain ⟨first, -, rfl⟩ := Option.map_eq_some_iff.mp hfound
    exact hne (hkinds _ hfound).symm
  subst hkind
  generalize (Part.events handlers).kept = kept at hblock
  cases hblock with
  | @events _ others hhandlers =>
      have hread : Reaches (.opening .events) (opening :: inner) (.handlers others) :=
        .cons (.opening hopening rfl) (reaches_handlers hhandlers [])
      cases hreached.unique hread
      exact .events hhandlers

/-- A block that has been opened by its keyword is complete at a closing brace, and then it has been
declared by the tokens behind the keyword. -/
theorem exists_part {kind : BlockKind} {tokens : List Token}
    (hreached : Reaches (.opening kind) tokens block)
    (h : block.step token = .ok (.done result records)) (hquoted : AllQuoted (tokens ++ [token])) :
    ∃ opening inner part, tokens = opening :: inner ∧ opening.kind = .leftBrace ∧
      DerivesPart kind inner part ∧ token.kind = .rightBrace ∧ result = part.kept ∧
        told records = part.warnings := by
  -- The block ends at this token, so the grammar of whole blocks says what stands before it.
  have hwhole : Completes (.opening kind) (tokens ++ [token]) result :=
    (hreached.completes_iff [token] result).mpr
      ((completes_cons_of_done h [] result).mpr ⟨rfl, rfl⟩)
  obtain ⟨opening, inner, closing, heq, hopening, hblock, hclosing⟩ :=
    (completes_opening_iff hquoted).mp hwhole
  rw [← List.cons_append] at heq
  obtain ⟨rfl, hlast⟩ := List.append_inj' heq rfl
  cases hlast
  generalize hstep : BlockStep.done result records = step at h
  obtain _ | ⟨hconcludes, htold⟩ := tells_of_step h
  · cases hstep
  cases hstep
  rename_i part
  have hpart : DerivesPart kind inner part := by
    cases hconcludes with
    | events => exact derivesPart_of_handlers hopening hreached hblock
    | state | style | interface =>
        refine .whole ?_ hblock
        rintro rfl
        cases hblock.kind_eq.1 _ rfl
  exact ⟨opening, inner, part, rfl, hopening, hpart, hclosing, rfl, htold⟩

end Blocks

/-! ## Readings -/

/-- The tokens that were read, where the reader stands behind them, and what has been told by
then. -/
inductive Accounted : List Token → Progress π → List (Level × String) → Prop
  | outside {tokens : List Token} {outlines : List Outline} :
      DerivesOutlines tokens outlines →
        Accounted tokens ⟨outlines.map Outline.component, .outside⟩
          (outlines.flatMap Outline.report)
  | naming {front : List Token} {keyword : Token} {outlines : List Outline} :
      DerivesOutlines front outlines → keyword.kind = .component →
        Accounted (front ++ [keyword]) ⟨outlines.map Outline.component, .naming⟩
          (outlines.flatMap Outline.report)
  | opening {front : List Token} {keyword name : Token} {outlines : List Outline} {place : π} :
      DerivesOutlines front outlines → keyword.kind = .component → name.kind = .identifier →
        Accounted (front ++ [keyword, name])
          ⟨outlines.map Outline.component, .opening ⟨name.lexeme, place, []⟩⟩
          (outlines.flatMap Outline.report)
  | between {front inner : List Token} {outlines : List Outline} {name : String}
      {parts : List Part} {place : π} :
      DerivesHead front outlines name → DerivesParts inner parts →
        Accounted (front ++ inner)
          ⟨outlines.map Outline.component, .between ⟨name, place, parts.filterMap Part.kept⟩⟩
          (outlines.flatMap Outline.report ++ parts.flatMap Part.warnings)
  | within {front inner tokens : List Token} {outlines : List Outline} {name : String}
      {parts : List Part} {place : π} {keyword : Token} {kind : BlockKind} {block : OpenBlock} :
      DerivesHead front outlines name → DerivesParts inner parts →
        keyword.kind = keywordKind kind → Reaches (.opening kind) tokens block →
          Accounted (front ++ (inner ++ keyword :: tokens))
            ⟨outlines.map Outline.component,
              .within ⟨name, place, parts.filterMap Part.kept⟩ block⟩
            (outlines.flatMap Outline.report ++ parts.flatMap Part.warnings)

section Readings

variable {tokens : List Token} {placed : Placed π} {progress next : Progress π}
  {reported : List (Level × String)} {records : List Record}

/-- One move tells of what it completes. -/
theorem Accounted.step (h : Accounted tokens progress reported)
    (hmove : Moves progress placed next records) (hquoted : AllQuoted (tokens ++ [placed.token])) :
    Accounted (tokens ++ [placed.token]) next (reported ++ told records) := by
  cases hmove with
  | skipOutside hkind =>
      cases h with
      | outside houtlines =>
          have hlonger := houtlines.append (.noise hkind .nil)
          rw [List.append_nil] at hlonger
          have htold : told [.skippedOutside placed.token] = [] := rfl
          rw [htold, List.append_nil]
          exact .outside hlonger
  | keyword hkind =>
      cases h with
      | outside houtlines =>
          rw [told_nil, List.append_nil]
          exact .naming houtlines hkind
  | name hkind hname =>
      cases h with
      | naming houtlines hkeyword =>
          rw [told_nil, List.append_nil, List.append_assoc]
          exact .opening houtlines hkeyword hkind
  | opening hkind =>
      cases h with
      | @opening _ _ _ _ place houtlines hkeyword hname =>
          have hhead := DerivesHead.intro houtlines hkeyword hname hkind
          have hbody := @Accounted.between π _ _ _ _ _ place hhead .nil
          simpa using hbody
  | closing hkind hnew =>
      cases h with
      | between hhead hparts =>
          -- What was told of the blocks becomes the first half of the component's report.
          have hclosed := @Accounted.outside π _ _ (hhead.close hparts hkind)
          rw [List.map_append, List.flatMap_append, List.flatMap_singleton] at hclosed
          rw [List.append_assoc, List.append_assoc]
          exact hclosed
  | skipInside hkind hblock =>
      cases h with
      | between hhead hparts =>
          have hlonger := hparts.append (.noise hkind ((block?_eq_none_iff _).mp hblock) .nil)
          rw [List.append_nil] at hlonger
          have htold (component : String) : told [.skippedInside placed.token component] = [] := rfl
          rw [htold, List.append_nil, List.append_assoc]
          exact .between hhead hlonger
  | block hblock hrefuses =>
      cases h with
      | between hhead hparts =>
          rw [told_nil, List.append_nil, List.append_assoc]
          exact .within hhead hparts (keywordKind_of_block? hblock) (.nil _)
  | @more _ _ _ _ following _ hstep =>
      cases h with
      | within hhead hparts hkeyword hreached =>
          have hnext := (continues_iff _ _ _).mp ⟨_, hstep⟩
          have hlonger := hreached.append (.cons hnext (.nil following))
          obtain htold | _ := tells_of_step hstep
          rw [htold, List.append_nil, List.append_assoc, List.append_assoc, List.cons_append]
          exact .within hhead hparts hkeyword hlonger
  | done hstep =>
      cases h with
      | @within front inner behind outlines name parts place keyword kind block hhead hparts
          hkeyword hreached =>
          -- Only here does a part come to the others, and its warnings with it.
          have hbehind : AllQuoted (behind ++ [placed.token]) := by
            simp only [allQuoted_append, allQuoted_cons] at hquoted ⊢
            exact ⟨hquoted.1.2.2.2, hquoted.2⟩
          obtain ⟨opening, body, part, rfl, hopening, hpart, hclosing, rfl, htold⟩ :=
            exists_part hreached hstep hbehind
          have hlonger := hparts.append (.part hkeyword hopening hpart hclosing .nil)
          have hbody := @Accounted.between π _ _ _ _ _ place hhead hlonger
          rw [List.filterMap_append, List.flatMap_append, List.flatMap_singleton] at hbody
          rw [htold, List.append_assoc, List.append_assoc, List.append_assoc]
          exact hbody

/-- What has been told of a reading is decided by its tokens. -/
theorem accounted_of_leads {tokens : List (Placed π)} (h : Leads .start tokens progress records)
    (hquoted : AllQuoted (tokens.map Placed.token)) :
    Accounted (tokens.map Placed.token) progress (told records) := by
  induction h with
  | nil => exact .outside .nil
  | snoc _ hmove ih =>
      rw [List.map_append, List.map_singleton] at hquoted ⊢
      rw [told_append]
      exact (ih ((allQuoted_append _ _).mp hquoted).1).step hmove hquoted

end Readings

/-! ## Refusals -/

section Refusals

variable {tokens : List Token} {placed : Placed π} {progress : Progress π}
  {reported : List (Level × String)}

/-- A block that is open has not been complete at an earlier closing brace. -/
theorem Reaches.unclosed {kind : BlockKind} {block : OpenBlock}
    (h : Reaches (.opening kind) tokens block) (hquoted : AllQuoted tokens) :
    Unclosed kind tokens := by
  rintro opening inner closing rest part rfl hopening hclosing hpart
  have hall : Reaches (.opening kind) (opening :: (inner ++ [closing]) ++ rest) block := by
    simpa using h
  simp only [allQuoted_cons, allQuoted_append] at hquoted
  exact hall.not_completes _ (hpart.completes hquoted.2.1 hopening hclosing)

/-- The body of a component that is not accepted stands behind its head. -/
theorem DerivesHead.interrupted {front inner tokens : List Token} {outlines : List Outline}
    {name : String} {parts : List Part} (h : DerivesHead front outlines name)
    (hparts : DerivesParts inner parts)
    (hbreaks : Breaks name (outlines.map Outline.name) tokens) :
    Interrupted (front ++ (inner ++ tokens)) outlines parts := by
  obtain ⟨houtlines, hkeyword, hname, hopening⟩ := h
  simpa using Interrupted.intro houtlines hkeyword (.opened hname hopening hparts hbreaks)

/-- Behind the keyword of a component a reading is interrupted wherever it ends. -/
theorem Accounted.interrupted (h : Accounted tokens progress reported)
    (hmode : progress.mode ≠ .outside) (hquoted : AllQuoted tokens) :
    ∃ outlines parts, Interrupted tokens outlines parts ∧
      reported = outlines.flatMap Outline.report ++ parts.flatMap Part.warnings := by
  cases h with
  | outside => exact (hmode rfl).elim
  | @naming _ _ outlines houtlines hkeyword =>
      exact ⟨outlines, [], .intro houtlines hkeyword (.unnamed (by simp)), by simp⟩
  | @opening _ _ _ outlines _ houtlines hkeyword =>
      exact ⟨outlines, [], .intro houtlines hkeyword (.unnamed (by simp)), by simp⟩
  | between hhead hparts =>
      have hinterrupted := hhead.interrupted hparts .nil
      rw [List.append_nil] at hinterrupted
      exact ⟨_, _, hinterrupted, rfl⟩
  | within hhead hparts hkeyword hreached =>
      simp only [allQuoted_append, allQuoted_cons] at hquoted
      have hunclosed := hreached.unclosed hquoted.2.2.2
      exact ⟨_, _, hhead.interrupted hparts (.within hkeyword hunclosed), rfl⟩

/-- The token at which a reading is refused, if the refusal uses it up. -/
def usedUp (placed : Placed π) (refusal : Refusal π) : List Token :=
  if refusal.consumed then [placed.token] else []

theorem Accounted.interrupted_of_refuses {refusal : Refusal π}
    (h : Accounted tokens progress reported) (hrefuses : Refuses progress placed refusal)
    (hquoted : AllQuoted tokens) :
    ∃ outlines parts, Interrupted (tokens ++ usedUp placed refusal) outlines parts ∧
      reported = outlines.flatMap Outline.report ++ parts.flatMap Part.warnings := by
  cases hrefuses with
  -- These look at a token and leave it where it is.
  | naming | opening | twice | inside =>
      have hnone (error : ParseError π) : tokens ++ usedUp placed ⟨error, false⟩ = tokens :=
        List.append_nil tokens
      rw [hnone]
      exact h.interrupted (by simp) hquoted
  | invalidName =>
      cases h with
      | @naming _ _ outlines houtlines hkeyword =>
          refine ⟨outlines, [], ?_, by simp⟩
          rw [List.append_assoc]
          exact .intro houtlines hkeyword (.unnamed (by simp [usedUp]))
  | repeated hkind hname =>
      cases h with
      | between hhead hparts =>
          refine ⟨_, _, ?_, rfl⟩
          rw [List.append_assoc]
          refine hhead.interrupted hparts (.repeated hkind ?_)
          simpa [Outline.component] using hname

end Refusals

/-! ## Whole readings -/

theorem Accounted.exists_outlines {tokens : List Token} {components : List Component}
    {reported : List (Level × String)}
    (h : Accounted tokens (⟨components, .outside⟩ : Progress π) reported) :
    ∃ outlines, DerivesOutlines tokens outlines ∧ components = outlines.map Outline.component ∧
      reported = outlines.flatMap Outline.report := by
  cases h with
  | outside houtlines => exact ⟨_, houtlines, rfl, rfl⟩

section Whole

variable {tokens : List (Placed π)} {finish : π}

/-- A reading that ends in a program tells of all that the program has lost, and of its components,
each behind what it has lost itself. -/
theorem told_of_run_ok {program : Program}
    (h : (Progress.start.run finish tokens).result = .ok program)
    (hquoted : AllQuoted (tokens.map Placed.token)) :
    ∃ outlines, DerivesOutlines (tokens.map Placed.token) outlines ∧
      program = ⟨outlines.map Outline.component⟩ ∧
        told (Progress.start.run finish tokens).records = outlines.flatMap Outline.report := by
  obtain ⟨records, hleads⟩ := exists_leads_of_run h
  have hrun := run_append hleads finish []
  rw [List.append_nil] at hrun
  have hrecords : (Progress.start.run finish tokens).records = records := by
    rw [hrun]
    exact List.append_nil records
  rw [hrecords]
  obtain ⟨components⟩ := program
  obtain ⟨outlines, houtlines, rfl, hreported⟩ :=
    (accounted_of_leads hleads hquoted).exists_outlines
  exact ⟨outlines, houtlines, rfl, hreported⟩

/-- A reading that is refused has told of what was complete by then. -/
theorem told_of_run_error {error : ParseError π}
    (h : (Progress.start.run finish tokens).result = .error error)
    (hquoted : AllQuoted (tokens.map Placed.token)) :
    ∃ consumed outlines parts,
      tokens.map Placed.token =
          consumed ++ (Progress.start.run finish tokens).rest.map Placed.token ∧
        Interrupted consumed outlines parts ∧
          told (Progress.start.run finish tokens).records =
            outlines.flatMap Outline.report ++ parts.flatMap Part.warnings := by
  rcases exists_leads_of_run_error .nil h with
    ⟨front, placed, back, next, records, consumed, heq, hleads, hrefuses⟩ |
    ⟨next, records, hleads, hend⟩
  · rw [List.nil_append] at heq
    subst heq
    rw [List.map_append, allQuoted_append] at hquoted
    have hstep := (step_eq_error_iff _ _ _).mpr hrefuses
    have hrun := run_append hleads finish (placed :: back)
    simp only [Progress.run, hstep, List.append_nil] at hrun
    obtain ⟨outlines, parts, hinterrupted, hreported⟩ :=
      (accounted_of_leads hleads hquoted.1).interrupted_of_refuses hrefuses hquoted.1
    refine ⟨_, outlines, parts, ?_, hinterrupted, ?_⟩
    · rw [hrun]
      cases consumed <;> simp [usedUp]
    · rw [hrun]
      exact hreported
  · rw [List.nil_append] at hleads
    have hrun := run_append hleads finish []
    simp only [List.append_nil, Progress.run] at hrun
    obtain ⟨expectation, hwanted, -⟩ := (conclude_eq_error_iff _ _ _).mp hend
    have hmode : next.mode ≠ .outside := by
      intro hmode
      simp [Progress.wanted?, hmode] at hwanted
    obtain ⟨outlines, parts, hinterrupted, hreported⟩ :=
      (accounted_of_leads hleads hquoted).interrupted hmode hquoted
    refine ⟨_, outlines, parts, ?_, hinterrupted, ?_⟩
    · rw [hrun]
      exact (List.append_nil _).symm
    · rw [hrun]
      exact hreported

end Whole

end Grammar
end SiteCompiler
