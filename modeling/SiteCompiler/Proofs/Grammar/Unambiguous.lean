import SiteCompiler.Proofs.Grammar.Outline

/-!
# Outlines are unambiguous

No two outlines belong to the same tokens.  Where a block, a body or a component
ends is decided by the tokens, and by the first that cannot belong to it.

* `Completes.unique`, `Reaches.not_completes` - a block is complete at one token.
* `DerivesParts.unique` - a body ends in one place, and has one outline.
* `DerivesOutlines.unique` - so has a sequence of components.
* `Interrupted.unique` - and so has a sequence that stops inside a component.
-/

namespace SiteCompiler
namespace Grammar

/-! ## Ends of blocks -/

theorem Reaches.unique {block reached other : OpenBlock} {tokens : List Token}
    (h : Reaches block tokens reached) (hother : Reaches block tokens other) : reached = other :=
  Option.some.inj (Eq.trans (Eq.symm h) hother)

/-- A block is complete at one token, and no part of it is a whole block. -/
theorem Completes.unique {block : OpenBlock} {tokens others rest more : List Token}
    {result found : Option Block} (h : Completes block tokens result)
    (hother : Completes block others found) (heq : tokens ++ rest = others ++ more) :
    tokens = others ∧ result = found := by
  induction tokens generalizing block others with
  | nil => exact h.elim
  | cons token tokens ih =>
      cases others with
      | nil => exact hother.elim
      | cons other others =>
          obtain ⟨rfl, hrest⟩ := List.cons.inj heq
          rcases hstep : block.step token with fault | ⟨next, records⟩ | ⟨last, records⟩
          · simp [Completes, hstep] at h
          · rw [completes_cons_of_more hstep] at h hother
            obtain ⟨rfl, rfl⟩ := ih h hother hrest
            exact ⟨rfl, rfl⟩
          · rw [completes_cons_of_done hstep] at h hother
            obtain ⟨rfl, rfl⟩ := h
            obtain ⟨rfl, rfl⟩ := hother
            exact ⟨rfl, rfl⟩

theorem quoted_of_kind_ne {token : Token} (h : token.kind ≠ .string) : Quoted token :=
  fun hkind => (h hkind).elim

/-- A block that is open at its end has not been complete before. -/
theorem Reaches.not_completes {block reached : OpenBlock} {front back : List Token}
    (h : Reaches block (front ++ back) reached) (result : Option Block) :
    ¬ Completes block front result := by
  rw [Reaches, List.foldlM_append] at h
  obtain ⟨middle, hfront, -⟩ := Option.bind_eq_some_iff.mp h
  rw [← List.append_nil front, Reaches.completes_iff hfront]
  exact id

section Unique

variable {opening closing last : Token} {inner others rest more : List Token}

theorem DerivesPart.completes {kind : BlockKind} {part : Part} (h : DerivesPart kind inner part)
    (hquoted : AllQuoted inner) (hopening : opening.kind = .leftBrace)
    (hclosing : closing.kind = .rightBrace) :
    Completes (.opening kind) (opening :: (inner ++ [closing])) part.kept := by
  have hall : AllQuoted (opening :: (inner ++ [closing])) := by
    have hfirst : Quoted opening := quoted_of_kind_ne (by simp [hopening])
    have hlast : Quoted closing := quoted_of_kind_ne (by simp [hclosing])
    simp [hfirst, hlast, hquoted]
  exact (completes_opening_iff hall).mpr
    ⟨opening, inner, closing, rfl, hopening, h.derivesBlock, hclosing⟩

/-- Tokens begin with one block of a kind at most. -/
theorem DerivesPart.unique {kind : BlockKind} {part other : Part} (h : DerivesPart kind inner part)
    (hother : DerivesPart kind others other) (hopening : opening.kind = .leftBrace)
    (hclosing : closing.kind = .rightBrace) (hlast : last.kind = .rightBrace)
    (heq : inner ++ closing :: rest = others ++ last :: more)
    (hquoted : AllQuoted (inner ++ closing :: rest)) :
    inner = others ∧ rest = more ∧ part = other := by
  have hquotedOther := hquoted
  rw [heq] at hquotedOther
  rw [allQuoted_append] at hquoted hquotedOther
  obtain ⟨hinner, -⟩ := hquoted
  obtain ⟨hothers, -⟩ := hquotedOther
  have hwhole := h.completes hinner hopening hclosing
  have hall : opening :: (inner ++ [closing]) ++ rest = opening :: (others ++ [last]) ++ more := by
    simpa using heq
  obtain ⟨hsame, hkept⟩ := hwhole.unique (hother.completes hothers hopening hlast) hall
  obtain ⟨rfl, hends⟩ := List.append_inj' (List.cons.inj hsame).2 rfl
  cases hends
  obtain ⟨-, hrest⟩ := List.append_inj heq rfl
  refine ⟨rfl, (List.cons.inj hrest).2, ?_⟩
  cases h with
  | whole hkind _ =>
      cases hother with
      | whole =>
          cases hkept
          rfl
      | events => exact (hkind rfl).elim
  | events hhandlers =>
      cases hother with
      | whole hkind _ => exact (hkind rfl).elim
      | events hotherHandlers =>
          have hreached :=
            (reaches_handlers hhandlers []).unique (reaches_handlers hotherHandlers [])
          cases hreached
          rfl

theorem keywordKind_inj {kind other : BlockKind} (h : keywordKind kind = keywordKind other) :
    kind = other := by
  have hblock := congrArg TokenKind.block? h
  rw [block?_keywordKind, block?_keywordKind] at hblock
  exact Option.some.inj hblock

end Unique

/-! ## Ends of bodies -/

/-- No body of a component goes on with these tokens. -/
inductive StopsBody : List Token → Prop
  | nil : StopsBody []
  | closing {closing : Token} {rest : List Token} :
      closing.kind = .rightBrace → StopsBody (closing :: rest)
  | within {keyword : Token} {tokens : List Token} {kind : BlockKind} :
      keyword.kind = keywordKind kind → Unclosed kind tokens → StopsBody (keyword :: tokens)

theorem StopsBody.not_noise {token : Token} {rest : List Token} (h : StopsBody (token :: rest))
    (hclosing : token.kind ≠ .rightBrace) : ∃ kind, token.kind = keywordKind kind := by
  cases h with
  | closing hkind => exact (hclosing hkind).elim
  | within hkeyword => exact ⟨_, hkeyword⟩

theorem StopsBody.not_part {keyword opening closing : Token} {inner rest : List Token}
    {kind : BlockKind} {part : Part}
    (h : StopsBody (keyword :: opening :: (inner ++ closing :: rest)))
    (hkeyword : keyword.kind = keywordKind kind) (hopening : opening.kind = .leftBrace)
    (hclosing : closing.kind = .rightBrace) : ¬ DerivesPart kind inner part := by
  intro hpart
  cases h with
  | closing hkind => exact keywordKind_ne_rightBrace kind (hkeyword.symm.trans hkind)
  | within hother hunclosed =>
      obtain rfl := keywordKind_inj (hkeyword.symm.trans hother)
      exact hunclosed _ _ _ _ _ rfl hopening hclosing hpart

/-- Tokens begin with one body of a component at most. -/
theorem DerivesParts.unique {inner others tokens more : List Token} {parts found : List Part}
    (h : DerivesParts inner parts) (hother : DerivesParts others found)
    (hstops : StopsBody tokens) (hmore : StopsBody more) (heq : inner ++ tokens = others ++ more)
    (hquoted : AllQuoted (inner ++ tokens)) : tokens = more ∧ parts = found := by
  -- Where both bodies go on they go on alike; where one ends, the other cannot go on, for what
  -- stands behind the one would stop the other.
  induction h generalizing others found with
  | nil =>
      rw [List.nil_append] at heq
      subst heq
      cases hother with
      | nil => exact ⟨rfl, rfl⟩
      | noise hend hnone =>
          obtain ⟨kind, hkeyword⟩ := hstops.not_noise hend
          exact (hnone kind hkeyword).elim
      | part hkeyword hopening hpart hend =>
          rw [List.cons_append, List.cons_append, List.append_assoc] at hstops
          exact (hstops.not_part hkeyword hopening hend hpart).elim
  | @noise token behind parts hend hnone _ ih =>
      have hrest := ((allQuoted_cons _ _).mp hquoted).2
      cases hother with
      | nil =>
          rw [List.nil_append] at heq
          subst heq
          obtain ⟨kind, hkeyword⟩ := hmore.not_noise hend
          exact (hnone kind hkeyword).elim
      | noise _ _ hbehind =>
          exact ih hbehind (List.cons.inj heq).2 hrest
      | part hkeyword =>
          rw [← (List.cons.inj heq).1] at hkeyword
          exact (hnone _ hkeyword).elim
  | @part keyword brace ending body behind kind part parts hkeyword hopening hpart hend _ ih =>
      cases hother with
      | nil =>
          rw [List.nil_append] at heq
          subst heq
          rw [List.cons_append, List.cons_append, List.append_assoc] at hmore
          exact (hmore.not_part hkeyword hopening hend hpart).elim
      | noise _ hnone =>
          rw [(List.cons.inj heq).1] at hkeyword
          exact (hnone _ hkeyword).elim
      | part hkeywordOther _ hpartOther hendOther hbehindOther =>
          simp only [List.cons_append, List.append_assoc, List.cons.injEq, allQuoted_cons]
            at heq hquoted
          obtain ⟨rfl, rfl, hbodies⟩ := heq
          obtain ⟨-, -, hbody⟩ := hquoted
          obtain rfl := keywordKind_inj (hkeyword.symm.trans hkeywordOther)
          obtain ⟨-, hrest, rfl⟩ := hpart.unique hpartOther hopening hend hendOther hbodies hbody
          rw [allQuoted_append, allQuoted_cons] at hbody
          obtain ⟨hsame, rfl⟩ := ih hbehindOther hrest hbody.2.2
          exact ⟨hsame, rfl⟩

/-! ## Ends of components -/

/-- A component is begun, and no whole component goes on behind it. -/
inductive StopsComponents : List Token → Prop
  | intro {keyword : Token} {tokens : List Token} :
      keyword.kind = .component →
        (∀ name opening inner closing rest parts,
          tokens = name :: opening :: (inner ++ closing :: rest) → name.kind = .identifier →
            opening.kind = .leftBrace → DerivesParts inner parts → closing.kind = .rightBrace →
              rest = []) →
          StopsComponents (keyword :: tokens)

theorem StopsComponents.rest_eq_nil {keyword name opening closing : Token}
    {inner rest : List Token} {parts : List Part}
    (h : StopsComponents (keyword :: name :: opening :: (inner ++ closing :: rest)))
    (hname : name.kind = .identifier) (hopening : opening.kind = .leftBrace)
    (hparts : DerivesParts inner parts) (hclosing : closing.kind = .rightBrace) : rest = [] := by
  cases h with
  | intro _ hwhole => exact hwhole _ _ _ _ _ _ rfl hname hopening hparts hclosing

theorem StopsComponents.ne_nil {tokens : List Token} (h : StopsComponents tokens) :
    tokens ≠ [] := by
  cases h
  simp

/-- Tokens begin with one sequence of components at most. -/
theorem DerivesOutlines.unique_append {front others tokens more : List Token}
    {outlines found : List Outline} (h : DerivesOutlines front outlines)
    (hother : DerivesOutlines others found) (hstops : StopsComponents tokens)
    (hmore : StopsComponents more) (heq : front ++ tokens = others ++ more)
    (hquoted : AllQuoted (front ++ tokens)) : tokens = more ∧ outlines = found := by
  induction h generalizing others found with
  | nil =>
      rw [List.nil_append] at heq
      subst heq
      cases hother with
      | nil => exact ⟨rfl, rfl⟩
      | noise hkind =>
          obtain ⟨hkeyword, -⟩ := hstops
          exact (hkind hkeyword).elim
      | component _ hname hopening hparts hclosing =>
          simp only [List.cons_append, List.append_assoc] at hstops
          have hnone := hstops.rest_eq_nil hname hopening hparts hclosing
          exact (hmore.ne_nil (List.append_eq_nil_iff.mp hnone).2).elim
  | noise hkind _ ih =>
      have hrest := ((allQuoted_cons _ _).mp hquoted).2
      cases hother with
      | nil =>
          rw [List.nil_append] at heq
          subst heq
          obtain ⟨hkeyword, -⟩ := hmore
          exact (hkind hkeyword).elim
      | noise _ hbehind =>
          exact ih hbehind (List.cons.inj heq).2 hrest
      | component hkeyword =>
          rw [← (List.cons.inj heq).1] at hkeyword
          exact (hkind hkeyword).elim
  | component hkeyword hname hopening hparts hclosing _ ih =>
      cases hother with
      | nil =>
          rw [List.nil_append] at heq
          subst heq
          simp only [List.cons_append, List.append_assoc] at hmore
          have hnone := hmore.rest_eq_nil hname hopening hparts hclosing
          exact (hstops.ne_nil (List.append_eq_nil_iff.mp hnone).2).elim
      | noise hkind =>
          rw [(List.cons.inj heq).1] at hkeyword
          exact (hkind hkeyword).elim
      | component _ _ _ hpartsOther hclosingOther hbehindOther =>
          simp only [List.cons_append, List.append_assoc, List.cons.injEq, allQuoted_cons]
            at heq hquoted
          obtain ⟨rfl, rfl, rfl, hbodies⟩ := heq
          obtain ⟨-, -, -, hbody⟩ := hquoted
          obtain ⟨hends, rfl⟩ := hparts.unique hpartsOther (.closing hclosing)
            (.closing hclosingOther) hbodies hbody
          rw [allQuoted_append, allQuoted_cons] at hbody
          obtain ⟨hsame, rfl⟩ := ih hbehindOther (List.cons.inj hends).2 hbody.2.2
          exact ⟨hsame, rfl⟩

/-- The tokens determine the outlines. -/
theorem DerivesOutlines.unique {tokens : List Token} {outlines others : List Outline}
    (h : DerivesOutlines tokens outlines) (hother : DerivesOutlines tokens others)
    (hquoted : AllQuoted tokens) : others = outlines := by
  -- A keyword with nothing behind it stops both sequences in the same place.
  have hstops : StopsComponents [⟨.component, "component"⟩] := by
    refine .intro rfl ?_
    intro name opening inner closing rest parts heq
    cases heq
  have hall : AllQuoted (tokens ++ [⟨.component, "component"⟩]) := by
    simp [hquoted, quoted_of_kind_ne]
  exact (hother.unique_append h hstops hstops rfl hall).2

/-! ## Components that are not accepted -/

theorem Breaks.stopsBody {name : String} {taken : List String} {tokens : List Token}
    (h : Breaks name taken tokens) : StopsBody tokens := by
  cases h with
  | nil => exact .nil
  | within hkeyword hunclosed => exact .within hkeyword hunclosed
  | repeated hclosing => exact .closing hclosing

/-- A component that is not accepted is whole at its last token at most. -/
theorem Breaks.rest_eq_nil {name : String} {taken : List String} {closing : Token}
    {rest : List Token} (h : Breaks name taken (closing :: rest))
    (hclosing : closing.kind = .rightBrace) : rest = [] := by
  cases h with
  | within hkeyword => exact (keywordKind_ne_rightBrace _ (hkeyword.symm.trans hclosing)).elim
  | repeated => rfl

theorem Unfinished.stopsComponents {taken : List String} {keyword : Token} {tokens : List Token}
    {parts : List Part} (h : Unfinished taken tokens parts) (hkeyword : keyword.kind = .component)
    (hquoted : AllQuoted tokens) : StopsComponents (keyword :: tokens) := by
  refine .intro hkeyword ?_
  intro name opening inner closing rest found heq _ _ hfound hclosing
  cases h with
  | unnamed hlength =>
      rw [heq] at hlength
      simp at hlength
  | opened _ _ hparts hbreaks =>
      simp only [List.cons.injEq] at heq
      obtain ⟨rfl, rfl, hbodies⟩ := heq
      simp only [allQuoted_cons] at hquoted
      obtain ⟨-, -, hbody⟩ := hquoted
      obtain ⟨rfl, -⟩ :=
        hparts.unique hfound hbreaks.stopsBody (.closing hclosing) hbodies hbody
      exact hbreaks.rest_eq_nil hclosing

/-- What is whole of a component that is not accepted is decided by its tokens. -/
theorem Unfinished.unique {taken others : List String} {tokens : List Token}
    {parts found : List Part} (h : Unfinished taken tokens parts)
    (hother : Unfinished others tokens found) (hquoted : AllQuoted tokens) : parts = found := by
  generalize hsame : tokens = same at hother
  cases h with
  | unnamed hlength =>
      cases hother with
      | unnamed => rfl
      | opened =>
          rw [hsame] at hlength
          simp at hlength
  | opened _ _ hparts hbreaks =>
      cases hother with
      | unnamed hlength =>
          rw [← hsame] at hlength
          simp at hlength
      | opened _ _ hpartsOther hbreaksOther =>
          simp only [List.cons.injEq] at hsame
          obtain ⟨-, -, hbodies⟩ := hsame
          simp only [allQuoted_cons] at hquoted
          obtain ⟨-, -, hbody⟩ := hquoted
          exact (hparts.unique hpartsOther hbreaks.stopsBody hbreaksOther.stopsBody hbodies hbody).2

/-- The tokens up to a refusal determine what of them is whole. -/
theorem Interrupted.unique {tokens : List Token} {outlines others : List Outline}
    {parts found : List Part} (h : Interrupted tokens outlines parts)
    (hother : Interrupted tokens others found) (hquoted : AllQuoted tokens) :
    others = outlines ∧ found = parts := by
  obtain @⟨front, behind, keyword, _, _, houtlines, hkeyword, hunfinished⟩ := h
  generalize hsame : front ++ keyword :: behind = same at hother
  obtain @⟨frontOther, behindOther, keywordOther, _, _, houtlinesOther, hkeywordOther,
    hunfinishedOther⟩ := hother
  have hbehind : AllQuoted behind := by
    simp only [allQuoted_append, allQuoted_cons] at hquoted
    exact hquoted.2.2
  have hbehindOther : AllQuoted behindOther := by
    rw [hsame] at hquoted
    simp only [allQuoted_append, allQuoted_cons] at hquoted
    exact hquoted.2.2
  obtain ⟨hrest, rfl⟩ := houtlines.unique_append houtlinesOther
    (hunfinished.stopsComponents hkeyword hbehind)
    (hunfinishedOther.stopsComponents hkeywordOther hbehindOther) hsame hquoted
  obtain ⟨-, rfl⟩ := List.cons.inj hrest
  exact ⟨rfl, hunfinishedOther.unique hunfinished hbehind⟩

end Grammar
end SiteCompiler
