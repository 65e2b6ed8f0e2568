import SiteCompiler.Proofs.Grammar.Program

/-!
# Where the parts of a program stand

A derivation can be opened at one component, and there at one event handler.
What is taken out is the tokens between a pair of braces; the tokens around them
derive the parts of the program that stand before and behind.

* `ComponentAt`, `HandlerAt` - the tokens between the braces of a component, and
  between those of a handler.
* `exists_componentAt`, `exists_handlerAt` - every component and every handler of a
  program stands somewhere in its tokens.
* `bodyText_eq_of_handlerAt` - a handler can be taken out at its place only, with
  the text of its own body.
-/

namespace SiteCompiler
namespace Grammar

/-- Behind the tokens of `before` stands a component of this name, with `inner` between its braces,
and behind it stand the tokens of `after`. -/
inductive ComponentAt (before : List Component) (name : String) (after : List Component)
    (inner : List Token) : List Token → Prop
  | intro {front rest : List Token} {keyword opening closing : Token} :
      DerivesComponents front before → keyword.kind = .component → opening.kind = .leftBrace →
        closing.kind = .rightBrace → DerivesComponents rest after →
          ComponentAt before name after inner
            (front ++ keyword :: ⟨.identifier, name⟩ :: opening :: (inner ++ closing :: rest))

/-- Behind the tokens of `earlier` stands a block of events whose first handler has this name, with
`body` between its braces, and behind the block stand the tokens of `later`.  As the body is
balanced, its closing brace is the partner of its opening brace. -/
inductive HandlerAt (earlier : List Block) (name : String) (later : List Block)
    (body : List Token) : List Token → Prop
  | intro {front others rest : List Token} {handlers : List Handler}
      {keyword opening arrow bodyOpening bodyClosing closing : Token} :
      DerivesBlocks front earlier → keyword.kind = .events → opening.kind = .leftBrace →
        arrow.kind = .arrow → bodyOpening.kind = .leftBrace → Balanced body →
          bodyClosing.kind = .rightBrace → DerivesHandlers others handlers →
            closing.kind = .rightBrace → DerivesBlocks rest later →
              HandlerAt earlier name later body
                (front ++ keyword :: opening ::
                  ((⟨.identifier, name⟩ :: arrow :: bodyOpening ::
                    (body ++ bodyClosing :: others)) ++ closing :: rest))

/-! ## Derivations in a row -/

theorem DerivesBlocks.append {tokens more : List Token} {blocks others : List Block}
    (h : DerivesBlocks tokens blocks) (hmore : DerivesBlocks more others) :
    DerivesBlocks (tokens ++ more) (blocks ++ others) := by
  induction h with
  | nil => exact hmore
  | noise hclosing hkeyword _ ih => exact .noise hclosing hkeyword ih
  | block hkeyword hopening hblock hclosing _ ih =>
      simpa using DerivesBlocks.block hkeyword hopening hblock hclosing ih

theorem DerivesComponents.append {tokens more : List Token} {components others : List Component}
    (h : DerivesComponents tokens components) (hmore : DerivesComponents more others) :
    DerivesComponents (tokens ++ more) (components ++ others) := by
  induction h with
  | nil => exact hmore
  | noise hkind _ ih => exact .noise hkind ih
  | component hkeyword hname hcan hopening hblocks honce hclosing _ ih =>
      simpa using
        DerivesComponents.component hkeyword hname hcan hopening hblocks honce hclosing ih

theorem ComponentAt.behind {before earlier after : List Component} {name : String}
    {inner tokens more : List Token} (h : ComponentAt before name after inner tokens)
    (hmore : DerivesComponents more earlier) :
    ComponentAt (earlier ++ before) name after inner (more ++ tokens) := by
  cases h with
  | intro hfront hkeyword hopening hclosing hrest =>
      rw [← List.append_assoc]
      exact .intro (hmore.append hfront) hkeyword hopening hclosing hrest

theorem HandlerAt.behind {before earlier later : List Block} {name : String}
    {body tokens more : List Token} (h : HandlerAt before name later body tokens)
    (hmore : DerivesBlocks more earlier) :
    HandlerAt (earlier ++ before) name later body (more ++ tokens) := by
  cases h with
  | intro hfront hkeyword hopening harrow hbodyOpening hbody hbodyClosing hothers hclosing
      hrest =>
      rw [← List.append_assoc]
      exact .intro (hmore.append hfront) hkeyword hopening harrow hbodyOpening hbody hbodyClosing
        hothers hclosing hrest

/-! ## Opening a derivation -/

/-- Every component of a sequence stands at its place. -/
theorem exists_componentAt {tokens : List Token} {before after : List Component}
    {component : Component} (h : DerivesComponents tokens (before ++ component :: after)) :
    ∃ inner, ComponentAt before component.name after inner tokens ∧
      DerivesBlocks inner component.blocks ∧ CanName component.name ∧
      OncePerKind component.blocks := by
  generalize hcomponents : before ++ component :: after = components at h
  induction h generalizing before with
  | nil => simp at hcomponents
  | @noise token rest components hkind _ ih =>
      obtain ⟨inner, hat, hinner⟩ := ih hcomponents
      exact ⟨inner, hat.behind (.noise hkind .nil), hinner⟩
  | @component keyword name opening closing inner rest blocks components hkeyword hname hcan
      hopening hblocks honce hclosing hrest ih =>
      cases before with
      | nil =>
          obtain ⟨rfl, rfl⟩ := List.cons.inj hcomponents
          obtain ⟨kind, lexeme⟩ := name
          cases hname
          exact ⟨inner, .intro .nil hkeyword hopening hclosing hrest, hblocks, hcan, honce⟩
      | cons first before =>
          obtain ⟨rfl, hothers⟩ := List.cons.inj hcomponents
          obtain ⟨found, hat, hfound⟩ := ih hothers
          -- The first component goes in front of the others.
          have hfirst := DerivesComponents.component hkeyword hname hcan hopening hblocks honce
            hclosing .nil
          exact ⟨found, by simpa using hat.behind hfirst, hfound⟩

/-- Every handler of a component stands at its place. -/
theorem exists_handlerAt {inner : List Token} {earlier later : List Block} {handler : Handler}
    (h : DerivesBlocks inner (earlier ++ .event handler :: later)) :
    ∃ body, HandlerAt earlier handler.name later body inner := by
  generalize hblocks : earlier ++ .event handler :: later = blocks at h
  induction h generalizing earlier with
  | nil => simp at hblocks
  | @noise token rest blocks hclosing hkeyword _ ih =>
      obtain ⟨body, hat⟩ := ih hblocks
      exact ⟨body, hat.behind (.noise hclosing hkeyword .nil)⟩
  | @block keyword opening closing inner rest kind result blocks hkeyword hopening hblock hclosing
      hrest ih =>
      have hfirst := DerivesBlocks.block hkeyword hopening hblock hclosing .nil
      cases result with
      | none =>
          -- A block of events without a handler is only something to go past.
          obtain ⟨body, hat⟩ := ih hblocks
          exact ⟨body, by simpa using hat.behind hfirst⟩
      | some found =>
          cases earlier with
          | nil =>
              obtain ⟨rfl, rfl⟩ := List.cons.inj hblocks
              generalize hresult : some (Block.event handler) = result at hblock
              cases hblock with
              | state | style | interface => cases hresult
              | events hhandlers =>
                  cases hhandlers with
                  | nil => cases hresult
                  | @cons name arrow bodyOpening bodyClosing body others handlers hname harrow
                      hbodyOpening hbody hbodyClosing hothers =>
                      obtain ⟨kind, lexeme⟩ := name
                      cases hname
                      cases hresult
                      exact ⟨body, .intro .nil hkeyword hopening harrow hbodyOpening hbody
                        hbodyClosing hothers hclosing hrest⟩
          | cons first earlier =>
              obtain ⟨rfl, hothers⟩ := List.cons.inj hblocks
              obtain ⟨body, hat⟩ := ih hothers
              exact ⟨body, by simpa using hat.behind hfirst⟩

/-! ## Closing it again -/

theorem ComponentAt.derives {before after : List Component} {name : String}
    {inner tokens : List Token} {blocks : List Block}
    (h : ComponentAt before name after inner tokens) (hcan : CanName name)
    (hblocks : DerivesBlocks inner blocks) (honce : OncePerKind blocks) :
    DerivesComponents tokens (before ++ ⟨name, blocks⟩ :: after) := by
  cases h with
  | intro hfront hkeyword hopening hclosing hrest =>
      have hname : (Token.mk .identifier name).kind = .identifier := rfl
      exact hfront.append (.component hkeyword hname hcan hopening hblocks honce hclosing hrest)

theorem HandlerAt.derives {earlier later : List Block} {name : String} {body inner : List Token}
    (h : HandlerAt earlier name later body inner) :
    DerivesBlocks inner (earlier ++ .event ⟨name, bodyText body⟩ :: later) := by
  cases h with
  | @intro _ _ _ _ keyword _ _ _ _ _ hfront hkeyword hopening harrow hbodyOpening hbody
      hbodyClosing hothers hclosing hrest =>
      have hname : (Token.mk .identifier name).kind = .identifier := rfl
      have hevents : keyword.kind = keywordKind .events := hkeyword
      have hhandlers := DerivesHandlers.cons hname harrow hbodyOpening hbody hbodyClosing hothers
      exact hfront.append (.block hevents hopening (.events hhandlers) hclosing hrest)

theorem oncePerKind_of_map_kind {blocks others : List Block}
    (hkinds : blocks.map Block.kind = others.map Block.kind) (h : OncePerKind blocks) :
    OncePerKind others := by
  unfold OncePerKind at h ⊢
  have hmap : (blocks.map Block.kind).Pairwise fun earlier later =>
      earlier = later → earlier = .events := List.pairwise_map.mpr h
  rw [hkinds] at hmap
  exact List.pairwise_map.mp hmap

/-- At the place of a handler stands the body of that handler. -/
theorem bodyText_eq_of_handlerAt {tokens : List Token} {program : Program}
    (hquoted : AllQuoted tokens) (h : Derives tokens program)
    {before after : List Component} {component : Component}
    (hcomponents : program.components = before ++ component :: after)
    {earlier later : List Block} {handler : Handler}
    (hblocks : component.blocks = earlier ++ .event handler :: later)
    {inner body : List Token} (hcomponent : ComponentAt before component.name after inner tokens)
    (hhandler : HandlerAt earlier handler.name later body inner) :
    bodyText body = handler.body := by
  obtain ⟨components⟩ := program
  obtain ⟨name, blocks⟩ := component
  obtain ⟨method, text⟩ := handler
  cases hcomponents
  cases hblocks
  obtain ⟨-, -, -, hcan, honce⟩ := exists_componentAt h.1
  -- What was found at the place makes a program, and the tokens have only one.
  have honceFound : OncePerKind (earlier ++ .event ⟨method, bodyText body⟩ :: later) :=
    oncePerKind_of_map_kind (by simp [Block.kind]) honce
  have hfound : Derives tokens
      ⟨before ++ ⟨name, earlier ++ .event ⟨method, bodyText body⟩ :: later⟩ :: after⟩ :=
    ⟨hcomponent.derives hcan hhandler.derives honceFound, by simpa using h.2⟩
  simpa using h.unique hquoted hfound

end Grammar
end SiteCompiler
