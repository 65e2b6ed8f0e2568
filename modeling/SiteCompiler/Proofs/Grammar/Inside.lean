import SiteCompiler.Proofs.Grammar.Continues
import SiteCompiler.Proofs.Grammar.Steps

/-!
# Inside an open block

What a reader does inside a block depends on the token at hand alone, and where
it stands there says which tokens it has just read.

* `exists_pair`, `exists_leads_of_pair` - a value is read behind its name and a
  colon.
* `braceDepth?` - open braces, counted with a subtraction that fails at zero.
* `InBody`, `inBody_of_leads` - the depth of a handler body is the count of the
  braces behind its opening brace, and that count never fails.
-/

namespace SiteCompiler
namespace Grammar

variable {π : Type}

/-! ## The tokens before -/

section Leads

variable {tokens : List (Placed π)} {components : List Component} {draft : Draft π}
  {records : List Record}

/-- Inside a block, and behind its keyword, the last token was read inside it too. -/
theorem Leads.exists_before {block : OpenBlock}
    (h : Leads .start tokens ⟨components, .within draft block⟩ records)
    (hblock : ∀ kind, block ≠ .opening kind) :
    ∃ front placed earlier told, tokens = front ++ [placed] ∧
      Leads .start front ⟨components, .within draft earlier⟩ told ∧
      Continues earlier placed.token block := by
  generalize hprogress : (⟨components, .within draft block⟩ : Progress π) = progress at h
  cases h with
  | nil => cases hprogress
  | snoc hleads hmove =>
      subst hprogress
      cases hmove with
      | block => exact (hblock _ rfl).elim
      | more hstep => exact ⟨_, _, _, _, rfl, hleads, (continues_iff _ _ _).mp ⟨_, hstep⟩⟩

/-- Where a value is read, its name and a colon have been read before it. -/
theorem exists_pair {list : Pairs} {property : String}
    (h : Leads .start tokens ⟨components, .within draft (.pairs list (.value property))⟩
      records) :
    ∃ front name colon told, tokens = front ++ [name, colon] ∧
      Leads .start front ⟨components, .within draft (.pairs list .name)⟩ told ∧
      name.token = ⟨.identifier, property⟩ ∧ colon.token.kind = .colon := by
  obtain ⟨front, colon, earlier, told, rfl, hleads, hcontinues⟩ := h.exists_before (by simp)
  cases hcontinues with
  | @opening kind _ _ _ henter => cases kind <;> cases henter
  | pairColon hcolon =>
      obtain ⟨front, name, earlier, told, rfl, hbefore, hcontinues⟩ :=
        hleads.exists_before (by simp)
      generalize hnext : OpenBlock.pairs list (.colon property) = next at hcontinues
      cases hcontinues with
      | @opening kind _ _ _ henter =>
          subst hnext
          cases kind <;> cases henter
      | pairName hname =>
          cases hnext
          exact ⟨front, name, colon, told, by simp, hbefore, by rw [← hname], hcolon⟩
      | _ => cases hnext

/-- Behind a name and a colon a value is read. -/
theorem exists_leads_of_pair {list : Pairs} {property : String} {name colon : Placed π}
    (h : Leads .start tokens ⟨components, .within draft (.pairs list .name)⟩ records)
    (hname : name.token = ⟨.identifier, property⟩) (hcolon : colon.token.kind = .colon) :
    ∃ told, Leads .start (tokens ++ [name, colon])
      ⟨components, .within draft (.pairs list (.value property))⟩ told := by
  have hkind : name.token.kind = .identifier := by rw [hname]
  have hnameMove : Continues (.pairs list .name) name.token (.pairs list (.colon property)) := by
    have hmove : Continues (.pairs list .name) name.token
        (.pairs list (.colon name.token.lexeme)) := .pairName hkind
    rwa [hname] at hmove ⊢
  obtain ⟨_, hnameStep⟩ := (continues_iff _ _ _).mpr hnameMove
  obtain ⟨_, hcolonStep⟩ := (continues_iff _ _ _).mpr (Continues.pairColon hcolon)
  have hleads := (h.snoc (.more hnameStep)).snoc (.more hcolonStep)
  rw [List.append_assoc] at hleads
  exact ⟨_, hleads⟩

/-! ## The depth of a body -/

/-- The number of open braces behind a token.  It cannot be counted behind a closing brace for which
none is open. -/
def braceDepth? (depth : Nat) (token : Token) : Option Nat :=
  if token.kind = .leftBrace then some (depth + 1)
  else if token.kind = .rightBrace then (if depth = 0 then none else some (depth - 1))
  else some depth

/-- The tokens end inside the body of a handler, whose words and whose depth are what stands behind
its opening brace. -/
inductive InBody (tokens : List (Placed π)) (components : List Component) (draft : Draft π)
    (done : List Handler) (name : String) (depth : Nat) (words : List String) : Prop
  | intro {front body : List (Placed π)} {opening : Placed π} {told : List Record} :
      tokens = front ++ opening :: body →
        Leads .start front ⟨components, .within draft (.handlerOpening done name)⟩ told →
          opening.token.kind = .leftBrace →
            words = body.map (fun placed => placed.token.statementWord) →
              (body.map Placed.token).foldlM braceDepth? 0 = some depth →
                InBody tokens components draft done name depth words

theorem InBody.snoc {done : List Handler} {name : String} {depth deeper : Nat}
    {words : List String} (h : InBody tokens components draft done name depth words)
    {placed : Placed π} (hdepth : braceDepth? depth placed.token = some deeper) :
    InBody (tokens ++ [placed]) components draft done name deeper
      (words ++ [placed.token.statementWord]) := by
  obtain ⟨rfl, hleads, hopening, rfl, hcount⟩ := h
  rw [List.append_assoc, List.cons_append]
  refine .intro rfl hleads hopening (by simp) ?_
  rw [List.map_append, List.foldlM_append, hcount]
  simp [hdepth]

/-- Wherever a reader stands in the body of a handler, no count of its braces has failed. -/
theorem inBody_of_leads {done : List Handler} {name : String} {depth : Nat} {words : List String}
    (h : Leads .start tokens ⟨components, .within draft (.statements done name depth words)⟩
      records) : InBody tokens components draft done name depth words := by
  generalize hprogress :
    (⟨components, .within draft (.statements done name depth words)⟩ : Progress π) = progress at h
  induction h generalizing depth words with
  | nil => cases hprogress
  | snoc hleads hmove ih =>
      subst hprogress
      cases hmove with
      | more hstep =>
          have hcontinues := (continues_iff _ _ _).mp ⟨_, hstep⟩
          cases hcontinues with
          | @opening kind _ _ _ henter => cases kind <;> cases henter
          | handlerOpening hopening => exact .intro rfl hleads hopening rfl rfl
          | word hleft hright => exact (ih rfl).snoc (by simp [braceDepth?, hleft, hright])
          | innerOpening hleft => exact (ih rfl).snoc (by simp [braceDepth?, hleft])
          | innerClosing hright => exact (ih rfl).snoc (by simp [braceDepth?, hright])

end Leads

end Grammar
end SiteCompiler
