import SiteCompiler.Proofs.Grammar.Program
import SiteCompiler.Proofs.Grammar.Steps
import Mathlib.Logic.Relation

/-!
# Noise

Between components, and between the blocks of a component, a reader passes over
tokens that begin nothing.  It remembers none of them: no brace among them is
counted, and no keyword or name is kept for later.

* `PassesOver` - what is passed over, by where the reader stands.
* `AddsNoise`, `AddsNoise.parse_eq` - a run of such tokens, put where they are
  passed over, and that the result stays the same.
* `withoutNoise`, `reflTransGen_addsNoise`, `noiseFree_withoutNoise` - the tokens
  that remain if all noise is deleted.
* `parse_of_noise` - a program is read whatever noise there is.
-/

namespace SiteCompiler
namespace Grammar

variable {π : Type}

/-! ## One place -/

/-- The reader passes over a token where it stands; inside blocks, and in front of the name and the
opening brace of a component, it passes over none. -/
def PassesOver : Mode π → Token → Prop
  | .outside, token => token.kind ∉ [.component, .endOfInput]
  | .between _, token =>
    token.kind ∉ [.rightBrace, .state, .style, .interface, .events, .endOfInput]
  | _, _ => False

instance : (mode : Mode π) → (token : Token) → Decidable (PassesOver mode token)
  | .outside, token => inferInstanceAs (Decidable (token.kind ∉ _))
  | .between _, token => inferInstanceAs (Decidable (token.kind ∉ _))
  | .naming, _ => .isFalse id
  | .opening _, _ => .isFalse id
  | .within _ _, _ => .isFalse id

/-- What is passed over leaves the reader where it was. -/
theorem PassesOver.moves {progress : Progress π} {placed : Placed π}
    (h : PassesOver progress.mode placed.token) : ∃ told, Moves progress placed progress told := by
  obtain ⟨components, mode⟩ := progress
  cases mode with
  | outside =>
      have hkind : placed.token.kind ≠ .component := by
        intro heq
        simp [PassesOver, heq] at h
      exact ⟨_, .skipOutside hkind⟩
  | between draft =>
      have hkind : placed.token.kind ≠ .rightBrace := by
        intro heq
        simp [PassesOver, heq] at h
      have hblock : placed.token.kind.block? = none := by
        rw [block?_eq_none_iff]
        rintro (_ | _ | _ | _) heq <;> simp [PassesOver, heq, keywordKind] at h
      exact ⟨_, .skipInside hkind hblock⟩
  | naming | opening | within => exact h.elim

theorem leads_of_passesOver {origin progress : Progress π} {front run : List (Placed π)}
    {records : List Record} (hleads : Leads origin front progress records)
    (hrun : ∀ placed ∈ run, PassesOver progress.mode placed.token) :
    ∃ told, Leads origin (front ++ run) progress told := by
  induction run generalizing front records with
  | nil =>
      rw [List.append_nil]
      exact ⟨records, hleads⟩
  | cons placed run ih =>
      obtain ⟨hplaced, hrest⟩ := List.forall_mem_cons.mp hrun
      obtain ⟨told, hmove⟩ := hplaced.moves
      have hall := ih (hleads.snoc hmove) hrest
      rwa [List.append_assoc, List.singleton_append] at hall

/-! ## Noise in a list -/

/-- A run of tokens is put into a list where the reader passes over each of them. -/
inductive AddsNoise : List (Placed π) → List (Placed π) → Prop
  | intro {front run back : List (Placed π)} {progress : Progress π} {records : List Record} :
      Leads .start front progress records →
        (∀ placed ∈ front, placed.token.kind ≠ .endOfInput) →
          (∀ placed ∈ run, PassesOver progress.mode placed.token) →
            AddsNoise (front ++ back) (front ++ (run ++ back))

/-- A reading that has come somewhere goes on with the tokens behind. -/
theorem parse_append_of_leads {front : List (Placed π)} {progress : Progress π}
    {records : List Record} (hleads : Leads .start front progress records)
    (hfront : ∀ placed ∈ front, placed.token.kind ≠ .endOfInput) (nowhere : π)
    (back : List (Placed π)) :
    (TokenStream.ofTokens nowhere (front ++ back)).parse.result =
      (progress.run (TokenStream.ofTokens nowhere back).finish
        (TokenStream.ofTokens nowhere back).tokens).result := by
  rw [ofTokens_append hfront, TokenStream.parse, run_append hleads]

theorem PassesOver.ne_endOfInput {mode : Mode π} {token : Token} (h : PassesOver mode token) :
    token.kind ≠ .endOfInput := by
  intro heq
  cases mode <;> simp [PassesOver, heq] at h

/-- Noise changes neither the program nor the error, nor the place of the error. -/
theorem AddsNoise.parse_eq {tokens more : List (Placed π)} (h : AddsNoise tokens more)
    (nowhere : π) :
    (TokenStream.ofTokens nowhere more).parse.result =
      (TokenStream.ofTokens nowhere tokens).parse.result := by
  obtain ⟨hleads, hfront, hrun⟩ := h
  rename_i front run back progress records
  obtain ⟨told, hlonger⟩ := leads_of_passesOver hleads hrun
  have hboth : ∀ placed ∈ front ++ run, placed.token.kind ≠ .endOfInput := by
    intro placed hplaced
    rcases List.mem_append.mp hplaced with hmem | hmem
    · exact hfront placed hmem
    · exact (hrun placed hmem).ne_endOfInput
  rw [← List.append_assoc, parse_append_of_leads hlonger hboth, parse_append_of_leads hleads hfront]

theorem parse_eq_of_eqvGen {tokens other : List (Placed π)}
    (h : Relation.EqvGen AddsNoise tokens other) (nowhere : π) :
    (TokenStream.ofTokens nowhere other).parse.result =
      (TokenStream.ofTokens nowhere tokens).parse.result := by
  induction h with
  | rel _ _ hnoise => exact hnoise.parse_eq nowhere
  | refl _ => rfl
  | symm _ _ _ ih => exact ih.symm
  | trans _ _ _ _ _ ih ihmore => exact ihmore.trans ih

/-! ## All noise -/

/-- The tokens of a list that a reader does not pass over, up to the end of input or to the first
token that it refuses. -/
def withoutNoise (progress : Progress π) : List (Placed π) → List (Placed π)
  | [] => []
  | placed :: tokens =>
    if placed.token.kind = .endOfInput then placed :: tokens
    else
      match progress.step placed with
      | .error _ => placed :: tokens
      | .ok (next, _) =>
        if PassesOver progress.mode placed.token then withoutNoise next tokens
        else placed :: withoutNoise next tokens

/-- As far as the list is read, nothing of it is passed over. -/
def NoiseFree (origin : Progress π) (tokens : List (Placed π)) : Prop :=
  ∀ front placed back progress records, tokens = front ++ placed :: back →
    (∀ other ∈ front, other.token.kind ≠ .endOfInput) → Leads origin front progress records →
      ¬ PassesOver progress.mode placed.token

section WithoutNoise

variable {origin progress : Progress π} {front tokens : List (Placed π)} {records : List Record}

/-- The deleted tokens can be put back. -/
theorem reflTransGen_addsNoise (hleads : Leads .start front progress records)
    (hfront : ∀ placed ∈ front, placed.token.kind ≠ .endOfInput) :
    Relation.ReflTransGen AddsNoise (front ++ withoutNoise progress tokens) (front ++ tokens) := by
  -- The front grows by the tokens that remain, and never by noise: it is read to the same place.
  induction tokens generalizing front progress records with
  | nil => exact .refl
  | cons placed tokens ih =>
      rw [withoutNoise]
      split
      · exact .refl
      rename_i hkind
      split
      · exact .refl
      rename_i next told hstep
      have hmove := (step_eq_ok_iff _ _ _ _).mp hstep
      split
      · rename_i hpasses
        obtain ⟨other, hstay⟩ := hpasses.moves
        rw [(step_eq_ok_iff _ _ _ _).mpr hstay] at hstep
        cases hstep
        have hnoise : AddsNoise (front ++ tokens) (front ++ ([placed] ++ tokens)) :=
          .intro hleads hfront (by simpa using hpasses)
        exact (ih hleads hfront).tail hnoise
      · have hlonger : ∀ other ∈ front ++ [placed], other.token.kind ≠ .endOfInput := by
          simpa [or_imp, forall_and] using ⟨hfront, hkind⟩
        have hall := ih (hleads.snoc hmove) hlonger
        simpa only [List.append_assoc, List.singleton_append] using hall

theorem noiseFree_cons {placed : Placed π} (hplaced : ¬ PassesOver origin.mode placed.token)
    (htokens : ∀ next told, placed.token.kind ≠ .endOfInput → Moves origin placed next told →
      NoiseFree next tokens) :
    NoiseFree origin (placed :: tokens) := by
  intro front last back progress records heq hfront hleads
  cases front with
  | nil =>
      cases heq
      rwa [hleads.eq_of_nil]
  | cons first front =>
      obtain ⟨rfl, rfl⟩ := List.cons.inj heq
      obtain ⟨hkind, hrest⟩ := List.forall_mem_cons.mp hfront
      obtain ⟨next, told, _, hmove, hmore⟩ := hleads.exists_first
      exact htokens next told hkind hmove front last back progress _ rfl hrest hmore

theorem noiseFree_withoutNoise (origin : Progress π) (tokens : List (Placed π)) :
    NoiseFree origin (withoutNoise origin tokens) := by
  induction tokens generalizing origin with
  | nil =>
      intro front placed back progress records heq
      simp [withoutNoise] at heq
  | cons placed tokens ih =>
      rw [withoutNoise]
      split
      · rename_i hkind
        exact noiseFree_cons (fun h => h.ne_endOfInput hkind) fun _ _ hother => (hother hkind).elim
      cases hstep : origin.step placed with
      | error refusal =>
          -- No move begins at a token that is refused.
          have hrefused (next : Progress π) (told : List Record) :
              ¬ Moves origin placed next told := by
            rw [← step_eq_ok_iff, hstep]
            rintro ⟨⟩
          refine noiseFree_cons (fun h => ?_) fun next told _ hmove =>
            (hrefused next told hmove).elim
          obtain ⟨told, hmove⟩ := h.moves
          exact hrefused origin told hmove
      | ok behind =>
          show NoiseFree origin (if PassesOver origin.mode placed.token then
            withoutNoise behind.1 tokens else placed :: withoutNoise behind.1 tokens)
          split
          · rename_i hpasses
            obtain ⟨told, hstay⟩ := hpasses.moves
            rw [(step_eq_ok_iff _ _ _ _).mpr hstay] at hstep
            cases hstep
            exact ih origin
          · rename_i hheeded
            refine noiseFree_cons hheeded fun next told _ hmove => ?_
            rw [(step_eq_ok_iff _ _ _ _).mpr hmove] at hstep
            cases hstep
            exact ih next

end WithoutNoise

/-- A list of tokens that is read as a program is read as the same program whatever noise is put
into it or deleted from it, and so is what remains without any noise. -/
theorem parse_of_noise (nowhere : π) {tokens : List (Placed π)} {program : Program}
    (h : (TokenStream.ofTokens nowhere tokens).parse.result = .ok program) :
    (∀ other, Relation.EqvGen AddsNoise tokens other →
        (TokenStream.ofTokens nowhere other).parse.result = .ok program) ∧
      (TokenStream.ofTokens nowhere (withoutNoise .start tokens)).parse.result = .ok program ∧
        Relation.ReflTransGen AddsNoise (withoutNoise .start tokens) tokens ∧
          NoiseFree .start (withoutNoise .start tokens) := by
  have hall (other : List (Placed π)) (hother : Relation.EqvGen AddsNoise tokens other) :
      (TokenStream.ofTokens nowhere other).parse.result = .ok program :=
    (parse_eq_of_eqvGen hother nowhere).trans h
  have hback : Relation.ReflTransGen AddsNoise (withoutNoise .start tokens) tokens :=
    reflTransGen_addsNoise .nil (by simp)
  have hdeleted := Relation.EqvGen.reflTransGen_le_eqvGen AddsNoise _ _ hback
  exact ⟨hall, hall _ (.symm _ _ hdeleted), hback, noiseFree_withoutNoise .start tokens⟩

/-- The beginning of a component. -/
def openedComponent : List (Placed Unit) :=
  [⟨.component, "component"⟩, ⟨.identifier, "A"⟩, ⟨.leftBrace, "\x7b"⟩].map bare

/-- The end of a component. -/
def closedComponent : List (Placed Unit) :=
  [⟨.rightBrace, "\x7d"⟩, .finish].map bare

/-- The beginning of another component, which has no end. -/
def otherBeginning : List (Placed Unit) :=
  [⟨.component, "component"⟩, ⟨.identifier, "B"⟩, ⟨.leftBrace, "\x7b"⟩].map bare

/-- The beginning of another component is noise inside a component, the brace that it leaves open
included. -/
theorem parse_of_noise_unclosed_brace :
    (TokenStream.ofTokens () (openedComponent ++ closedComponent)).parse.result =
        .ok ⟨[⟨"A", []⟩]⟩ ∧
      AddsNoise (openedComponent ++ closedComponent)
        (openedComponent ++ (otherBeginning ++ closedComponent)) ∧
        (TokenStream.ofTokens ()
          (openedComponent ++ (otherBeginning ++ closedComponent))).parse.result =
            .ok ⟨[⟨"A", []⟩]⟩ := by
  have hread : (TokenStream.ofTokens () (openedComponent ++ closedComponent)).parse.result =
      .ok ⟨[⟨"A", []⟩]⟩ := rfl
  have hkeyword : Moves .start (bare ⟨.component, "component"⟩) ⟨[], .naming⟩ [] := .keyword rfl
  have hname : Moves ⟨[], .naming⟩ (bare ⟨.identifier, "A"⟩) ⟨[], .opening ⟨"A", (), []⟩⟩ [] :=
    .name rfl rfl
  have hopening : Moves ⟨[], .opening ⟨"A", (), []⟩⟩ (bare ⟨.leftBrace, "\x7b"⟩)
      ⟨[], .between ⟨"A", (), []⟩⟩ [] := .opening rfl
  have hopened : Leads .start openedComponent ⟨[], .between ⟨"A", (), []⟩⟩ [] :=
    ((Leads.nil.snoc hkeyword).snoc hname).snoc hopening
  have hnoise : AddsNoise (openedComponent ++ closedComponent)
      (openedComponent ++ (otherBeginning ++ closedComponent)) :=
    .intro hopened (by decide) (by decide)
  exact ⟨hread, hnoise, (parse_of_noise () hread).1 _ (.rel _ _ hnoise)⟩

end Grammar
end SiteCompiler
