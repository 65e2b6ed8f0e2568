import SiteCompiler.Proofs.Compile.Stages

/-!
# Layout does not matter

Blanks, comments and line breaks decide where the tokens of a source stand, and
nothing else.  Sources with the same tokens are compiled to the same site, or are
refused for the same cause, and the same token is blamed, wherever it stands.

* `indexed` - tokens that stand at their index, for want of a text.
* `run_eq_map_indexed` - a reading of tokens anywhere is the reading of indexed
  tokens, with the places put back.
* `compile_of_same_tokens` - two sources with the same tokens.
-/

namespace SiteCompiler
namespace Layout

open Grammar Stages

variable {π : Type}

/-- Each token placed at its index. -/
def indexed (tokens : List Token) : List (Placed Nat) :=
  tokens.mapIdx fun index token => ⟨token, index⟩

/-- The place of the token of an index; behind the tokens it is the place of their end. -/
def placeAt (body : List (Placed π)) (finish : π) (index : Nat) : π :=
  ((body.map Placed.place)[index]?).getD finish

/-! ## Places put back -/

theorem placeAt_length (body : List (Placed π)) (finish : π) :
    placeAt body finish body.length = finish := by
  simp [placeAt]

theorem map_placeAt_indexed (body : List (Placed π)) (finish : π) :
    (indexed (body.map Placed.token)).map (Placed.map (placeAt body finish)) = body := by
  apply List.ext_getElem
  · simp [indexed]
  · intro index hindex hbody
    simp [indexed, placeAt, Placed.map, hbody]

theorem mem_place_indexed_iff (tokens : List Token) (index : Nat) :
    index ∈ (indexed tokens).map Placed.place ↔ index < tokens.length := by
  simp [indexed]

/-- Where tokens stand is found again from the indices. -/
theorem run_eq_map_indexed (body : List (Placed π)) (finish : π) :
    Progress.start.run finish body =
      (Progress.start.run body.length (indexed (body.map Placed.token))).map
        (placeAt body finish) := by
  have hrun := Progress.run_map (placeAt body finish) body.length .start
    (indexed (body.map Placed.token))
  rw [map_placeAt_indexed, placeAt_length] at hrun
  exact hrun

/-! ## Sources -/

/-- A scanned source is compiled by reading its tokens. -/
theorem compile_of_scanned {source : String} {body : List (Placed Span)} {finish : Span}
    (h : Scanned source.toList body finish) :
    compile source = match (Progress.start.run finish body).result with
      | .ok program => .ok program.render
      | .error error => .error (.parse ⟨error.fault, error.place.position⟩) := by
  rw [compile_of_scan_ok h.scan, parse_of_scanned h]
  cases (Progress.start.run finish body).result <;> rfl

/-- The token of an index up to the end of input stands at the place of the index. -/
theorem getElem?_append_finish (body : List (Placed Span)) (finish : Span) {index : Nat}
    (hindex : index ≤ body.length) :
    ∃ placed, (body ++ [⟨.finish, finish⟩])[index]? = some placed ∧
      placed.place = placeAt body finish index := by
  rcases Nat.lt_or_eq_of_le hindex with hlt | rfl
  · exact ⟨body[index], by simp [List.getElem?_append_left hlt, hlt], by simp [placeAt, hlt]⟩
  · exact ⟨⟨.finish, finish⟩, by simp, (placeAt_length body finish).symm⟩

/-- The layout of a source does not reach its site, nor the cause for which it is refused, nor the
token that is blamed.  The index of that token, the end of input included, is found from the tokens
alone, and only its line and its column are those of the one source or of the other. -/
theorem compile_of_same_tokens {first second : String} {placed other : List (Placed Span)}
    (hfirst : scan first = .ok placed) (hsecond : scan second = .ok other)
    (htokens : placed.map Placed.token = other.map Placed.token) :
    (∃ site, compile first = .ok site ∧ compile second = .ok site) ∨
      ∃ fault index blamed blamedOther,
        Blames (indexed (tokensBefore placed)) (tokensBefore placed).length fault index ∧
        placed[index]? = some blamed ∧ other[index]? = some blamedOther ∧
        compile first = .error (.parse ⟨fault, blamed.place.position⟩) ∧
        compile second = .error (.parse ⟨fault, blamedOther.place.position⟩) := by
  obtain ⟨body, finish, hscanned, rfl⟩ := exists_scanned hfirst
  obtain ⟨others, last, hscannedOther, rfl⟩ := exists_scanned hsecond
  have hbodies : body.map Placed.token = others.map Placed.token := by
    simp only [List.map_append] at htokens
    exact (List.append_inj' htokens rfl).1
  have hlength : body.length = others.length := by
    simpa using congrArg List.length hbodies
  -- One reading of indexed tokens stands for both.
  have hrun := run_eq_map_indexed body finish
  have hrunOther := run_eq_map_indexed others last
  rw [← hbodies, ← hlength] at hrunOther
  rw [tokensBefore_append hscanned.body, List.length_map, compile_of_scanned hscanned,
    compile_of_scanned hscannedOther, hrun, hrunOther]
  cases hresult : (Progress.start.run body.length (indexed (body.map Placed.token))).result with
  | ok program => exact .inl ⟨program.render, by simp [Outcome.map, hresult, mapError_ok]⟩
  | error error =>
      obtain ⟨fault, index⟩ := error
      have hblames := (run_eq_error_iff_blames _ _ _ _).mp hresult
      have hindex : index ≤ body.length := by
        rcases hblames.place_mem with hmem | rfl
        · rw [mem_place_indexed_iff, List.length_map] at hmem
          omega
        · exact Nat.le_refl _
      obtain ⟨blamed, hblamed, hplace⟩ := getElem?_append_finish body finish hindex
      obtain ⟨blamedOther, hblamedOther, hplaceOther⟩ :=
        getElem?_append_finish others last (hlength ▸ hindex)
      refine .inr ⟨fault, index, blamed, blamedOther, hblames, hblamed, hblamedOther, ?_, ?_⟩
      · simp [Outcome.map, hresult, mapError_error, ParseError.map, hplace]
      · simp [Outcome.map, hresult, mapError_error, ParseError.map, hplaceOther]

/-- Two tokens in one line. -/
def oneLine : List (Placed Span) :=
  [⟨⟨.component, "component"⟩, ⟨0, 9, ⟨1, 1⟩⟩⟩, ⟨⟨.ifWord, "if"⟩, ⟨10, 12, ⟨1, 11⟩⟩⟩,
    ⟨.finish, ⟨12, 12, ⟨1, 13⟩⟩⟩]

/-- The same tokens in two lines, with a comment between them. -/
def twoLines : List (Placed Span) :=
  [⟨⟨.component, "component"⟩, ⟨0, 9, ⟨1, 1⟩⟩⟩, ⟨⟨.ifWord, "if"⟩, ⟨12, 14, ⟨2, 1⟩⟩⟩,
    ⟨.finish, ⟨14, 14, ⟨2, 3⟩⟩⟩]

/-- The second token is blamed, on the line where it stands. -/
theorem compile_of_same_tokens_line_break :
    scan "component if" = .ok oneLine ∧ scan "component//\nif" = .ok twoLines ∧
      oneLine.map Placed.token = twoLines.map Placed.token ∧
      ∃ fault, Blames (indexed (tokensBefore oneLine)) (tokensBefore oneLine).length fault 1 ∧
        compile "component if" = .error (.parse ⟨fault, ⟨1, 11⟩⟩) ∧
        compile "component//\nif" = .error (.parse ⟨fault, ⟨2, 1⟩⟩) := by
  have hfirst : scan "component if" = .ok oneLine := by decide +kernel
  have hsecond : scan "component//\nif" = .ok twoLines := by decide +kernel
  have hrefused : compile "component if" = .error (.parse
      ⟨.expected .componentName (some ⟨.ifWord, "if"⟩), ⟨1, 11⟩⟩) := by decide +kernel
  refine ⟨hfirst, hsecond, rfl, ?_⟩
  rcases compile_of_same_tokens hfirst hsecond rfl with
    ⟨site, hcompiled, -⟩ | ⟨fault, index, blamed, other, hblames, hblamed, hother, herror, hlast⟩
  · rw [hrefused] at hcompiled
    cases hcompiled
  · have hsame := CompileError.parse.inj (Except.error.inj (hrefused.symm.trans herror))
    have hposition : ⟨1, 11⟩ = blamed.place.position := (ParseError.mk.inj hsame).2
    -- No other token stands in that column.
    have hindex : index = 1 := by
      match index, hblamed with
      | 0, hblamed | 2, hblamed =>
        cases hblamed
        cases hposition
      | 1, _ => rfl
    subst hindex
    cases hblamed
    cases hother
    exact ⟨fault, hblames, herror, hlast⟩

end Layout
end SiteCompiler
