import SiteCompiler.Proofs.Grammar.Agreement
import SiteCompiler.Proofs.Grammar.Steps

/-!
# Calls of one parser

A parser may be called again after an error, and goes on from wherever the error has left
it, be it inside a block.  Every call that fails has taken the keyword of a component, and
a call that does not fail has taken everything, so the calls come to rest: after at most
as many errors as there are keywords, every further call finds the empty program.

* `exists_keyword_of_run_error` - what a reading takes before it is refused.
* `Call`, `Parser.calls` - calls in place, one after the other.
* `GoesOn`, `CallsFrom` - what one call does, and what all of them do.
* `Settled` - that they come to rest.
* `repeated_calls_settle` - of the calls for any list of tokens.
-/

namespace SiteCompiler
namespace Grammar

variable {π : Type}

/-! ## What a reading takes -/

/-- A reading leaves the end of its tokens. -/
theorem rest_suffix_of_run (progress : Progress π) (finish : π) (tokens : List (Placed π)) :
    (progress.run finish tokens).rest <:+ tokens := by
  induction tokens generalizing progress with
  | nil => exact List.suffix_rfl
  | cons placed tokens ih =>
      match hstep : progress.step placed with
      | .error refusal =>
        simp only [Progress.run, hstep]
        split
        · exact List.suffix_cons _ _
        · exact List.suffix_rfl
      | .ok (next, records) =>
        simp only [Progress.run, hstep]
        exact (ih next).trans (List.suffix_cons _ _)

/-- A reading that comes to a program leaves nothing. -/
theorem rest_of_run_ok {progress : Progress π} {finish : π} {tokens : List (Placed π)}
    {program : Program} (h : (progress.run finish tokens).result = .ok program) :
    (progress.run finish tokens).rest = [] := by
  induction tokens generalizing progress with
  | nil => rfl
  | cons placed tokens ih =>
      match hstep : progress.step placed with
      | .error refusal => simp [Progress.run, hstep] at h
      | .ok (next, records) =>
        simp only [Progress.run, hstep] at h ⊢
        exact ih h

/-- Between components only a keyword can lead to an error, and it is taken. -/
theorem exists_keyword_of_run_error {components : List Component} {finish : π}
    {tokens : List (Placed π)} {error : ParseError π}
    (h : (Progress.run finish ⟨components, .outside⟩ tokens).result = .error error) :
    ∃ front keyword back, tokens = front ++ keyword :: back ∧
      keyword.token.kind = .component ∧
      (Progress.run finish ⟨components, .outside⟩ tokens).rest <:+ back := by
  induction tokens with
  | nil => cases h
  | cons placed tokens ih =>
      by_cases hkind : placed.token.kind = .component
      · have hmove : Moves ⟨components, .outside⟩ placed ⟨components, .naming⟩ [] :=
          .keyword hkind
        have hstep := (step_eq_ok_iff _ _ _ _).mpr hmove
        refine ⟨[], placed, tokens, rfl, hkind, ?_⟩
        simp only [Progress.run, hstep]
        exact rest_suffix_of_run _ _ _
      · have hmove : Moves ⟨components, .outside⟩ placed ⟨components, .outside⟩
            [.skippedOutside placed.token] := .skipOutside hkind
        have hstep := (step_eq_ok_iff _ _ _ _).mpr hmove
        simp only [Progress.run, hstep] at h ⊢
        obtain ⟨front, keyword, back, rfl, hkeyword, hrest⟩ := ih h
        exact ⟨placed :: front, keyword, back, rfl, hkeyword, hrest⟩

/-! ## One call -/

/-- A call of a parser: its result, and the position behind it. -/
structure Call (π : Type) where
  result : Except (ParseError π) Program
  position : Nat

/-- Whether the result of a call is an error. -/
def Call.fails (call : Call π) : Bool :=
  match call.result with
  | .ok _ => false
  | .error _ => true

/-- The position of the first end of input, or the number of the tokens if there is none. -/
def firstEnd (tokens : List (Placed π)) : Nat :=
  tokens.findIdx fun placed => placed.token.kind == .endOfInput

/-- What a call does that begins at a position. -/
structure GoesOn (parser : Parser π) (start : Nat) (call : Call π) : Prop where
  ordered : start ≤ call.position
  bounded : call.position ≤ firstEnd parser.tokens
  /-- A parser that has the remaining tokens only comes to the same result. -/
  fresh : Parser.program ⟨parser.tokens.drop start, parser.nowhere⟩ 0 =
    some (call.result, call.position - start)
  failed : ∀ error, call.result = .error error →
    ∃ placed ∈ (parser.tokens.drop start).take (call.position - start),
      placed.token.kind = .component
  finished : ∀ program, call.result = .ok program → call.position = firstEnd parser.tokens

namespace Parser

section Calls

variable {parser : Parser π} {position start next : Nat} {call : Call π}

theorem stream_tokens_eq (parser : Parser π) :
    parser.stream.tokens = parser.tokens.take (firstEnd parser.tokens) := by
  have hkind : (fun placed : Placed π => !(placed.token.kind != .endOfInput)) =
      fun placed => placed.token.kind == .endOfInput := by
    funext placed
    simp [bne]
  show parser.tokens.takeWhile _ = _
  rw [List.takeWhile_eq_take_findIdx_not, hkind, firstEnd]

theorem firstEnd_eq (parser : Parser π) :
    firstEnd parser.tokens = parser.stream.tokens.length := by
  have hlength : firstEnd parser.tokens ≤ parser.tokens.length := List.findIdx_le_length
  rw [stream_tokens_eq, List.length_take_of_le hlength]

theorem holds_iff : parser.Holds position ↔ position ≤ firstEnd parser.tokens := by
  rw [firstEnd_eq]
  rfl

/-- A position is known by the number of the tokens ahead. -/
theorem length_ahead (h : parser.Holds position) :
    (parser.ahead position).length + position = firstEnd parser.tokens := by
  rw [ahead, List.length_drop, firstEnd_eq]
  exact Nat.sub_add_cancel h

theorem ahead_firstEnd (parser : Parser π) : parser.ahead (firstEnd parser.tokens) = [] := by
  rw [ahead, firstEnd_eq, List.drop_length]

/-- What is ahead of a position begins with what lies between it and a later one. -/
theorem ahead_eq_append (hle : start ≤ next) (hnext : parser.Holds next) :
    parser.ahead start =
      (parser.tokens.drop start).take (next - start) ++ parser.ahead next := by
  have hprefix : parser.stream.tokens <+: parser.tokens := List.takeWhile_prefix _
  have hbetween : (parser.tokens.drop start).take (next - start) =
      (parser.ahead start).take (next - start) := by
    obtain ⟨rest, htokens⟩ := hprefix
    have hlength : next - start ≤ (parser.ahead start).length := by
      rw [ahead, List.length_drop]
      exact Nat.sub_le_sub_right hnext start
    have hstart : start ≤ parser.stream.tokens.length := Nat.le_trans hle hnext
    rw [← htokens, List.drop_append_of_le_length hstart, ← ahead,
      List.take_append_of_le_length hlength]
  have hdrop : (parser.ahead start).drop (next - start) = parser.ahead next := by
    rw [ahead, List.drop_drop, Nat.add_sub_cancel' hle, ← ahead]
  rw [hbetween, ← hdrop, List.take_append_drop]

/-- The stream alone decides what a call does. -/
theorem program_congr {other : Parser π} (hstream : parser.stream = other.stream)
    (hquoted : parser.StringsQuoted)
    (hposition : parser.Holds position) : parser.program position = other.program position := by
  have hahead (position : Nat) : other.ahead position = parser.ahead position := by
    rw [ahead, ahead, hstream]
  have hholds (position : Nat) : other.Holds position ↔ parser.Holds position := by
    rw [Holds, Holds, hstream]
  have hreading : other.reading .start position = parser.reading .start position := by
    rw [reading, reading, hahead, hstream]
  have hends : firstEnd other.tokens = firstEnd parser.tokens := by
    rw [firstEnd_eq, firstEnd_eq, hstream]
  obtain ⟨next, hprogram, -, hnext, hrest⟩ := exists_program_eq hquoted hposition
  have hquoted' : other.StringsQuoted := by rwa [StringsQuoted, ← hstream]
  obtain ⟨next', hprogram', -, hnext', hrest'⟩ :=
    exists_program_eq hquoted' ((hholds _).mpr hposition)
  have hsame : next' = next := by
    have hlength := length_ahead hnext
    have hlength' := length_ahead hnext'
    rw [← hrest', hreading, hrest, hends] at hlength'
    omega
  rw [hprogram, hprogram', hreading, hsame]

/-- A parser that has the remaining tokens only does what the call does. -/
theorem program_drop (hquoted : parser.StringsQuoted)
    (hstart : parser.Holds start) (hle : start ≤ next) (hnext : parser.Holds next)
    (hrest : (parser.reading .start start).2 = parser.ahead next) :
    Parser.program ⟨parser.tokens.drop start, parser.nowhere⟩ 0 =
      some ((parser.reading .start start).1, next - start) := by
  let remaining : Parser π := ⟨parser.tokens.drop start, parser.nowhere⟩
  have hstream : remaining.stream = ⟨parser.ahead start, parser.stream.finish⟩ :=
    ofTokens_drop hstart
  have hquotedRest : remaining.StringsQuoted := by
    intro placed hplaced
    rw [hstream] at hplaced
    exact hquoted placed (List.mem_of_mem_drop hplaced)
  have hreading : remaining.reading .start 0 = parser.reading .start start := by
    simp only [reading, ahead, hstream, List.drop_zero]
  obtain ⟨stop, hprogram, -, hstop, hleft⟩ := exists_program_eq hquotedRest (Nat.zero_le _)
  have hcount : stop = next - start := by
    have hremaining := length_ahead hstop
    rw [← hleft, hreading, hrest, firstEnd_eq, hstream] at hremaining
    have hahead := length_ahead hstart
    have hbehind := length_ahead hnext
    simp only at hremaining
    omega
  rw [hprogram, hreading, hcount]

theorem exists_goesOn (hquoted : parser.StringsQuoted) (hstart : parser.Holds start) :
    ∃ call, parser.program start = some (call.result, call.position) ∧
      GoesOn parser start call ∧ parser.Holds call.position ∧
        call.result = (parser.reading .start start).1 ∧
          parser.ahead call.position = (parser.reading .start start).2 := by
  obtain ⟨next, hprogram, hle, hnext, hrest⟩ := exists_program_eq hquoted hstart
  refine ⟨⟨_, next⟩, hprogram, ⟨hle, ?bounded, ?fresh, ?failed, ?finished⟩, hnext, rfl, hrest.symm⟩
  case bounded => exact holds_iff.mp hnext
  case fresh => exact program_drop hquoted hstart hle hnext hrest
  case failed =>
    intro error herror
    obtain ⟨front, keyword, back, hahead, hkind, taken, hback⟩ :=
      exists_keyword_of_run_error herror
    -- What the reading leaves is ahead of the next call.
    have hsplit : front ++ keyword :: (taken ++ parser.ahead next) =
        (parser.tokens.drop start).take (next - start) ++ parser.ahead next := by
      rw [← ahead_eq_append hle hnext, hahead, ← hback, ← hrest]
      rfl
    have hbetween : front ++ keyword :: taken =
        (parser.tokens.drop start).take (next - start) := by
      rw [← List.cons_append, ← List.append_assoc] at hsplit
      exact List.append_cancel_right hsplit
    exact ⟨keyword, by rw [← hbetween]; simp, hkind⟩
  case finished =>
    intro program hresult
    have hnone : parser.ahead next = [] := by
      rw [← hrest]
      exact rest_of_run_ok hresult
    have hlength := length_ahead hnext
    rw [hnone] at hlength
    simpa using hlength

/-- At the end a call finds the empty program. -/
theorem result_of_end (h : GoesOn parser (firstEnd parser.tokens) call) :
    call.result = .ok ⟨[]⟩ := by
  let remaining : Parser π := ⟨parser.tokens.drop (firstEnd parser.tokens), parser.nowhere⟩
  have hend : parser.Holds (firstEnd parser.tokens) := holds_iff.mpr (Nat.le_refl _)
  have hstream : remaining.stream.tokens = [] := by
    rw [stream, ofTokens_drop hend, ahead_firstEnd]
  have hquoted : remaining.StringsQuoted := by simp [StringsQuoted, hstream]
  obtain ⟨next, hprogram, -⟩ := exists_program_eq hquoted (Nat.zero_le _)
  have hresult : (remaining.reading .start 0).1 = .ok ⟨[]⟩ := by
    simp only [reading, ahead, hstream]
    rfl
  have hfresh := h.fresh.symm.trans hprogram
  rw [hresult] at hfresh
  simp only [Option.some.injEq, Prod.mk.injEq] at hfresh
  exact hfresh.1

end Calls

end Parser

/-! ## All calls -/

/-- Call a parser several times; each call goes on where the one before it has stopped. -/
def Parser.calls (parser : Parser π) : Nat → Nat → Option (List (Call π))
  | 0, _ => some []
  | times + 1, position =>
    match parser.program position with
    | none => none
    | some (result, next) => (parser.calls times next).map (⟨result, next⟩ :: ·)

/-- The calls go on, each from where the one before it has stopped. -/
inductive CallsFrom (parser : Parser π) : Nat → List (Call π) → Prop
  | nil {start : Nat} : CallsFrom parser start []
  | cons {start : Nat} {call : Call π} {later : List (Call π)} : GoesOn parser start call →
      CallsFrom parser call.position later → CallsFrom parser start (call :: later)

/-- The calls go on and come to rest. -/
structure Settled (parser : Parser π) (calls : List (Call π)) : Prop where
  each : CallsFrom parser 0 calls
  failures : calls.countP Call.fails ≤
    (parser.tokens.take (firstEnd parser.tokens)).countP fun placed =>
      placed.token.kind == .component
  rest : ∀ earlier call later program, calls = earlier ++ call :: later →
    call.result = .ok program → ∀ other ∈ later, other.result = .ok ⟨[]⟩

section Run

variable {parser : Parser π} {start : Nat} {calls : List (Call π)}

/-- At the end every call finds the empty program, and stays there. -/
theorem CallsFrom.result_of_end (h : CallsFrom parser start calls)
    (hend : start = firstEnd parser.tokens) : ∀ call ∈ calls, call.result = .ok ⟨[]⟩ := by
  induction h with
  | nil => simp
  | @cons start call later hcall _ ih =>
      subst hend
      have hresult := Parser.result_of_end hcall
      rw [List.forall_mem_cons]
      exact ⟨hresult, ih (hcall.finished _ hresult)⟩

theorem CallsFrom.rest (h : CallsFrom parser start calls) {earlier later : List (Call π)}
    {call : Call π} {program : Program} (hcalls : calls = earlier ++ call :: later)
    (hresult : call.result = .ok program) : ∀ other ∈ later, other.result = .ok ⟨[]⟩ := by
  induction h generalizing earlier with
  | nil => simp at hcalls
  | @cons start first others hfirst hothers ih =>
      cases earlier with
      | nil =>
          obtain ⟨rfl, rfl⟩ := List.cons.inj hcalls
          exact hothers.result_of_end (hfirst.finished _ hresult)
      | cons other earlier => exact ih (List.cons.inj hcalls).2

/-- The keywords between a position and the first end of input. -/
def keywordsFrom (parser : Parser π) (start : Nat) : Nat :=
  (parser.ahead start).countP fun placed => placed.token.kind == .component

/-- A call that fails has taken a keyword, and no call gives one back. -/
theorem CallsFrom.failures_le (h : CallsFrom parser start calls) :
    calls.countP Call.fails ≤ keywordsFrom parser start := by
  induction h with
  | nil => simp
  | @cons start call later hcall _ ih =>
      have hkeywords : (if call.fails then 1 else 0) ≤
          ((parser.tokens.drop start).take (call.position - start)).countP
            fun placed => placed.token.kind == .component := by
        split
        case isFalse => exact Nat.zero_le _
        case isTrue hfails =>
          obtain ⟨error, hresult⟩ : ∃ error, call.result = .error error := by
            unfold Call.fails at hfails
            split at hfails
            · cases hfails
            · exact ⟨_, ‹_›⟩
          obtain ⟨placed, hplaced, hkind⟩ := hcall.failed error hresult
          exact List.countP_pos_iff.mpr ⟨placed, hplaced, by simpa using hkind⟩
      rw [List.countP_cons, keywordsFrom,
        Parser.ahead_eq_append hcall.ordered (Parser.holds_iff.mpr hcall.bounded),
        List.countP_append, ← keywordsFrom]
      omega

theorem CallsFrom.settled (h : CallsFrom parser 0 calls) : Settled parser calls := by
  refine ⟨h, ?failures, fun _ _ _ _ hcalls hresult => h.rest hcalls hresult⟩
  case failures =>
    have hfailures := h.failures_le
    rwa [keywordsFrom, Parser.ahead, List.drop_zero, Parser.stream_tokens_eq] at hfailures

/-- Calls in place never fail a check.  They have the results of the readings of the stream, and
leave the same tokens. -/
theorem exists_calls (hquoted : parser.StringsQuoted) (hstart : parser.Holds start) (times : Nat) :
    ∃ calls, parser.calls times start = some calls ∧ calls.length = times ∧
      CallsFrom parser start calls ∧
        (calls.map fun call => (call.result, parser.ahead call.position)) =
          (TokenStream.parseTimes times ⟨parser.ahead start, parser.stream.finish⟩).map
            fun outcome => (outcome.result, outcome.rest) := by
  induction times generalizing start with
  | zero => exact ⟨[], rfl, rfl, .nil, rfl⟩
  | succ times ih =>
      obtain ⟨call, hprogram, hcall, hnext, hresult, hahead⟩ :=
        Parser.exists_goesOn hquoted hstart
      obtain ⟨later, hlater, hlength, hcalls, hresults⟩ := ih hnext
      refine ⟨call :: later, ?_, by simp [hlength], .cons hcall hcalls, ?_⟩
      · simp only [Parser.calls, hprogram, hlater, Option.map_some]
      · rw [List.map_cons, hresults, hahead, hresult]
        rfl

theorem calls_congr {other : Parser π} (hstream : parser.stream = other.stream)
    (hquoted : parser.StringsQuoted) (hstart : parser.Holds start) (times : Nat) :
    parser.calls times start = other.calls times start := by
  induction times generalizing start with
  | zero => rfl
  | succ times ih =>
      obtain ⟨call, hprogram, -, hnext, -⟩ := Parser.exists_goesOn hquoted hstart
      have hother := Parser.program_congr hstream hquoted hstart
      rw [hprogram] at hother
      simp only [Parser.calls, hprogram, ← hother, ih hnext]

end Run

/-! ## Lists of tokens -/

/-- The tokens up to the first end of input, which is put behind them if it is missing. -/
def closedTokens (nowhere : π) (tokens : List (Placed π)) : List (Placed π) :=
  tokens.take (firstEnd tokens) ++ [(tokens.drop (firstEnd tokens)).headD ⟨.finish, nowhere⟩]

theorem stream_closedTokens (parser : Parser π) (noise : List (Placed π)) :
    Parser.stream ⟨closedTokens parser.nowhere parser.tokens ++ noise, parser.nowhere⟩ =
      parser.stream := by
  have hfront : ∀ placed ∈ parser.tokens.take (firstEnd parser.tokens),
      placed.token.kind ≠ .endOfInput := by
    rw [← Parser.stream_tokens_eq]
    exact fun placed hplaced => Parser.kind_of_mem_stream hplaced
  obtain ⟨hkind, hplace⟩ :=
    Parser.peek_of_ahead_nil (Parser.holds_iff.mpr (Nat.le_refl _)) parser.ahead_firstEnd
  rw [Parser.isAtEnd, Parser.peek_eq_headD] at hkind
  rw [Parser.peek_eq_headD] at hplace
  have hlast := ofTokens_endOfInput (beq_iff_eq.mp hkind) parser.nowhere noise
  rw [Parser.stream, closedTokens, List.append_assoc, List.singleton_append,
    ofTokens_append hfront, hlast, hplace, List.append_nil, ← Parser.stream_tokens_eq]

/-- However often a parser is called for a list of tokens whose strings are quoted, no check of it
fails, and its calls settle.  They have the results of the readings of the stream, and leave the
same tokens.  What stands behind the first end of input does not matter to them, and if there is
none, it is as if there were one that stands nowhere. -/
theorem repeated_calls_settle (tokens : List (Placed Span))
    (hquoted : ∀ placed ∈ tokens, Quoted placed.token) (times : Nat) :
    ∃ calls, Parser.calls ⟨tokens, .nowhere⟩ times 0 = some calls ∧ calls.length = times ∧
      Settled ⟨tokens, .nowhere⟩ calls ∧
      (calls.map fun call => (call.result, (tokens.take (firstEnd tokens)).drop call.position)) =
        (((TokenStream.ofScan tokens).parseTimes times).map
          fun outcome => (outcome.result, outcome.rest)) ∧
      ∀ noise,
        Parser.calls ⟨closedTokens .nowhere tokens ++ noise, .nowhere⟩ times 0 = some calls := by
  let parser : Parser Span := ⟨tokens, .nowhere⟩
  have hstream : parser.StringsQuoted :=
    fun placed hplaced => hquoted placed ((List.takeWhile_sublist _).mem hplaced)
  have hstart : parser.Holds 0 := Nat.zero_le _
  obtain ⟨calls, hcalls, hlength, hfrom, hresults⟩ := exists_calls hstream hstart times
  refine ⟨calls, hcalls, hlength, hfrom.settled, ?_, fun noise => ?_⟩
  · rw [← Parser.stream_tokens_eq parser]
    exact hresults
  · rw [← hcalls]
    exact (calls_congr (stream_closedTokens parser noise).symm hstream hstart times).symm

/-- A component without a name, one with a string, and noise behind the end of input. -/
def noisyTokens : List (Placed Span) :=
  [⟨.component, "component"⟩, ⟨.number, "3"⟩, ⟨.component, "component"⟩, ⟨.identifier, "A"⟩,
    ⟨.leftBrace, "\x7b"⟩, ⟨.state, "state"⟩, ⟨.leftBrace, "\x7b"⟩, ⟨.identifier, "x"⟩,
    ⟨.colon, ":"⟩, ⟨.string, "\"a\""⟩, ⟨.rightBrace, "\x7d"⟩, ⟨.rightBrace, "\x7d"⟩, .finish,
    ⟨.component, "component"⟩].map fun token => ⟨token, ⟨0, 1, ⟨1, 1⟩⟩⟩

/-- The first call fails, the second reads the component, and there is nothing left for others. -/
theorem repeated_calls_settle_noisyTokens :
    (∀ placed ∈ noisyTokens, Quoted placed.token) ∧
      ∃ calls, Parser.calls ⟨noisyTokens, .nowhere⟩ 3 0 = some calls ∧
        Settled ⟨noisyTokens, .nowhere⟩ calls ∧
        calls.map Call.result =
          [.error ⟨.expected .componentName (some ⟨.number, "3"⟩), ⟨0, 1, ⟨1, 1⟩⟩⟩,
            .ok ⟨[⟨"A", [.state [⟨"x", "\"a\""⟩]]⟩]⟩, .ok ⟨[]⟩] := by
  have hquoted : ∀ placed ∈ noisyTokens, Quoted placed.token := by
    simp [noisyTokens, Quoted, Token.finish]
    exact ⟨['a'], rfl⟩
  obtain ⟨calls, hcalls, -, hsettled, hreadings, -⟩ := repeated_calls_settle noisyTokens hquoted 3
  have hresults := congrArg (List.map Prod.fst) hreadings
  rw [List.map_map, List.map_map] at hresults
  exact ⟨hquoted, calls, hcalls, hsettled, hresults.trans (by rfl)⟩

end Grammar
end SiteCompiler
