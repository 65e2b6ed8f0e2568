import SiteCompiler.Program.Progress

/-!
# From tokens to a program

A stream of tokens is read up to its end or to its first error; what is left of
it can be read again.

* `Progress.run` - a reading of a list of tokens.
* `TokenStream.parse` - the program at the front of a stream.
* `TokenStream.parseTimes` - readings one after the other, each going on where
  the one before it stopped.
* `Program.parse` - the program of a source.
-/

namespace SiteCompiler

variable {π : Type}

/-- What comes of a reading: its result, the tokens it left, and what it told of on the way. -/
structure Outcome (π : Type) where
  result : Except (ParseError π) Program
  rest : List (Placed π)
  records : List Record

/-- Read tokens up to their end or to the first error. -/
def Progress.run (finish : π) (progress : Progress π) : List (Placed π) → Outcome π
  | [] => ⟨progress.conclude finish, [], []⟩
  | placed :: tokens =>
    match progress.step placed with
    | .error refusal =>
      ⟨.error refusal.error, if refusal.consumed then tokens else placed :: tokens, []⟩
    | .ok (next, records) =>
      let outcome := next.run finish tokens
      ⟨outcome.result, outcome.rest, records ++ outcome.records⟩

/-- The tokens of a text and the place where they end. -/
structure TokenStream (π : Type) where
  tokens : List (Placed π)
  finish : π
  deriving DecidableEq, Repr

namespace TokenStream

/-- The tokens up to the first end of input.  A list without one ends at a place of its own. -/
def ofTokens (nowhere : π) (tokens : List (Placed π)) : TokenStream π :=
  ⟨tokens.takeWhile fun placed => placed.token.kind != .endOfInput,
    ((tokens.find? fun placed => placed.token.kind == .endOfInput).map Placed.place).getD nowhere⟩

/-- Read a program from the front of a stream. -/
def parse (stream : TokenStream π) : Outcome π :=
  Progress.start.run stream.finish stream.tokens

/-- Read several times in a row, each time from where the reading before it stopped. -/
def parseTimes : Nat → TokenStream π → List (Outcome π)
  | 0, _ => []
  | times + 1, stream =>
    let outcome := stream.parse
    outcome :: parseTimes times ⟨outcome.rest, stream.finish⟩

end TokenStream

/-- The span of what stands in no text. -/
def Span.nowhere : Span :=
  ⟨0, 0, ⟨0, 0⟩⟩

/-- The stream of a scanned text. -/
def TokenStream.ofScan (tokens : List (Placed Span)) : TokenStream Span :=
  ofTokens .nowhere tokens

/-- The program of a source. -/
def Program.parse (source : String) : Except (ParseError Position) Program :=
  match scan source with
  | .error error => .error (.ofScan error)
  | .ok tokens => (TokenStream.ofScan tokens).parse.result.mapError (ParseError.map Span.position)

end SiteCompiler
