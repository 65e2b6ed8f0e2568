import SiteCompiler.Token.Reading

/-!
# From a text to its tokens

A text is first cut into pieces, each the text of one reading.  The cut knows
nothing of lines and columns: these come from the lengths and the line feeds
of the pieces that stand before.

* `split` - the pieces of a text, up to its end or to its first fault.
* `split_text` - a text without a fault is the concatenation of its pieces.
* `placeFrom` - the tokens among the pieces, each with its span.
* `scan` - the tokens of a source, closed by the end of input, or the error of
  its first fault.
-/

namespace SiteCompiler

/-- A stretch of source text: a token of some kind, or a gap. -/
structure Piece where
  kind : Option TokenKind
  text : List Char
  deriving DecidableEq, Repr

namespace Piece

/-- The token of a piece; a color leaves its `#` behind. -/
def token? (piece : Piece) : Option Token :=
  piece.kind.map fun kind =>
    ⟨kind, String.ofList (if kind = .color then piece.text.tail else piece.text)⟩

end Piece

/-- The pieces at the front of a text, and the fault that ends them if they do not reach its end. -/
structure Split where
  pieces : List Piece
  fault : Option ScanFault
  deriving DecidableEq, Repr

/-- Cut a text into pieces, each beginning where the one before it ends. -/
def split : List Char → Split
  | [] => ⟨[], none⟩
  | c :: cs =>
    match Reading.of c cs with
    | .error fault => ⟨[], some fault⟩
    | .ok reading =>
      let rest := split (cs.drop reading.more)
      ⟨⟨reading.kind, c :: cs.take reading.more⟩ :: rest.pieces, rest.fault⟩
termination_by cs => cs.length
decreasing_by simp only [List.length_drop, List.length_cons]; omega

/-- The text of a list of pieces. -/
def Piece.textOf (pieces : List Piece) : List Char :=
  pieces.flatMap Piece.text

theorem split_nil : split [] = ⟨[], none⟩ := by
  rw [split]

theorem split_cons_of_error {c : Char} {cs : List Char} {fault : ScanFault}
    (h : Reading.of c cs = .error fault) : split (c :: cs) = ⟨[], some fault⟩ := by
  rw [split, h]

theorem split_cons_of_ok {c : Char} {cs : List Char} {reading : Reading}
    (h : Reading.of c cs = .ok reading) :
    split (c :: cs) =
      ⟨⟨reading.kind, c :: cs.take reading.more⟩ :: (split (cs.drop reading.more)).pieces,
        (split (cs.drop reading.more)).fault⟩ := by
  rw [split, h]

/-- Nothing is lost: the pieces of a text that splits without a fault spell the text. -/
theorem split_text {cs : List Char} (h : (split cs).fault = none) :
    Piece.textOf (split cs).pieces = cs := by
  fun_induction split cs with
  | case1 => rfl
  | case2 => simp at h
  | case3 c cs reading _ rest ih =>
      have hrest := ih h
      simp only [Piece.textOf, List.flatMap_cons] at hrest ⊢
      rw [hrest, List.cons_append, List.take_append_drop]

namespace Position

/-- The beginning of every text. -/
def start : Position :=
  ⟨1, 1⟩

/-- The position behind one character: only a line feed begins a new line. -/
def after (position : Position) (c : Char) : Position :=
  if c = '\n' then ⟨position.line + 1, 1⟩ else ⟨position.line, position.column + 1⟩

/-- The position behind a stretch of text. -/
def afterText (position : Position) (text : List Char) : Position :=
  text.foldl after position

@[simp] theorem afterText_nil (position : Position) : position.afterText [] = position := rfl

theorem afterText_append (position : Position) (text more : List Char) :
    position.afterText (text ++ more) = (position.afterText text).afterText more := by
  exact List.foldl_append

end Position

/-- The tokens among the pieces of a text that begins at a given offset and position. -/
def placeFrom (offset : Nat) (position : Position) : List Piece → List (Placed Span)
  | [] => [⟨.finish, ⟨offset, offset, position⟩⟩]
  | piece :: pieces =>
    let stop := offset + piece.text.length
    let rest := placeFrom stop (position.afterText piece.text) pieces
    match piece.token? with
    | none => rest
    | some token => ⟨token, ⟨offset, stop, position⟩⟩ :: rest

/-- A fault and the position where the reading began that could not be finished. -/
structure ScanError where
  fault : ScanFault
  position : Position
  deriving DecidableEq, Repr

/-- The tokens of a text, or the error of its first fault. -/
def scanText (text : List Char) : Except ScanError (List (Placed Span)) :=
  match (split text).fault with
  | none => .ok (placeFrom 0 .start (split text).pieces)
  | some fault => .error ⟨fault, Position.start.afterText (Piece.textOf (split text).pieces)⟩

/-- The tokens of a source, or the error of its first fault. -/
def scan (source : String) : Except ScanError (List (Placed Span)) :=
  scanText source.toList

/-- A detail under a heading and a position, the common form of error messages about a source. -/
def Position.report (position : Position) (heading detail : String) : String :=
  heading ++ " at line " ++ toString position.line ++ ", column " ++ toString position.column ++
    ": " ++ detail

/-- The message of a scan error. -/
def ScanError.message (error : ScanError) : String :=
  error.position.report "Lexer error" error.fault.detail

end SiteCompiler
