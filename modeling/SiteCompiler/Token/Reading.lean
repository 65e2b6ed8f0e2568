import SiteCompiler.Token

/-!
# What stands at the front of a text

`Reading.of c cs` says what begins with the character `c` when `cs` follows it:
a gap (a blank or a comment) or a token of some kind, and how far it reaches.
The rule depends on the characters alone, never on where the text stands, and
never on what was read before.

* `Lead.of` - the rule that a first character selects.
* `Reading.of` - the reading at the front of a text, or the fault there.
-/

namespace SiteCompiler

/-- The letters that may begin a word: ASCII letters and the underscore. -/
def isWordStart (c : Char) : Bool :=
  c.isAlpha || c == '_'

/-- The characters that may go on a word. -/
def isWordRest (c : Char) : Bool :=
  isWordStart c || c.isDigit || c == '-'

/-- The hexadecimal digits, in either case. -/
def isHexDigit (c : Char) : Bool :=
  c.isDigit || ('a' ≤ c && c ≤ 'f') || ('A' ≤ c && c ≤ 'F')

/-- How many characters at the front of `cs` satisfy `p` without a break. -/
def run (p : Char → Bool) (cs : List Char) : Nat :=
  (cs.takeWhile p).length

theorem run_le (p : Char → Bool) (cs : List Char) : run p cs ≤ cs.length := by
  exact (List.takeWhile_sublist p).length_le

/-- The reason why no reading stands at the front of a text. -/
inductive ScanFault where
  /-- No token begins with this character as it stands. -/
  | unexpected (c : Char)
  /-- A string is opened and never closed. -/
  | unterminatedString
  deriving DecidableEq, Repr

/-- The wording of a fault, without its place. -/
def ScanFault.detail : ScanFault → String
  | unexpected c => "Unexpected character: '" ++ c.toString ++ "'"
  | unterminatedString => "Unterminated string"

/-- The rule that the first character of a reading selects. -/
inductive Lead where
  | symbol (kind : TokenKind)
  | blank
  | equals
  | plus
  | hyphen
  | slash
  | hash
  | quote
  | digit
  | letter
  | foreign
  deriving DecidableEq, Repr

/-- The characters that are tokens by themselves, whatever follows. -/
def symbols : List (Char × TokenKind) :=
  [('\x7b', .leftBrace), ('\x7d', .rightBrace), ('(', .leftParen), (')', .rightParen),
    ('!', .bang), (':', .colon), ('.', .dot), (',', .comma), ('%', .unit)]

/-- The rule for a first character. -/
def Lead.of (c : Char) : Lead :=
  match symbols.lookup c with
  | some kind => symbol kind
  | none =>
    if c = ' ' ∨ c = '\t' ∨ c = '\r' ∨ c = '\n' then blank
    else if c = '=' then equals
    else if c = '+' then plus
    else if c = '-' then hyphen
    else if c = '/' then slash
    else if c = '#' then hash
    else if c = '"' then quote
    else if c.isDigit then digit
    else if isWordStart c then letter
    else foreign

/-- A gap or a token, and how many characters it takes after its first. -/
structure Reading where
  /-- The kind of the token; a gap has none. -/
  kind : Option TokenKind
  /-- The number of characters after the first. -/
  more : Nat
  deriving DecidableEq, Repr

namespace Reading

/-- A blank or a comment. -/
def gap (more : Nat) : Reading :=
  ⟨none, more⟩

/-- A token of a given kind. -/
def token (kind : TokenKind) (more : Nat) : Reading :=
  ⟨some kind, more⟩

/-- The rest of a number after its sign or first digit: digits, then a point if digits follow it. -/
def numeral (cs : List Char) : Nat :=
  let whole := run Char.isDigit cs
  match cs.drop whole with
  | '.' :: fraction =>
    if run Char.isDigit fraction = 0 then whole else whole + 1 + run Char.isDigit fraction
  | _ => whole

/-- A number takes a percent sign that follows it, or the whole run of letters that follows it if
that run is a unit; any other letters are left to the next token. -/
def number (cs : List Char) : Reading :=
  let digits := numeral cs
  let rest := cs.drop digits
  -- The whole run counts: letters that merely begin with a unit are no suffix.
  let suffix := rest.takeWhile isWordStart
  if rest.head? = some '%' then token .unit (digits + 1)
  else if isUnit (String.ofList suffix) then token .unit (digits + suffix.length)
  else token .number digits

/-- A word reaches as far as its characters do; a reserved spelling gives it its own kind. -/
def word (c : Char) (cs : List Char) : Reading :=
  let tail := cs.takeWhile isWordRest
  token ((TokenKind.keyword? (String.ofList (c :: tail))).getD .identifier) tail.length

/-- A string reaches to the next quote. -/
def string (cs : List Char) : Except ScanFault Reading :=
  let content := run (· != '"') cs
  if content < cs.length then .ok (token .string (content + 1)) else .error .unterminatedString

/-- After a hyphen: an arrow, `-=`, a negative number or a word that begins with the hyphen. -/
def hyphen (cs : List Char) : Except ScanFault Reading :=
  match cs with
  | [] => .error (.unexpected '-')
  | d :: _ =>
    if d = '>' then .ok (token .arrow 1)
    else if d = '=' then .ok (token .minusEquals 1)
    else if d.isDigit then .ok (number cs)
    else if isWordStart d then .ok (word '-' cs)
    else .error (.unexpected '-')

/-- What begins with `c` when `cs` follows it. -/
def of (c : Char) (cs : List Char) : Except ScanFault Reading :=
  match Lead.of c with
  | .symbol kind => .ok (token kind 0)
  | .blank => .ok (gap 0)
  | .equals => .ok (if cs.head? = some '>' then token .arrow 1 else token .equals 0)
  | .plus => if cs.head? = some '=' then .ok (token .plusEquals 1) else .error (.unexpected c)
  | .hyphen => hyphen cs
  | .slash =>
    -- The line feed behind a comment is a blank of its own.
    if cs.head? = some '/' then .ok (gap (run (· != '\n') cs)) else .error (.unexpected c)
  | .hash => .ok (token .color (run isHexDigit cs))
  | .quote => string cs
  | .digit => .ok (number cs)
  | .letter => .ok (word c cs)
  | .foreign => .error (.unexpected c)

theorem numeral_le (cs : List Char) : numeral cs ≤ cs.length := by
  have hwhole := run_le Char.isDigit cs
  simp only [numeral]
  split
  case h_1 fraction hrest =>
    have hdigits := run_le Char.isDigit fraction
    have hdrop := congrArg List.length hrest
    simp only [List.length_drop, List.length_cons] at hdrop
    split <;> omega
  case h_2 => exact hwhole

end Reading

end SiteCompiler
