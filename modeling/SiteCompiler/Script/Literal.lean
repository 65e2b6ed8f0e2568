/-!
# Literals

How the raw text of a state value is written in a script.
-/

namespace SiteCompiler

/-- The ways to write a raw value. -/
inductive LiteralKind where
  /-- A text in quotes, which stays as it is. -/
  | string
  /-- The words `true` and `false`, which stay as they are. -/
  | boolean
  /-- A plain number. -/
  | number
  /-- Any other text, which is put in quotes. -/
  | bare
  deriving DecidableEq, Repr

/-- The name of a way to write a value. -/
def LiteralKind.name : LiteralKind → String
  | string => "String"
  | boolean => "Boolean"
  | number => "Number"
  | bare => "Bare"

/-- Whether a text is a run of at least one digit. -/
def isDigits (text : List Char) : Bool :=
  !text.isEmpty && text.all Char.isDigit

/-- Whether a text is a plain number: perhaps a hyphen, then digits, perhaps a point and more
digits. -/
def isPlainNumber (raw : List Char) : Bool :=
  let unsigned := if raw.head? = some '-' then raw.tail else raw
  let whole := unsigned.takeWhile (· != '.')
  match unsigned.dropWhile (· != '.') with
  | [] => isDigits whole
  | _ :: fraction => isDigits whole && isDigits fraction

/-- The way to write a raw value. -/
def classify (raw : String) : LiteralKind :=
  if raw.toList.head? = some '"' then .string
  else if raw = "true" ∨ raw = "false" then .boolean
  else if isPlainNumber raw.toList then .number
  else .bare

/-- The expression of a raw value in a script. -/
def literal (raw : String) : String :=
  match classify raw with
  | .bare => "\"" ++ raw ++ "\""
  | _ => raw

end SiteCompiler
