import MonkeyFormat.Fault
import MonkeyFormat.Number.Reading
import MonkeyFormat.Token.Lexeme

set_option autoImplicit false

/-! # What literals mean

The value of a literal token, read off its text. -/

namespace MonkeyFormat

namespace Literal

/-- The character that a backslash before `c` stands for; most stand for themselves. -/
def unescapeChar : Char → Char
  | 'n' => '\n'
  | 't' => '\t'
  | 'r' => '\r'
  | '0' => '\x00'
  | c => c

/-- The text that a quoted body stands for. A backslash at the very end is kept. -/
def unescape : List Char → List Char
  | [] => []
  | '\\' :: c :: cs => unescapeChar c :: unescape cs
  | c :: cs => c :: unescape cs

/-- The text without its last character if that is in the class; a literal is never empty. -/
def dropSuffix (p : Char → Bool) (raw : String) : Except Fault String :=
  match raw.toList.reverse with
  | [] => throw .outOfRange
  | c :: cs => pure (if p c then String.ofList cs.reverse else raw)

/-- Does the text start with a hexadecimal mark? -/
def hasHexMark (s : String) : Bool := s.startsWith "0x" || s.startsWith "0X"

/-- A number that could be read, or the fault that it could not. -/
def readable {α : Type} (r : Option α) : Except Fault α :=
  match r with
  | some a => pure a
  | none => throw .unreadableNumber

/-- The value of a literal token. -/
def value (kind : TokenKind) (raw : String) : Except Fault Value :=
  match kind with
  | .number => do
    let digits ← dropSuffix Lexeme.isLongSuffix raw
    let n ← readable (if hasHexMark digits then Number.readHex? digits
      else Number.readDecimal? digits)
    pure (.int n)
  | .float => do
    let digits ← dropSuffix Lexeme.isFloatSuffix raw
    let x ← readable (Number.readFloat? digits)
    pure (.float x)
  | .string => pure (.str (String.ofList (unescape (raw.toList.drop 1).dropLast)))
  | .char => pure (.str (String.ofList (unescape (raw.toList.drop 1).dropLast)))
  | _ =>
    match raw with
    | "true" => pure (.bool true)
    | "false" => pure (.bool false)
    | "null" => pure .null
    | "NaN" => pure (.float .nan)
    | _ => throw .missingKey

end Literal

end MonkeyFormat
