import MonkeyFormat.Text.Printable

set_option autoImplicit false

/-! # Quoted texts

How a message shows a text: between single quotes, or between double quotes if the text has
single quotes and no double ones; with the quote, the backslash and all that cannot be printed
written as escapes. -/

namespace MonkeyFormat

/-- `n` in lowercase hexadecimal, with at least `width` digits. -/
def Text.hex (width n : Nat) : String :=
  let digits := Nat.toDigits 16 n
  String.ofList (List.replicate (width - digits.length) '0' ++ digits)

/-- The quote that encloses a text. -/
def Text.quoteFor (s : String) : Char :=
  if s.toList.contains '\'' && !s.toList.contains '"' then '"' else '\''

/-- A character as it stands in a text quoted by `quote`. -/
def Text.escapeChar (quote c : Char) : String :=
  if c = quote || c = '\\' then String.ofList ['\\', c]
  else if c = '\n' then "\\n"
  else if c = '\r' then "\\r"
  else if c = '\t' then "\\t"
  else if Text.isPrintable c then String.singleton c
  else if c.toNat ≤ 0xff then "\\x" ++ Text.hex 2 c.toNat
  else if c.toNat ≤ 0xffff then "\\u" ++ Text.hex 4 c.toNat
  else "\\U" ++ Text.hex 8 c.toNat

/-- The text between quotes. -/
def Text.quoted (s : String) : String :=
  let quote := Text.quoteFor s
  String.singleton quote ++ String.join (s.toList.map (Text.escapeChar quote)) ++
    String.singleton quote

/-- A list of quoted texts between square brackets. -/
def Text.quotedList (ss : List String) : String :=
  "[" ++ ", ".intercalate (ss.map Text.quoted) ++ "]"

end MonkeyFormat
