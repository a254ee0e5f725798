import MonkeyFormat.Fault

set_option autoImplicit false

/-! # Writing JSON

One line of ASCII text: a comma and a colon are followed by a space, and every character outside
the printable ASCII range is written as an escape, one beyond the basic plane as a pair. -/

namespace MonkeyFormat

namespace Json

/-- A code unit as an escape. -/
def unitEscape (u : Nat) : String := "\\u" ++ Text.hex 4 u

/-- A character as it stands in a string. -/
def escapeChar (c : Char) : String :=
  if c = '"' then "\\\""
  else if c = '\\' then "\\\\"
  else if c = '\n' then "\\n"
  else if c = '\r' then "\\r"
  else if c = '\t' then "\\t"
  else if c = '\x08' then "\\b"
  else if c = '\x0c' then "\\f"
  else if 32 ≤ c.toNat ∧ c.toNat < 127 then String.singleton c
  else if c.toNat < 0x10000 then unitEscape c.toNat
  else
    let n := c.toNat - 0x10000
    unitEscape (0xd800 + n / 0x400) ++ unitEscape (0xdc00 + n % 0x400)

/-- A text as a JSON string. -/
def quote (s : String) : String :=
  "\"" ++ s.toList.foldl (fun acc c => acc ++ escapeChar c) "" ++ "\""

/-- A floating point number; those that are not finite are words. -/
def floatText (x : Binary64) : String :=
  if x.isNaN then "NaN"
  else if x.isInfinite then (if x.isNegative then "-Infinity" else "Infinity")
  else x.toText

mutual

/-- Writes a value. A node has no JSON form; it must be a record. -/
def write : Value → Except Fault String
  | .null => pure "null"
  | .bool true => pure "true"
  | .bool false => pure "false"
  | .int n => pure (toString n)
  | .float x => pure (floatText x)
  | .str s => pure (quote s)
  | .list vs => do
    let items ← writeItems vs
    pure ("[" ++ ", ".intercalate items ++ "]")
  | .dict es => do
    let entries ← writeEntries es
    pure ("\x7b" ++ ", ".intercalate entries ++ "\x7d")
  | .node _ => throw .wrongType

/-- Writes the elements of a list. -/
def writeItems : List Value → Except Fault (List String)
  | [] => pure []
  | v :: vs => do
    let s ← write v
    let ss ← writeItems vs
    pure (s :: ss)

/-- Writes the entries of an object. -/
def writeEntries : List (String × Value) → Except Fault (List String)
  | [] => pure []
  | (k, v) :: es => do
    let s ← write v
    let ss ← writeEntries es
    pure ((quote k ++ ": " ++ s) :: ss)

end

end Json

end MonkeyFormat
