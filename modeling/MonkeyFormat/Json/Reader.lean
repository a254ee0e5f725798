import MonkeyFormat.Fault
import MonkeyFormat.Number.Reading

set_option autoImplicit false

/-! # Reading JSON

Objects keep the order of their keys; of a repeated key the first position and the last value
count. A number with a fraction or an exponent is a floating point number, any other a whole
number. `NaN` and the infinities are accepted as values. -/

namespace MonkeyFormat

namespace Json

/-- White space between the parts of a JSON text. -/
def isSpace (c : Char) : Bool := c = ' ' || c = '\t' || c = '\n' || c = '\r'

/-- The text behind leading white space. -/
def skipSpace (cs : List Char) : List Char := cs.dropWhile isSpace

/-- The code unit written by four hexadecimal digits, and the text behind them. -/
def codeUnit? : List Char → Option (Nat × List Char)
  | a :: b :: c :: d :: rest => do
    let ds ← [a, b, c, d].mapM (Number.digitValue? 16)
    some (Number.ofDigits 16 ds, rest)
  | _ => none

/-- The character of a two-character escape. -/
def simpleEscape? : Char → Option Char
  | '"' => some '"'
  | '\\' => some '\\'
  | '/' => some '/'
  | 'b' => some '\x08'
  | 'f' => some '\x0c'
  | 'n' => some '\n'
  | 'r' => some '\r'
  | 't' => some '\t'
  | _ => none

/-- The character of a code unit that stands alone; half of a pair becomes the replacement
character. -/
def loneUnit (u : Nat) : Char :=
  if 0xd800 ≤ u ∧ u < 0xe000 then Char.ofNat 0xfffd else Char.ofNat u

/-- Reads a code unit escape behind its mark, with the low half of a pair if one follows. -/
def unitEscape? (cs : List Char) : Option (Char × List Char) := do
  let (u, rest) ← codeUnit? cs
  if 0xd800 ≤ u ∧ u < 0xdc00 then
    match rest with
    | '\\' :: 'u' :: more =>
      match codeUnit? more with
      | some (v, rest') =>
        if 0xdc00 ≤ v ∧ v < 0xe000 then
          some (Char.ofNat (0x10000 + (u - 0xd800) * 0x400 + (v - 0xdc00)), rest')
        else some (loneUnit u, rest)
      | none => some (loneUnit u, rest)
    | _ => some (loneUnit u, rest)
  else some (loneUnit u, rest)

/-- Reads a string behind its opening quote; `fuel` bounds the characters. -/
def readString : Nat → List Char → List Char → Except Fault (String × List Char)
  | 0, _, _ => throw .notJson
  | fuel + 1, acc, cs =>
    match cs with
    | [] => throw .notJson
    | '"' :: rest => pure (String.ofList acc.reverse, rest)
    | '\\' :: 'u' :: rest =>
      match unitEscape? rest with
      | some (c, rest') => readString fuel (c :: acc) rest'
      | none => throw .notJson
    | '\\' :: e :: rest =>
      match simpleEscape? e with
      | some c => readString fuel (c :: acc) rest
      | none => throw .notJson
    | c :: rest =>
      if c.toNat < 0x20 || c = '\\' then throw .notJson else readString fuel (c :: acc) rest

/-- Reads a number that starts with a digit or a minus. -/
def readNumber (cs : List Char) : Except Fault (Value × List Char) :=
  let (sign, body) := match cs with
    | '-' :: rest => (['-'], rest)
    | rest => ([], rest)
  let whole := match body with
    | '0' :: _ => ['0']
    | body => body.takeWhile Char.isDigit
  let afterWhole := body.drop whole.length
  let (fraction, afterFraction) := match afterWhole with
    | '.' :: rest =>
      let ds := rest.takeWhile Char.isDigit
      if ds.isEmpty then ([], afterWhole) else ('.' :: ds, rest.drop ds.length)
    | rest => ([], rest)
  let (power, rest) := match afterFraction with
    | e :: more =>
      if e = 'e' || e = 'E' then
        let (mark, digits) := match more with
          | '+' :: ds => (['+'], ds)
          | '-' :: ds => (['-'], ds)
          | ds => ([], ds)
        let ds := digits.takeWhile Char.isDigit
        if ds.isEmpty then ([], afterFraction) else (e :: mark ++ ds, digits.drop ds.length)
      else ([], afterFraction)
    | [] => ([], [])
  let text := String.ofList (sign ++ whole ++ fraction ++ power)
  if whole.isEmpty then throw .notJson
  else if fraction.isEmpty && power.isEmpty then
    match Number.readDecimal? text with
    | some n => pure (.int n, rest)
    | none => throw .unreadableNumber
  else match Number.readFloat? text with
    | some x => pure (.float x, rest)
    | none => throw .notJson

/-- The words that are values. -/
def words : List (String × Value) :=
  [("null", .null), ("true", .bool true), ("false", .bool false), ("NaN", .float .nan),
    ("Infinity", .float (.infinity false)), ("-Infinity", .float (.infinity true))]

/-- Reads a word that is a value. -/
def readWord? (cs : List Char) : Option (Value × List Char) :=
  (words.find? fun w => w.1.toList.isPrefixOf cs).map fun w => (w.2, cs.drop w.1.length)

mutual

/-- Reads a value; `fuel` bounds the values and nesting levels still to come. -/
def readValue : Nat → List Char → Except Fault (Value × List Char)
  | 0, _ => throw .notJson
  | fuel + 1, cs =>
    match readWord? cs with
    | some r => pure r
    | none =>
      match cs with
      | '"' :: rest => do
        let (s, rest) ← readString (rest.length + 1) [] rest
        pure (.str s, rest)
      | '[' :: rest =>
        match skipSpace rest with
        | ']' :: rest => pure (.list [], rest)
        | rest => do
          let (vs, rest) ← readItems fuel rest
          pure (.list vs, rest)
      | '\x7b' :: rest =>
        match skipSpace rest with
        | '\x7d' :: rest => pure (.dict [], rest)
        | rest => readEntries fuel [] rest
      | cs => readNumber cs

/-- Reads the elements of a list up to its closing bracket. -/
def readItems : Nat → List Char → Except Fault (List Value × List Char)
  | 0, _ => throw .notJson
  | fuel + 1, cs => do
    let (v, rest) ← readValue fuel cs
    match skipSpace rest with
    | ']' :: rest => pure ([v], rest)
    | ',' :: rest =>
      let (vs, rest) ← readItems fuel (skipSpace rest)
      pure (v :: vs, rest)
    | _ => throw .notJson

/-- Reads the entries of an object up to its closing brace, adding to those already read. -/
def readEntries : Nat → Fields → List Char → Except Fault (Value × List Char)
  | 0, _, _ => throw .notJson
  | fuel + 1, acc, cs =>
    match cs with
    | '"' :: rest => do
      let (key, rest) ← readString (rest.length + 1) [] rest
      match skipSpace rest with
      | ':' :: rest =>
        let (v, rest) ← readValue fuel (skipSpace rest)
        match skipSpace rest with
        | '\x7d' :: rest => pure (.dict (acc.insert key v), rest)
        | ',' :: rest => readEntries fuel (acc.insert key v) (skipSpace rest)
        | _ => throw .notJson
      | _ => throw .notJson
    | _ => throw .notJson

end

/-- Reads a text that is one JSON value with white space around it. -/
def read (s : String) : Except Fault Value := do
  let cs := skipSpace s.toList
  let (v, rest) ← readValue (2 * cs.length + 1) cs
  if (skipSpace rest).isEmpty then pure v else throw .notJson

end Json

end MonkeyFormat
