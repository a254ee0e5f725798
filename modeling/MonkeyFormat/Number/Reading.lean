import MonkeyFormat.Text.Blank
import MonkeyFormat.Text.Digit
import MonkeyFormat.Number.Binary64

set_option autoImplicit false

/-! # Reading numbers

Whole numbers and floating point numbers written in decimal digits of any script, or whole numbers
in hexadecimal. Blanks around the number and single underscores between digits are allowed. A
whole number in decimal has at most 4300 digits. -/

namespace MonkeyFormat

namespace Number

/-- Blanks that may surround a number: the control separators may not. -/
def isPadding (c : Char) : Bool := Text.isBlank c && !(0x1c ≤ c.toNat && c.toNat ≤ 0x1f)

/-- The characters of the text without the blanks around it, decimal digits of all scripts
replaced by `0` to `9`. -/
def plainChars (s : String) : List Char :=
  let inner := Text.trimEndOf isPadding (Text.trimStartOf isPadding s)
  inner.toList.map fun c =>
    match Text.decimalValue? c with
    | some d => Char.ofNat ('0'.toNat + d)
    | none => c

/-- Takes a sign off the front: is it a minus, and what follows. -/
def splitSign : List Char → Bool × List Char
  | '-' :: cs => (true, cs)
  | '+' :: cs => (false, cs)
  | cs => (false, cs)

/-- The value of a digit in a base of at most sixteen. -/
def digitValue? (base : Nat) (c : Char) : Option Nat :=
  let n := c.toNat
  let value := if c.isDigit then n - '0'.toNat
    else if 'a' ≤ c ∧ c ≤ 'f' then n - 'a'.toNat + 10
    else if 'A' ≤ c ∧ c ≤ 'F' then n - 'A'.toNat + 10
    else base
  if value < base then some value else none

/-- The digit values of a run of digits with single underscores between them; `after` says
whether a digit stands just before. -/
def digitRun? (base : Nat) (after : Bool) : List Char → Option (List Nat)
  | [] => if after then some [] else none
  | '_' :: cs => if after then digitRun? base false cs else none
  | c :: cs => do
    let d ← digitValue? base c
    let ds ← digitRun? base true cs
    return d :: ds

/-- The number with the given digits. -/
def ofDigits (base : Nat) (ds : List Nat) : Nat := ds.foldl (fun n d => n * base + d) 0

/-- The most decimal digits a whole number may have. -/
def maxDigits : Nat := 4300

/-- Puts a sign on a natural number. -/
def signed (negative : Bool) (n : Nat) : Int := if negative then -(n : Int) else n

/-- The whole number written in decimal, if the text is one. -/
def readDecimal? (s : String) : Option Int := do
  let (negative, cs) := splitSign (plainChars s)
  let ds ← digitRun? 10 false cs
  if ds.length ≤ maxDigits then some (signed negative (ofDigits 10 ds)) else none

/-- Drops `0x` or `0X`, and one underscore after it, from the front. -/
def dropHexMark : List Char → List Char
  | '0' :: x :: '_' :: cs => if x = 'x' || x = 'X' then cs else '0' :: x :: '_' :: cs
  | '0' :: x :: cs => if x = 'x' || x = 'X' then cs else '0' :: x :: cs
  | cs => cs

/-- The whole number written in hexadecimal, with or without its mark, if the text is one. -/
def readHex? (s : String) : Option Int := do
  let (negative, cs) := splitSign (plainChars s)
  let ds ← digitRun? 16 false (dropHexMark cs)
  some (signed negative (ofDigits 16 ds))

/-- Removes underscores that stand between two digits; none if one stands elsewhere. -/
def dropUnderscores? (after : Bool) : List Char → Option (List Char)
  | [] => some []
  | '_' :: c :: cs =>
    if after && c.isDigit then (dropUnderscores? true cs).map (c :: ·) else none
  | '_' :: [] => none
  | c :: cs => (dropUnderscores? c.isDigit cs).map (c :: ·)

/-- Reads digits, an optional fraction and an optional exponent, with a digit before or after the
point. -/
def readUnsigned? (negative : Bool) (cs : List Char) : Option Binary64 :=
  let whole := cs.takeWhile Char.isDigit
  let afterWhole := cs.dropWhile Char.isDigit
  let (fraction, afterFraction) := match afterWhole with
    | '.' :: rest => (rest.takeWhile Char.isDigit, rest.dropWhile Char.isDigit)
    | rest => ([], rest)
  let value (power : Int) : Binary64 :=
    Binary64.ofDecimal negative
      (ofDigits 10 ((whole ++ fraction).map fun c => c.toNat - '0'.toNat))
      (power - fraction.length)
  if whole.isEmpty && fraction.isEmpty then none
  else match afterFraction with
    | [] => some (value 0)
    | e :: rest =>
      if e = 'e' || e = 'E' then
        let (minus, ds) := splitSign rest
        (digitRun? 10 false ds).map fun ds => value (signed minus (ofDigits 10 ds))
      else none

/-- The floating point number nearest to the decimal written in the text, if it is one. -/
def readFloat? (s : String) : Option Binary64 :=
  let (negative, cs) := splitSign (plainChars s)
  let word := String.ofList (cs.map Char.toLower)
  if word = "nan" then some Binary64.nan
  else if word = "inf" || word = "infinity" then some (Binary64.infinity negative)
  else (dropUnderscores? false cs).bind (readUnsigned? negative)

end Number

end MonkeyFormat
