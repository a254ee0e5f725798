import MonkeyFormat.Literal.Meaning
import MonkeyFormat.Text.Lowercase

set_option autoImplicit false

/-! # How numbers are spelled

The generic spelling of a number is lowercase, without a plus or needless zeros in the exponent,
without an exponent of zero, with a digit before the point, and without needless zeros or a
needless point behind it. The language's spelling corrects it where it would change the type of
the literal: a float must not become a whole number, and a long one keeps its suffix. -/

namespace MonkeyFormat

namespace Literal

/-! ## Shapes -/

/-- Does the text end here? A final line break does not count. -/
def atEnd : List Char → Bool
  | [] => true
  | ['\n'] => true
  | _ => false

/-- Does an exponent or the end follow? -/
def atExponentOrEnd (cs : List Char) : Bool := cs.head? == some 'e' || atEnd cs

/-- Is `c` a decimal digit or a point? -/
def inMantissa (c : Char) : Bool := Text.isDecimal c || c = '.'

/-- Splits off a sign, then digits and points, of which there must be some, before an exponent
mark. Answers what stands before the mark, and what stands behind it. -/
def splitExponent? (cs : List Char) : Option (List Char × List Char) :=
  let sign := (cs.take 1).filter fun c => c = '+' || c = '-'
  let body := cs.drop sign.length
  let mantissa := body.takeWhile inMantissa
  match body.drop mantissa.length with
  | 'e' :: rest => if mantissa.isEmpty then none else some (sign ++ mantissa, rest)
  | _ => none

/-! ## The steps of the generic spelling -/

/-- Drops a plus and leading zeros in the exponent. -/
def tidyExponent (cs : List Char) : List Char :=
  match splitExponent? cs with
  | none => cs
  | some (mantissa, behind) =>
    let (sign, digits) : List Char × List Char := match behind with
      | '+' :: ds => ([], ds)
      | '-' :: ds => (['-'], ds)
      | ds => ([], ds)
    let zeros := digits.takeWhile (· = '0')
    let rest := digits.drop zeros.length
    if (rest.head?.map Text.isDecimal).getD false then mantissa ++ 'e' :: sign ++ rest
    else if zeros.isEmpty then cs
    else mantissa ++ 'e' :: sign ++ '0' :: rest

/-- Drops an exponent of zero. -/
def dropZeroExponent (cs : List Char) : List Char :=
  match splitExponent? cs with
  | none => cs
  | some (mantissa, behind) =>
    let digits := match behind with
      | '+' :: ds => ds
      | '-' :: ds => ds
      | ds => ds
    let zeros := digits.takeWhile (· = '0')
    let rest := digits.drop zeros.length
    if !zeros.isEmpty && atEnd rest then mantissa ++ rest else cs

/-- Puts a zero before a leading point. -/
def leadingZero : List Char → List Char
  | '.' :: cs => '0' :: '.' :: cs
  | '+' :: '.' :: cs => '+' :: '0' :: '.' :: cs
  | '-' :: '.' :: cs => '-' :: '0' :: '.' :: cs
  | cs => cs

/-- Drops the zeros that end the first fraction that has any to spare; the digit behind the point
stays. -/
def dropTrailingZeros : List Char → List Char
  | [] => []
  | c :: cs =>
    let digits := cs.takeWhile Text.isDecimal
    let rest := cs.drop digits.length
    let kept := (digits.reverse.dropWhile (· = '0')).reverse
    let shorter := if kept.isEmpty then digits.take 1 else kept
    if c = '.' && shorter.length < digits.length && atExponentOrEnd rest then
      c :: shorter ++ rest
    else c :: dropTrailingZeros cs

/-- Drops the first point that no digit follows. -/
def dropBarePoint : List Char → List Char
  | [] => []
  | c :: cs => if c = '.' && atExponentOrEnd cs then cs else c :: dropBarePoint cs

/-- The generic spelling of a number. -/
def generic (raw : String) : String :=
  String.ofList (dropBarePoint (dropTrailingZeros (leadingZero (dropZeroExponent
    (tidyExponent (Text.lower raw).toList)))))

/-! ## The language's spelling -/

/-- Is the text that of a whole number: an optional minus, decimal digits or a hexadecimal number,
and an optional long suffix? A final line break does not count. -/
def isWholeShaped (raw : String) : Bool :=
  let cs := raw.toList
  let cs := if cs.getLast? == some '\n' then cs.dropLast else cs
  let body := if cs.head? == some '-' then cs.drop 1 else cs
  let closed (p : Char → Bool) (ds : List Char) : Bool :=
    let rest := ds.dropWhile p
    !(ds.takeWhile p).isEmpty &&
      (rest.isEmpty || (rest.length == 1 && rest.all Lexeme.isLongSuffix))
  (hasHexMark (String.ofList body) && closed Lexeme.isHexDigit (body.drop 2)) ||
    closed Text.isDecimal body

/-- Is the last character of the text in the class? -/
def endsWith (p : Char → Bool) (s : String) : Bool := (s.toList.getLast?.map p).getD false

/-- The largest number that needs no long suffix. -/
def maxShort : Nat := 0xffffffff

/-- The spelling of a number that is written `raw`, has the value `v`, and is spelled `rendered`
generically. -/
def spell (raw : String) (v : Value) (rendered : String) : Except Fault String :=
  match v with
  | .float x =>
    if x.isNaN then pure "NaN"
    else if x.isInteger && !isWholeShaped raw && isWholeShaped rendered then
      pure (rendered ++ if endsWith (fun c => c = 'd' || c = 'D') raw then "d" else "f")
    else pure rendered
  | v =>
    if endsWith Lexeme.isLongSuffix raw then pure (Text.lower raw)
    else match v with
      | .int n => pure (if maxShort < n.natAbs then Text.lower raw ++ "l" else rendered)
      | .bool _ => pure rendered
      | _ => throw .wrongType

/-! ## Recovering whole numbers -/

/-- The whole number that a text of its shape stands for. -/
def readWhole (raw : String) : Except Fault Int := do
  let digits := Text.trimEndOf Lexeme.isLongSuffix raw
  let sign : Int := if digits.startsWith "-" then -1 else 1
  let digits := Text.trimStartOf (· = '-') digits
  let n ← readable (if hasHexMark digits then
      Number.readHex? (String.ofList (digits.toList.drop 2))
    else Number.readDecimal? digits)
  pure (sign * n)

end Literal

end MonkeyFormat
