import MonkeyFormat.Text.Digit
import MonkeyFormat.Token.Basic

set_option autoImplicit false

/-! # Lexemes

What a token or comment takes off the front of the remaining characters. Each function splits off
its lexeme without looking at what came before; the lexer does the counting of lines and
columns. -/

namespace MonkeyFormat

namespace Lexeme

/-! ## White space and words -/

/-- White space between tokens, the byte order mark included. -/
def isGap (c : Char) : Bool :=
  c = ' ' || c = '\t' || c = '\r' || c = '\n' || c = '\x0c' || c = '\x0b' || c = '\ufeff'

/-- May `c` start an identifier? -/
def startsWord (c : Char) : Bool := Text.isLetter c || c = '_' || c = '$'

/-- May `c` stand inside an identifier? -/
def inWord (c : Char) : Bool := Text.isWordChar c || c = '_' || c = '$'

/-- The identifier or reserved word at the front. -/
def word (cs : List Char) : List Char := cs.takeWhile inWord

/-! ## Comments -/

/-- Does `c` end a line comment? -/
def endsLine (c : Char) : Bool := c = '\r' || c = '\n'

/-- The characters up to the end of a block comment, and whether the end was found. The closing
delimiter is not among them. -/
def blockBody : List Char → List Char × Bool
  | [] => ([], false)
  | c :: cs =>
    if c = '*' && cs.head? == some '/' then ([], true)
    else
      let (body, closed) := blockBody cs
      (c :: body, closed)

/-! ## Symbols -/

/-- The longest word or symbol of at most three characters that has a kind of its own. -/
def symbol? (cs : List Char) : Option (TokenKind × List Char) :=
  [3, 2, 1].findSome? fun n =>
    if (cs.take n).length = n then
      (TokenKind.ofText? (String.ofList (cs.take n))).map fun kind => (kind, cs.take n)
    else none

/-! ## Numbers -/

/-- Is `c` a hexadecimal digit? -/
def isHexDigit (c : Char) : Bool :=
  c.isDigit || ('a' ≤ c && c ≤ 'f') || ('A' ≤ c && c ≤ 'F')

/-- Does the text start with a character of the class? -/
def startsWith (p : Char → Bool) (cs : List Char) : Bool := (cs.head?.map p).getD false

/-- Does the text start with a digit? -/
def startsDigit (cs : List Char) : Bool := startsWith Text.isDigit cs

/-- The suffix of a long whole number. -/
def isLongSuffix (c : Char) : Bool := c = 'l' || c = 'L'

/-- The suffix of a float or double. -/
def isFloatSuffix (c : Char) : Bool := c = 'f' || c = 'F' || c = 'd' || c = 'D'

/-- The fraction at the front: a point with digits, or, behind digits, a point that no letter
follows (a letter would make it a member access). -/
def fraction (behindDigits : Bool) : List Char → List Char
  | '.' :: cs =>
    if startsDigit cs then '.' :: cs.takeWhile Text.isDigit
    else if behindDigits && !startsWith Text.isLetter cs then ['.']
    else []
  | _ => []

/-- The exponent at the front: its mark, an optional sign, and digits. -/
def exponent : List Char → List Char
  | e :: cs =>
    if e = 'e' || e = 'E' then
      if startsDigit cs then e :: cs.takeWhile Text.isDigit
      else match cs with
        | sign :: ds =>
          if (sign = '+' || sign = '-') && startsDigit ds then
            e :: sign :: ds.takeWhile Text.isDigit
          else []
        | [] => []
    else []
  | [] => []

/-- The outcome of splitting off a number. -/
inductive Numeral where
  /-- A number of the given kind. -/
  | number (kind : TokenKind) (taken : List Char)
  /-- A hexadecimal mark without digits. -/
  | badHex (taken : List Char)
  /-- A number that runs into the character `next`. -/
  | badEnd (taken : List Char) (next : Char)

/-- The hexadecimal number behind its two-character mark. -/
def hexNumeral (mark : List Char) (cs : List Char) : Numeral :=
  let digits := cs.takeWhile isHexDigit
  let rest := cs.drop digits.length
  if digits.isEmpty then .badHex mark
  else .number .number (mark ++ digits ++ (rest.take 1).filter isLongSuffix)

/-- The decimal number at the front. -/
def decimalNumeral (cs : List Char) : Numeral :=
  let whole := cs.takeWhile Text.isDigit
  let afterWhole := cs.drop whole.length
  let frac := fraction (!whole.isEmpty) afterWhole
  let afterFraction := afterWhole.drop frac.length
  let power := exponent afterFraction
  let afterPower := afterFraction.drop power.length
  let isFloat := !frac.isEmpty || !power.isEmpty
  let suffix := (afterPower.take 1).filter fun c =>
    isFloatSuffix c || (!isFloat && isLongSuffix c)
  let kind : TokenKind :=
    if isFloat || startsWith isFloatSuffix suffix then .float else .number
  let taken := whole ++ frac ++ power ++ suffix
  match afterPower.drop suffix.length with
  | c :: _ => if Text.isWordChar c || c = '_' then .badEnd taken c else .number kind taken
  | [] => .number kind taken

/-- The number at the front. -/
def numeral : List Char → Numeral
  | '0' :: x :: cs =>
    if x = 'x' || x = 'X' then hexNumeral ['0', x] cs else decimalNumeral ('0' :: x :: cs)
  | cs => decimalNumeral cs

/-! ## Quoted literals -/

/-- The rest of a literal behind its opening quote, and whether its closing quote was found before
the line ended. A backslash takes the next character with it. -/
def quotedBody (quote : Char) : List Char → List Char × Bool
  | [] => ([], false)
  | '\\' :: c :: cs =>
    let (body, closed) := quotedBody quote cs
    ('\\' :: c :: body, closed)
  | c :: cs =>
    if c = '\\' then ([c], false)
    else if c = quote then ([c], true)
    else if c = '\n' then ([], false)
    else
      let (body, closed) := quotedBody quote cs
      (c :: body, closed)

end Lexeme

end MonkeyFormat
