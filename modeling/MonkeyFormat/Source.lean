import MonkeyFormat.Fault

set_option autoImplicit false

/-! # Source texts

A source text by character offsets, and what the layout asks about it: whether only spaces lie
between a place and a line break, and whether the line after or before one is blank. Offsets below
zero count from the end of the text. -/

namespace MonkeyFormat

/-- A source text with its characters by offset. -/
structure Source where
  chars : Array Char
deriving Inhabited

namespace Source

/-- The source with the given text. -/
def ofString (s : String) : Source := ⟨s.toList.toArray⟩

/-- The number of characters. -/
def size (s : Source) : Nat := s.chars.size

/-- Is there no text at all? -/
def isEmpty (s : Source) : Bool := s.chars.isEmpty

/-- The character at an offset. -/
def char (s : Source) (i : Int) : Except Fault Char :=
  let j := if i < 0 then i + s.size else i
  if j < 0 then throw .outOfRange
  else match s.chars[j.toNat]? with
    | some c => pure c
    | none => throw .outOfRange

/-- The place that an offset means: from the end if it is negative, and not before the start. -/
def clamp (s : Source) (i : Int) : Nat := (if i < 0 then i + s.size else i).toNat

/-- The text between two offsets. -/
def slice (s : Source) (first last : Int) : String :=
  String.ofList (s.chars.extract (s.clamp first) (s.clamp last)).toList

/-- Does the text at an offset start with `word`? -/
def hasAt (s : Source) (word : String) (i : Int) : Bool :=
  let first := s.clamp i
  decide (first ≤ s.size) &&
    (s.chars.extract first (first + word.length)).toList == word.toList

/-- The first place at or behind `i` where `word` stands; `fuel` bounds the places looked at. -/
def findFrom (s : Source) (word : String) : Nat → Nat → Option Nat
  | 0, _ => none
  | fuel + 1, i => if s.hasAt word i then some i else s.findFrom word fuel (i + 1)

/-- The first place at or behind an offset where `word` stands. -/
def find? (s : Source) (word : String) (i : Int) : Option Nat :=
  s.findFrom word (s.size + 1 - s.clamp i) (s.clamp i)

/-! ## Spaces and line breaks -/

/-- Is `c` a space within a line? -/
def isSpace (c : Char) : Bool := c = ' ' || c = '\t'

/-- Is `c` a line break? -/
def isBreak (c : Char) : Bool := c = '\r' || c = '\n'

/-- Is the character at a place one of the class? False outside the text. -/
def isAt (s : Source) (p : Char → Bool) (i : Nat) : Bool := (s.chars[i]?.map p).getD false

/-- The first place at or behind `i` that holds no space; `fuel` bounds the spaces. -/
def skipForward (s : Source) : Nat → Nat → Nat
  | 0, i => i
  | fuel + 1, i => if s.isAt isSpace i then s.skipForward fuel (i + 1) else i

/-- The last place before `n` that holds no space, or `-1`. -/
def skipBackward (s : Source) : Nat → Int
  | 0 => -1
  | n + 1 => if s.isAt isSpace n then s.skipBackward n else n

/-- The next place at or behind an offset that holds no space; before it if `backwards`. -/
def skipSpaces (s : Source) (i : Int) (backwards : Bool) : Int :=
  if 0 ≤ i ∧ i < s.size then
    if backwards then s.skipBackward (i.toNat + 1) else s.skipForward (s.size - i.toNat) i.toNat
  else i

/-- The place behind a line break that stands at an offset; the offset itself if none does. -/
def skipNewline (s : Source) (i : Int) : Except Fault Int := do
  if s.hasAt "\r\n" i then pure (i + 2)
  else if i < s.size then
    let c ← s.char i
    pure (if isBreak c then i + 1 else i)
  else pure i

/-- Do only spaces stand between an offset and the line break behind it? -/
def newlineAfter (s : Source) (i : Int) : Except Fault Bool := do
  let j := s.skipSpaces i false
  pure ((← s.skipNewline j) != j)

/-- Do only spaces stand between an offset and the line break, or the start of the text, before
it? -/
def newlineBefore (s : Source) (i : Int) : Except Fault Bool := do
  let j := s.skipSpaces (i - 1) true
  if j < 0 then pure true
  else
    let c ← s.char j
    pure (isBreak c)

/-- The end of the line that an offset is on, if only spaces and comments come first. Stops before
a block comment that runs over a line break or is not closed. -/
def lineEnd (s : Source) : Nat → Int → Int
  | 0, i => i
  | fuel + 1, i =>
    let i := s.skipSpaces i false
    if s.hasAt "/*" i then
      match s.find? "*/" (i + 2) with
      | none => i
      | some close =>
        if (s.slice i close).toList.contains '\n' then i else s.lineEnd fuel (close + 2)
    else if s.hasAt "//" i then
      match s.find? "\n" i with
      | none => s.size
      | some newline => newline
    else i

/-- Is the line behind the one that an offset ends on blank? -/
def nextLineEmpty (s : Source) (i : Int) : Except Fault Bool := do
  let last := s.lineEnd (s.size + 2) i
  let next ← s.skipNewline last
  if next = last then pure false
  else
    let j := s.skipSpaces next false
    if j < s.size then
      let c ← s.char j
      pure (isBreak c)
    else pure false

/-- Is the line before the one that an offset starts on blank? -/
def previousLineEmpty (s : Source) (i : Int) : Except Fault Bool := do
  let j := s.skipSpaces (i - 1) true
  if j < 0 then pure false
  else if !isBreak (← s.char j) then pure false
  else
    let k := j - 1
    let k := if 0 ≤ k && s.hasAt "\r\n" k then k - 1 else k
    let k := s.skipSpaces k true
    if k < 0 then pure false
    else
      let c ← s.char k
      pure (isBreak c)

end Source

end MonkeyFormat
