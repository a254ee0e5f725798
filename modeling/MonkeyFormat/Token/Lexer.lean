import MonkeyFormat.Comment.Basic
import MonkeyFormat.Token.Lexeme
import MonkeyFormat.Fault

set_option autoImplicit false

/-! # The lexer

Turns a source text into tokens and comments. The lexer stands between the characters it has
passed and those to come. Text that is no token is passed and reported as a token of its own, so
that lexing fails only for literals and comments that are not closed, and for malformed
numbers. -/

namespace MonkeyFormat

/-- The state of the lexer. -/
structure Lexer where
  /-- The characters passed, last one first. -/
  before : List Char
  /-- The characters to come. -/
  rest : List Char
  place : Place
  /-- The comments passed, last one first. -/
  comments : List Comment
  /-- The name of the source, for messages. -/
  origin : Option String

/-- A step of the lexer: the state is kept also when it fails. -/
abbrev Lex := ExceptT Fault (StateM Lexer)

namespace Lexer

/-- The lexer at a point of a source. -/
def startAt (source : String) (place : Place) (origin : Option String) : Lexer :=
  let cs := source.toList
  ⟨(cs.take place.offset.toNat).reverse, cs.drop place.offset.toNat, place, [], origin⟩

/-- The lexer at the start of a source. -/
def start (source : String) (origin : Option String) : Lexer := startAt source {} origin

/-- The lexer behind the next characters, which are `taken`. -/
def passed (lx : Lexer) (taken : List Char) : Lexer :=
  { lx with
    before := taken.reverse ++ lx.before
    rest := lx.rest.drop taken.length
    place := lx.place.after taken }

/-- The character at a distance from the next one; negative distances look back. -/
def peek? (lx : Lexer) (distance : Int) : Option Char :=
  if 0 ≤ distance then lx.rest[distance.toNat]?
  else
    let i := lx.place.offset + distance
    if 0 ≤ i ∧ i < lx.before.length then lx.before[lx.before.length - 1 - i.toNat]? else none

/-- Is nothing left? -/
def atEnd (lx : Lexer) : Bool := lx.rest.isEmpty

/-- Fails with a complaint about a place. -/
def complain {α : Type} (c : Complaint) (p : Place) : Lex α := do
  throw (.malformed c p (← get).origin)

/-- Passes the next characters, which are `taken`. -/
def pass (taken : List Char) : Lex Unit := modify (·.passed taken)

/-- Passes and returns the next character. -/
def advance : Lex Char := do
  let lx ← get
  match lx.rest with
  | [] => throw (.readPastEnd lx.place.offset lx.place.line)
  | c :: _ =>
    pass [c]
    pure c

/-- Records a comment that starts at a point and ends here. -/
def record (kind : String) (value : List Char) (first : Place) : Lex Unit :=
  modify fun lx =>
    { lx with comments := ⟨kind, String.ofList value, first.upTo lx.place⟩ :: lx.comments }

/-- Passes a line comment, whatever its two delimiting characters are. -/
def lineComment : Lex Unit := do
  let first := (← get).place
  let _ ← advance
  let _ ← advance
  let value := (← get).rest.takeWhile fun c => !Lexeme.endsLine c
  pass value
  record "Line" value first

/-- Passes a block comment, whatever its two opening characters are. -/
def blockComment : Lex Unit := do
  let first := (← get).place
  let _ ← advance
  let _ ← advance
  let (value, closed) := Lexeme.blockBody (← get).rest
  pass value
  if closed then
    pass ['*', '/']
    record "Block" value first
  else complain .unterminatedComment first

/-- Passes white space and comments; `fuel` bounds the number of runs of them. -/
def skipGapsWith : Nat → Lex Unit
  | 0 => pure ()
  | fuel + 1 => do
    match (← get).rest with
    | '/' :: '/' :: _ =>
      lineComment
      skipGapsWith fuel
    | '/' :: '*' :: _ =>
      blockComment
      skipGapsWith fuel
    | c :: _ =>
      if Lexeme.isGap c then
        pass ((← get).rest.takeWhile Lexeme.isGap)
        skipGapsWith fuel
      else pure ()
    | [] => pure ()

/-- Passes white space and comments. -/
def skipGaps : Lex Unit := do skipGapsWith ((← get).rest.length + 1)

/-- Passes a lexeme and makes it a token. -/
def token (kind : TokenKind) (taken : List Char) : Lex Token := do
  let first := (← get).place
  pass taken
  pure ⟨kind, String.ofList taken, first.upTo (← get).place⟩

/-- Passes the longest word or symbol of at most three characters that has a kind of its own. -/
def symbol : Lex (Option Token) := do
  match Lexeme.symbol? (← get).rest with
  | some (kind, taken) => some <$> token kind taken
  | none => pure none

/-- Passes a number. -/
def number : Lex Token := do
  let first := (← get).place
  match Lexeme.numeral (← get).rest with
  | .number kind taken => token kind taken
  | .badHex taken =>
    pass taken
    complain .invalidHex first
  | .badEnd taken next =>
    pass taken
    complain (.invalidNumber (String.ofList (taken ++ [next]))) first

/-- Passes a literal closed by a quote, whatever its first character is. -/
def quoted (quote : Char) : Lex Token := do
  let first := (← get).place
  let opening ← advance
  let (body, closed) := Lexeme.quotedBody quote (← get).rest
  pass body
  if closed then
    let kind : TokenKind := if quote = '"' then .string else .char
    pure ⟨kind, String.ofList (opening :: body), first.upTo (← get).place⟩
  else complain (if quote = '"' then .unterminatedString else .unterminatedCharacter) first

/-- Passes white space and comments, and then a token. At the end it is the end token, again and
again. -/
def next : Lex Token := do
  skipGaps
  let lx ← get
  match lx.rest with
  | [] => pure ⟨.endOfInput, "EOF", lx.place.upTo lx.place⟩
  | c :: cs =>
    if Lexeme.startsWord c then
      let taken := Lexeme.word lx.rest
      token ((TokenKind.ofText? (String.ofList taken)).getD .ident) taken
    else if Text.isDigit c || (c = '.' && Lexeme.startsDigit cs) then number
    else if c = '"' || c = '\'' then quoted c
    else do
      match ← symbol with
      | some t => pure t
      | none => token .unknown [c]

/-- The tokens up to and with the end token; `fuel` bounds their number. -/
def tokensWith : Nat → Lex (List Token)
  | 0 => throw .exhausted
  | fuel + 1 => do
    let t ← next
    if t.kind = .endOfInput then pure [t]
    else
      let ts ← tokensWith fuel
      pure (t :: ts)

/-- The tokens up to and with the end token. -/
def tokens : Lex (List Token) := do tokensWith ((← get).rest.length + 1)

end Lexer

/-- The tokens and the comments of a source. The last token is the end token. -/
def tokenize (source : String) (origin : Option String) :
    Except Fault (List Token × List Comment) :=
  match Lexer.tokens.run.run (Lexer.start source origin) with
  | (.ok ts, lx) => .ok (ts, lx.comments.reverse)
  | (.error f, _) => .error f

end MonkeyFormat
