import MonkeyFormat.Token.Lexer

set_option autoImplicit false

/-! # The parser's state

A parser stands between the tokens it has passed and those to come, the last of which is the end
token and is never passed. Nodes end where the token consumed last ends. -/

namespace MonkeyFormat

/-- The state of the parser. -/
structure Parser where
  /-- The tokens passed, last one first. -/
  seen : List Token
  /-- The tokens to come. -/
  rest : List Token
  /-- The token consumed last. -/
  last : Option Token
  /-- The text that the tokens come from. -/
  source : String
  /-- The name of the source, for messages. -/
  origin : Option String

/-- A production of the grammar: the state is kept also when it fails. -/
abbrev Parse := ExceptT Fault (StateM Parser)

/-- How many steps a token is worth: two closing angles may be taken one by one. -/
def Token.weight (t : Token) : Nat := if t.kind = .shiftRight then 2 else 1

namespace Parser

/-- The parser before the first of some tokens. -/
def start (tokens : List Token) (source : String) (origin : Option String) : Parser :=
  ⟨[], tokens, none, source, origin⟩

/-- The number of tokens passed. -/
def position (p : Parser) : Nat := p.seen.length

/-- The token to come next. -/
def head (p : Parser) : Token := p.rest.headD default

/-- The weight of the tokens to come: a bound on the steps that parsing them takes. -/
def weight (p : Parser) : Nat := p.rest.foldr (fun t n => t.weight + n) 0

/-- The token at a distance from the next one. Beyond the end it is the last token; before the
start the tokens are counted from the end. -/
def peek (p : Parser) (distance : Int) : Except Fault Token :=
  let all := p.seen.reverse ++ p.rest
  let i := min (p.position + distance) (all.length - 1)
  let i := if i < 0 then i + all.length else i
  if i < 0 then throw .outOfRange
  else match all[i.toNat]? with
    | some t => pure t
    | none => throw .outOfRange

end Parser

namespace Parse

/-! ## Tokens -/

/-- The token to come next. -/
def current : Parse Token := do pure (← get).head

/-- The token behind the next one, or the end token. -/
def second : Parse Token := do
  match (← get).rest with
  | _ :: t :: _ => pure t
  | [t] => pure t
  | [] => pure default

/-- Consumes the next token. The end token stays. -/
def advance : Parse Token := do
  let p ← get
  match p.rest with
  | [] => pure default
  | t :: ts =>
    if t.kind = .endOfInput then set { p with last := some t }
    else set { p with seen := t :: p.seen, rest := ts, last := some t }
    pure t

/-- Is the next token of this kind? -/
def nextIs (kind : TokenKind) : Parse Bool := do pure ((← current).kind = kind)

/-- Is the next token of one of these kinds? -/
def atAny (kinds : List TokenKind) : Parse Bool := do pure (kinds.contains (← current).kind)

/-- Is the next token of this kind and spelled like this? -/
def atText (kind : TokenKind) (text : String) : Parse Bool := do
  let t ← current
  pure (t.kind = kind && t.text = text)

/-- Fails with a complaint about a token. -/
def complain {α : Type} (c : Complaint) (t : Token) : Parse α := do
  throw (.malformed c t.place (← get).origin)

/-- Consumes the next token if it is of this kind. -/
def accept (kind : TokenKind) : Parse (Option Token) := do
  if ← nextIs kind then some <$> advance else pure none

/-- Consumes the next token if it is of this kind, and says whether it was. -/
def skip (kind : TokenKind) : Parse Bool := do pure (← accept kind).isSome

/-- Consumes the next token, which must be of this kind. -/
def expect (kind : TokenKind) (what : String) : Parse Token := do
  let t ← current
  if t.kind = kind then advance else complain (.expected what t) t

/-- Consumes the next token if its kind has one of these names; else fails if it has to. -/
def oneOf (names : List String) (strict : Bool) : Parse (Option Token) := do
  let t ← current
  if names.contains t.kind.name then some <$> advance
  else if strict then complain (.expectedOneOf names t) t
  else pure none

/-! ## Nodes -/

/-- A node from the start of one span to the end of another. -/
def spanning (kind : String) (first last : Span) (fields : Fields) : Node :=
  ⟨kind, ⟨first.start, last.stop, first.line, first.col, last.endLine, last.endCol⟩, fields⟩

/-- A node from the start of a span to the token consumed last. -/
def finish (kind : String) (first : Span) (fields : Fields) : Parse Node := do
  let last := match (← get).last with
    | some t => t.span
    | none => first
  pure (spanning kind first last fields)

/-- A node or its absence as the value of a field. -/
def optional (n : Option Node) : Value := (n.map Value.node).getD .null

/-- Nodes as the value of a field. -/
def nodes (ns : List Node) : Value := .list (ns.map Value.node)

/-! ## Repetition -/

/-- Repeats a step until it says that it is done; `fuel` bounds the rounds. -/
def loop {σ : Type} (step : σ → Parse (σ × Bool)) : Nat → σ → Parse σ
  | 0, _ => throw .exhausted
  | fuel + 1, s => do
    let (s, more) ← step s
    if more then loop step fuel s else pure s

/-- Nodes read one after the other until a test on the next token holds. -/
def many (fuel : Nat) (stop : Parse Bool) (item : Parse Node) : Parse (List Node) := do
  let ns ← loop (fun acc => do
    if ← stop then pure (acc, false)
    else
      let n ← item
      pure (n :: acc, true)) fuel []
  pure ns.reverse

/-- Nodes with commas between them, and perhaps one behind the last, up to a closing token, which
is not consumed. -/
def commaList (fuel : Nat) (close : TokenKind) (item : Parse Node) : Parse (List Node) := do
  let ns ← loop (fun acc => do
    if ← nextIs close then pure (acc, false)
    else
      let n ← item
      pure (n :: acc, ← skip .comma)) fuel []
  pure ns.reverse

/-- Gives a production as much fuel as the tokens to come can need. Fuel only bounds the recursion
by its input; the limit that an interpreter sets to the depth of its calls is not modelled. -/
def fueled {α : Type} (production : Nat → Parse α) : Parse α := do
  production ((← get).weight + 1)

/-- Declarations or statements up to the closing brace, which is consumed. -/
def bodyUntilBrace (fuel : Nat) (item : Parse Node) : Parse (List Node) := do
  let ns ← many fuel (nextIs .rightBrace) do
    let t ← current
    if t.kind = .endOfInput then complain .unclosedBody t else item
  let _ ← advance
  pure ns

end Parse

end MonkeyFormat
