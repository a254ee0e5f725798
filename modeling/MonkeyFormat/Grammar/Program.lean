import MonkeyFormat.Grammar.Declaration
import MonkeyFormat.Options

set_option autoImplicit false

/-! # Whole sources

A source is read as a compilation unit, as a single expression, or as a fragment of one. -/

namespace MonkeyFormat

namespace Parse

/-- The root over some nodes: it covers the whole source. -/
def programOf (body : List Node) : Parse Node := do
  let p ← get
  let lines := p.source.splitOn "\n"
  let lastLine := lines.getLastD ""
  pure ⟨"Program", ⟨0, max p.source.length p.head.span.stop, 1, 1, lines.length,
    lastLine.length + 1⟩, [("body", nodes body)]⟩

/-- A compilation unit. -/
def program (fuel : Nat) : Parse Node := do
  let ns ← many fuel (nextIs .endOfInput) (topLevel (fuel + 1))
  programOf ns

/-- Exactly one expression. -/
def singleExpression (fuel : Nat) : Parse Node := do
  let n ← expression fuel
  let _ ← expect .endOfInput "end of input"
  pure n

/-- A fragment: statements, or the members of a class. An empty name stands for statements. -/
def fragment (name : Option String) (fuel : Nat) : Parse Node := do
  let kind := match name with
    | none => "statements"
    | some s => if s.isEmpty then "statements" else s
  if kind = "class" then
    let ns ← many fuel (nextIs .endOfInput) (classElement fuel)
    programOf ns
  else if kind = "statements" then
    let ns ← many fuel (nextIs .endOfInput) (statement fuel)
    programOf ns
  else throw (.unknownFragment (name.getD ""))

/-- What a start rule reads. -/
def startRule (o : Options) : Parse Node :=
  match o.rule with
  | .program => fueled program
  | .expression => fueled singleExpression
  | .fragment => fueled (fragment o.fragment)

end Parse

/-- The tree and the comments of a source. Characters that belong to no token are reported before
anything is parsed. -/
def parse (source : String) (o : Options) : Except Fault (Node × List Comment) := do
  let (tokens, comments) ← tokenize source o.origin
  if let some t := tokens.find? fun t => t.kind = .unknown then
    throw (.malformed (.unexpectedCharacter t.text) t.place o.origin)
  let root ← ((Parse.startRule o).run.run (Parser.start tokens source o.origin)).1
  pure (root, comments)

end MonkeyFormat
