import MonkeyFormat.Grammar.Types
import MonkeyFormat.Literal.Meaning
import MonkeyFormat.Operator

set_option autoImplicit false

/-! # Expressions

From the loosest to the tightest: assignments, conditionals, logical operators, binary operators
by their source ranks, signs and other operators before an operand, member access, calls and
updates behind one, and the operands themselves. Parentheses of the source leave no trace in the
tree. The productions take the reader of a nested expression as an argument; `expression` ties
the knot. -/

namespace MonkeyFormat

namespace Parse

/-- Arguments in parentheses. -/
def arguments (fuel : Nat) (expr : Parse Node) : Parse (List Node) := do
  let _ ← expect .leftParen "'('"
  let ns ← commaList fuel .rightParen expr
  let _ ← expect .rightParen "')' to close the argument list"
  pure ns

/-- The suffix of a byte array, if it stands right behind the bracket. -/
def byteSuffix : Parse (Option String) := do
  let t ← current
  match (← get).last with
  | some l =>
    if t.kind = .ident && t.text = "b" && t.span.start = l.span.stop then
      let _ ← advance
      pure (some "b")
    else pure none
  | none => pure none

/-- A byte suffix as the value of a field. -/
def byteField (s : Option String) : Value := (s.map Value.str).getD .null

/-- An array in brackets. -/
def array (fuel : Nat) (expr : Parse Node) : Parse Node := do
  let first ← advance
  let ns ← commaList fuel .rightBracket expr
  let _ ← expect .rightBracket "']' to close the array"
  let byte ← byteSuffix
  finish "ArrayExpression" first.span [("elements", nodes ns), ("byte", byteField byte)]

/-- An entry of a dictionary. -/
def entry (expr : Parse Node) : Parse Node := do
  let key ← expr
  let _ ← expect .arrow "'=>' in dictionary literal"
  let value ← expr
  finish "Property" key.span
    [("key", .node key), ("value", .node value), ("kind", .str "init")]

/-- A dictionary in braces. -/
def dictionary (fuel : Nat) (expr : Parse Node) : Parse Node := do
  let first ← advance
  let ns ← commaList fuel .rightBrace (entry expr)
  let _ ← expect .rightBrace "'\x7d' to close the dictionary"
  finish "ObjectExpression" first.span [("properties", nodes ns)]

/-- The size and suffix of a new array. -/
def sizedArray (expr : Parse Node) (first : Token) (ts : Option Node) : Parse Node := do
  let _ ← expect .leftBracket "'[' or '(' after new"
  let size ← expr
  let _ ← expect .rightBracket "']' to close the array size"
  let byte ← byteSuffix
  finish "SizedArrayExpression" first.span
    [("size", .node size), ("ts", optional ts), ("byte", byteField byte)]

/-- A constructor call, or a new array of a given size. -/
def construction (fuel : Nat) (expr : Parse Node) : Parse Node := do
  let first ← advance
  if ← nextIs .leftBracket then sizedArray expr first none
  else
    let typeFirst ← current
    let name ← scopedName fuel
    let gs ← generics fuel (types fuel)
    let t ← current
    if t.kind = .leftParen then
      if gs.isSome then complain .genericConstructor t
      let args ← arguments fuel expr
      finish "NewExpression" first.span [("callee", .node name), ("arguments", nodes args)]
    else
      let ts ← finish "TypeSpecPart" typeFirst.span
        [("name", .node name), ("generics", genericsField gs)]
      sizedArray expr first (some ts)

/-- An operand. -/
def primary (fuel : Nat) (expr : Parse Node) : Parse Node := do
  let t ← current
  match t.kind with
  | .ident => identifier
  | .receiver =>
    let _ ← advance
    finish "ThisExpression" t.span [("text", .str t.text)]
  | .leftParen =>
    let _ ← advance
    let n ← expr
    let _ ← expect .rightParen "')'"
    pure n
  | .leftBracket => array fuel expr
  | .leftBrace => dictionary fuel expr
  | .colon =>
    let _ ← advance
    let name ← identifier
    finish "UnaryExpression" t.span
      [("operator", .str ":"), ("argument", .node name), ("prefix", .bool true)]
  | .new => construction fuel expr
  | kind =>
    if [TokenKind.number, .float, .string, .char, .literal].contains kind then
      let _ ← advance
      let v ← Literal.value t.kind t.text
      finish "Literal" t.span [("value", v), ("raw", .str t.text)]
    else complain (.unexpected t) t

/-- Member access, calls and updates behind an operand. -/
def postfixed (fuel : Nat) (expr : Parse Node) : Parse Node := do
  let first ← primary fuel expr
  loop (fun n => do
    let t ← current
    match t.kind with
    | .dot =>
      let _ ← advance
      let property ← identifier
      let n ← member n property
      pure (n, true)
    | .leftBracket =>
      let _ ← advance
      let property ← expr
      let _ ← expect .rightBracket "']'"
      let n ← finish "MemberExpression" n.span
        [("object", .node n), ("property", .node property), ("computed", .bool true)]
      pure (n, true)
    | .leftParen =>
      let args ← arguments fuel expr
      let n ← finish "CallExpression" n.span [("callee", .node n), ("arguments", nodes args)]
      pure (n, true)
    | .update =>
      let _ ← advance
      let n ← finish "UpdateExpression" n.span
        [("operator", .str t.text), ("argument", .node n), ("prefix", .bool false)]
      pure (n, true)
    | _ => pure (n, false)) fuel first

/-- The operators that may stand before an operand. -/
def prefixKinds : List TokenKind := [.bang, .tilde, .minus, .plus, .update]

/-- An operand under an operator that stands before it. -/
def prefixed (op : Token) (argument : Node) : Parse Node :=
  finish (if op.kind = .update then "UpdateExpression" else "UnaryExpression") op.span
    [("operator", .str op.text), ("argument", .node argument), ("prefix", .bool true)]

/-- Operators before an operand; the one next to it binds tightest. -/
def unary (fuel : Nat) (expr : Parse Node) : Parse Node := do
  let ops ← loop (fun acc => do
    if ← atAny prefixKinds then
      let op ← advance
      pure (op :: acc, true)
    else pure (acc, false)) fuel []
  let operand ← postfixed fuel expr
  ops.foldlM (fun n op => prefixed op n) operand

/-- The binary operator that comes next, if one does. -/
def binaryOperator : Parse (Option String) := do
  let t ← current
  pure (if [TokenKind.binary, .less, .greater, .shiftRight, .plus, .minus, .instanceOf, .has,
    .asWord].contains t.kind then some t.text else none)

/-- Operands joined by binary operators of at most a given rank. A right operand has a lower rank
than its operator, so that operators of one rank group to the left; `depth` bounds how often the
rank is lowered. -/
def binary (fuel : Nat) (expr : Parse Node) : Nat → Int → Parse Node
  | 0, _ => throw .exhausted
  | depth + 1, maxRank => do
    let first ← unary fuel expr
    loop (fun left => do
      let op? ← binaryOperator
      match op?.bind fun op => (Operator.sourceRank? op).map fun rank => (op, rank) with
      | none => pure (left, false)
      | some (op, rank) =>
        if maxRank < rank then pure (left, false)
        else
          let _ ← advance
          let right ←
            if op = "as" then types fuel
            else if op = "instanceof" then scopedName fuel
            else binary fuel expr depth (rank - 1)
          let n ← finish "BinaryExpression" left.span
            [("operator", .str op), ("left", .node left), ("right", .node right)]
          pure (n, true)) fuel first

/-- The rank that admits every binary operator. -/
def loosestRank : Int := 99

/-- Operands joined by the logical operators of a kind, grouped to the left. -/
def logical (fuel : Nat) (kind : TokenKind) (operand : Parse Node) : Parse Node := do
  let first ← operand
  loop (fun left => do
    match ← accept kind with
    | none => pure (left, false)
    | some op =>
      let right ← operand
      let n ← finish "LogicalExpression" left.span
        [("operator", .str op.text), ("left", .node left), ("right", .node right)]
      pure (n, true)) fuel first

/-- Operands joined by conjunctions. -/
def conjunction (fuel : Nat) (expr : Parse Node) : Parse Node :=
  logical fuel .and (binary fuel expr fuel loosestRank)

/-- Operands joined by disjunctions. -/
def disjunction (fuel : Nat) (expr : Parse Node) : Parse Node :=
  logical fuel .or (conjunction fuel expr)

/-- A conditional, or what may stand in its place. -/
def conditional (fuel : Nat) (expr : Parse Node) : Parse Node := do
  let test ← disjunction fuel expr
  if ← skip .question then
    let consequent ← expr
    let _ ← expect .colon "':' in conditional expression"
    let alternate ← expr
    finish "ConditionalExpression" test.span
      [("test", .node test), ("consequent", .node consequent), ("alternate", .node alternate)]
  else pure test

/-- An assignment, which groups to the right, or what may stand in its place. -/
def assignment (fuel : Nat) (expr : Parse Node) : Parse Node := do
  let left ← conditional fuel expr
  let op ← current
  if op.kind = .assign then
    if left.kind ≠ "Identifier" ∧ left.kind ≠ "MemberExpression" then
      complain .invalidTarget op
    let _ ← advance
    let right ← expr
    finish "AssignmentExpression" left.span
      [("operator", .str op.text), ("left", .node left), ("right", .node right)]
  else pure left

/-- An expression; `fuel` bounds how deep it is nested. -/
def expression : Nat → Parse Node
  | 0 => throw .exhausted
  | fuel + 1 => assignment (fuel + 1) (expression fuel)

/-- Expressions with commas between them; a single one stands for itself. -/
def sequence (fuel : Nat) : Parse Node := do
  let first ← expression fuel
  if ← nextIs .comma then
    let ns ← loop (fun acc => do
      if ← skip .comma then
        let n ← expression fuel
        pure (n :: acc, true)
      else pure (acc, false)) fuel [first]
    finish "SequenceExpression" first.span [("expressions", nodes ns.reverse)]
  else pure first

end Parse

end MonkeyFormat
