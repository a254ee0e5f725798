import MonkeyFormat.Grammar.Parser

set_option autoImplicit false

/-! # Names and types

Identifiers, dotted names, and type specifications: alternatives joined by `or`, each a dotted name
with optional generic arguments or a callable type in parentheses, and a question mark where the
type may be absent. -/

namespace MonkeyFormat

namespace Parse

/-- An identifier. -/
def identifier : Parse Node := do
  let t ← expect .ident "an identifier"
  finish "Identifier" t.span [("name", .str t.text)]

/-- A member access that is not computed. -/
def member (object property : Node) : Parse Node :=
  finish "MemberExpression" object.span
    [("object", .node object), ("property", .node property), ("computed", .bool false)]

/-- A dotted name. -/
def scopedName (fuel : Nat) : Parse Node := do
  let first ← identifier
  loop (fun name => do
    if ← skip .dot then
      let property ← identifier
      let name ← member name property
      pure (name, true)
    else pure (name, false)) fuel first

/-- One closing angle. Of a double one only the first half is consumed; the second half takes its
place. -/
def closeAngle : Parse Unit := do
  let t ← current
  match t.kind with
  | .greater =>
    let _ ← advance
  | .shiftRight =>
    let s := t.span
    let first : Token :=
      ⟨.greater, ">", ⟨s.start, s.start + 1, s.line, s.col, s.line, s.col + 1⟩⟩
    let second : Token :=
      ⟨.greater, ">", ⟨s.start + 1, s.stop, s.line, s.col + 1, s.endLine, s.endCol⟩⟩
    modify fun p => { p with rest := second :: p.rest.drop 1, last := some first }
  | _ => complain .unclosedGenerics t

/-- Generic arguments in angles, if there are any. -/
def generics (fuel : Nat) (types : Parse Node) : Parse (Option (List Node)) := do
  if ← skip .less then
    let first ← types
    let more ← loop (fun acc => do
      if ← skip .comma then
        let n ← types
        pure (n :: acc, true)
      else pure (acc, false)) fuel [first]
    closeAngle
    pure (some more.reverse)
  else pure none

/-- Generic arguments as the value of a field. -/
def genericsField (ns : Option (List Node)) : Value := (ns.map nodes).getD .null

/-- An identifier with an optional type. -/
def typedIdentifier (types : Parse Node) : Parse Node := do
  let name ← identifier
  if ← skip .asWord then
    let ts ← types
    finish "BinaryExpression" name.span
      [("operator", .str "as"), ("left", .node name), ("right", .node ts)]
  else pure name

/-- Parameters in parentheses. -/
def params (fuel : Nat) (types : Parse Node) : Parse (List Node) := do
  let _ ← expect .leftParen "'(' to open the parameter list"
  let ns ← commaList fuel .rightParen (typedIdentifier types)
  let _ ← expect .rightParen "')' to close the parameter list"
  pure ns

/-- A type behind `as`, if there is one. -/
def returnType (types : Parse Node) : Parse (Option Node) := do
  match ← accept .asWord with
  | none => pure none
  | some t =>
    let ts ← types
    let n ← finish "UnaryExpression" t.span
      [("operator", .str " as"), ("argument", .node ts), ("prefix", .bool true)]
    pure (some n)

/-- The tokens that may follow a complete type; before them a question mark belongs to the
type. -/
def afterType : List TokenKind :=
  [.rightParen, .comma, .semicolon, .assign, .leftBrace, .rightBrace, .rightBracket, .greater,
    .shiftRight, .question, .endOfInput]

/-- A callable type in parentheses. -/
def callableType (fuel : Nat) (types : Parse Node) : Parse Node := do
  let first ← advance
  let name ← identifier
  let callFirst ← current
  let ps ← params fuel types
  let result ← returnType types
  let call ← finish "MethodDefinition" callFirst.span
    [("kind", .str "method"), ("key", .str ""), ("params", nodes ps),
      ("returnType", optional result)]
  let _ ← expect .rightParen "')' to close the callable type"
  finish "TypeSpecPart" first.span [("name", .node name), ("callspec", .node call)]

/-- A type without alternatives. -/
def singleType (fuel : Nat) (types : Parse Node) : Parse Node := do
  let first ← current
  let part ←
    if first.kind = .leftParen && (← second).text = "Method" then callableType fuel types
    else if first.kind = .leftBrace then complain .dictionaryType first
    else do
      let name ← scopedName fuel
      let gs ← generics fuel types
      finish "TypeSpecPart" first.span [("name", .node name), ("generics", genericsField gs)]
  if (← nextIs .question) && afterType.contains (← second).kind then
    let _ ← advance
    finish "TypeSpecPart" first.span (Fields.insert part.fields "nullable" (.bool true))
  else pure part

/-- Types joined by `or`, given how to read nested ones. -/
def typeList (fuel : Nat) (types : Parse Node) : Parse Node := do
  let first ← current
  let part ← singleType fuel types
  let parts ← loop (fun acc => do
    if ← atText .or "or" then
      let _ ← advance
      let n ← singleType fuel types
      pure (n :: acc, true)
    else pure (acc, false)) fuel [part]
  finish "TypeSpecList" first.span [("ts", nodes parts.reverse)]

/-- Types joined by `or`; `fuel` bounds how deep they are nested. -/
def types : Nat → Parse Node
  | 0 => throw .exhausted
  | fuel + 1 => typeList (fuel + 1) (types fuel)

end Parse

end MonkeyFormat
