import MonkeyFormat.Grammar.Expression

set_option autoImplicit false

/-! # Statements

Each production takes the reader of a nested statement as an argument; `statement` ties the
knot. -/

namespace MonkeyFormat

namespace Parse

/-- A block in braces. -/
def block (fuel : Nat) (stmt : Parse Node) : Parse Node := do
  let first ← expect .leftBrace "'\x7b'"
  let ns ← bodyUntilBrace fuel stmt
  finish "BlockStatement" first.span [("body", nodes ns)]

/-- One of the variables of a declaration, with an optional value. -/
def declarator (fuel : Nat) (kind : String) : Parse Node := do
  let name ← typedIdentifier (types fuel)
  let init ← if ← atText .assign "=" then do
      let _ ← advance
      some <$> expression fuel
    else pure none
  finish "VariableDeclarator" name.span
    [("id", .node name), ("init", optional init), ("kind", .str kind)]

/-- A declaration of variables, without the semicolon behind it. -/
def variableList (fuel : Nat) (first : Span) (attrs : Option Node) : Parse Node := do
  let kind := (← advance).text
  let ns ← loop (fun acc => do
    let n ← declarator fuel kind
    pure (n :: acc, ← skip .comma)) fuel []
  finish "VariableDeclaration" first
    [("attrs", optional attrs), ("declarations", nodes ns.reverse), ("kind", .str kind)]

/-- A declaration of variables with its semicolon, which its span covers. -/
def variablesStatement (fuel : Nat) (first : Span) (attrs : Option Node) : Parse Node := do
  let n ← variableList fuel first attrs
  let _ ← expect .semicolon "';' after variable declaration"
  finish "VariableDeclaration" first n.fields

/-- A condition in parentheses. -/
def parenTest (fuel : Nat) : Parse Node := do
  let _ ← expect .leftParen "'('"
  let n ← expression fuel
  let _ ← expect .rightParen "')'"
  pure n

/-- A choice with an optional second branch. -/
def ifStatement (fuel : Nat) (stmt : Parse Node) : Parse Node := do
  let first ← advance
  let test ← parenTest fuel
  let consequent ← stmt
  let alternate ← if ← skip .elseWord then some <$> stmt else pure none
  finish "IfStatement" first.span
    [("test", .node test), ("consequent", .node consequent), ("alternate", optional alternate)]

/-- A loop that tests first. -/
def whileStatement (fuel : Nat) (stmt : Parse Node) : Parse Node := do
  let first ← advance
  let test ← parenTest fuel
  let body ← stmt
  finish "WhileStatement" first.span [("test", .node test), ("body", .node body)]

/-- A loop that tests last. -/
def doStatement (fuel : Nat) (stmt : Parse Node) : Parse Node := do
  let first ← advance
  let body ← stmt
  let _ ← expect .whileWord "'while' after do body"
  let test ← parenTest fuel
  let _ ← expect .semicolon "';' after do-while"
  finish "DoWhileStatement" first.span [("body", .node body), ("test", .node test)]

/-- A loop with a header of three parts, each of which may be absent. -/
def forStatement (fuel : Nat) (stmt : Parse Node) : Parse Node := do
  let first ← advance
  let _ ← expect .leftParen "'(' after for"
  let t ← current
  let init ← if t.kind = .var then some <$> variableList fuel t.span none
    else if t.kind = .semicolon then pure none
    else some <$> sequence fuel
  let _ ← expect .semicolon "';' after for initializer"
  let test ← if ← nextIs .semicolon then pure none else some <$> expression fuel
  let _ ← expect .semicolon "';' after for test"
  let update ← if ← nextIs .rightParen then pure none else some <$> sequence fuel
  let _ ← expect .rightParen "')' to close for header"
  let body ← stmt
  finish "ForStatement" first.span
    [("init", optional init), ("test", optional test), ("update", optional update),
      ("body", .node body)]

/-- What a case compares with: a class behind `instanceof`, or an expression. -/
def caseTest (fuel : Nat) : Parse Node := do
  match ← accept .instanceOf with
  | some t =>
    let name ← scopedName fuel
    finish "InstanceOfCase" t.span [("id", .node name)]
  | none => expression fuel

/-- A case of a switch, up to the next one. -/
def switchCase (fuel : Nat) (stmt : Parse Node) : Parse Node := do
  let first ← current
  let test ← match first.kind with
    | .case => do
      let _ ← advance
      some <$> caseTest fuel
    | .default => do
      let _ ← advance
      pure none
    | _ => complain .expectedCase first
  let _ ← expect .colon "':' after case label"
  let ns ← many fuel (atAny [.case, .default, .rightBrace, .endOfInput]) stmt
  finish "SwitchCase" first.span [("test", optional test), ("consequent", nodes ns)]

/-- A choice among cases. -/
def switchStatement (fuel : Nat) (stmt : Parse Node) : Parse Node := do
  let first ← advance
  let discriminant ← parenTest fuel
  let _ ← expect .leftBrace "'\x7b' to open the switch body"
  let cases ← many fuel (nextIs .rightBrace) (switchCase fuel stmt)
  let _ ← expect .rightBrace "'\x7d' to close the switch body"
  finish "SwitchStatement" first.span
    [("discriminant", .node discriminant), ("cases", nodes cases)]

/-- What a handler catches: a name, perhaps only for values of a class. -/
def catchParam (fuel : Nat) : Parse Node := do
  let name ← identifier
  if ← skip .instanceOf then
    let kind ← scopedName fuel
    finish "BinaryExpression" name.span
      [("operator", .str "instanceof"), ("left", .node name), ("right", .node kind)]
  else pure name

/-- A handler of a try statement. -/
def catchClause (fuel : Nat) (stmt : Parse Node) : Parse Node := do
  let first ← advance
  let param ← if ← skip .leftParen then do
      let n ← catchParam fuel
      let _ ← expect .rightParen "')' after catch parameter"
      pure (some n)
    else pure none
  let body ← block fuel stmt
  finish "CatchClause" first.span [("param", optional param), ("body", .node body)]

/-- The handlers of a try statement as one node, if there are any. -/
def handlers : List Node → Option Node
  | [] => none
  | [n] => some n
  | n :: m :: ns =>
    some (spanning "CatchClauses" n.span ((m :: ns).getLast (by simp)).span
      [("catches", nodes (n :: m :: ns))])

/-- A guarded block with handlers, a final block, or both. -/
def tryStatement (fuel : Nat) (stmt : Parse Node) : Parse Node := do
  let first ← advance
  let body ← block fuel stmt
  let catches ← many fuel (do pure !(← nextIs .catchWord)) (catchClause fuel stmt)
  let handler := handlers catches
  let finalizer ← if ← skip .finallyWord then some <$> block fuel stmt else pure none
  if handler.isNone && finalizer.isNone then
    complain .expectedHandler (← current)
  finish "TryStatement" first.span
    [("block", .node body), ("handler", optional handler), ("finalizer", optional finalizer)]

/-- A return, with or without a value. -/
def returnStatement (fuel : Nat) : Parse Node := do
  let first ← advance
  let argument ← if ← nextIs .semicolon then pure none else some <$> expression fuel
  let _ ← expect .semicolon "';' after return"
  finish "ReturnStatement" first.span [("argument", optional argument)]

/-- A throw. -/
def throwStatement (fuel : Nat) : Parse Node := do
  let first ← advance
  let argument ← expression fuel
  let _ ← expect .semicolon "';' after throw"
  finish "ThrowStatement" first.span [("argument", .node argument)]

/-- A jump out of a loop or to its next round. -/
def jump : Parse Node := do
  let first ← advance
  let _ ← expect .semicolon ("';' after " ++ first.text)
  finish (if first.kind = .breakWord then "BreakStatement" else "ContinueStatement") first.span []

/-- An expression as a statement. -/
def expressionStatement (fuel : Nat) : Parse Node := do
  let first ← current
  let n ← expression fuel
  let _ ← expect .semicolon "';' after expression"
  finish "ExpressionStatement" first.span [("expression", .node n)]

/-- A statement, given how to read nested ones. -/
def statementWith (fuel : Nat) (stmt : Parse Node) : Parse Node := do
  let t ← current
  match t.kind with
  | .leftBrace => block fuel stmt
  | .ifWord => ifStatement fuel stmt
  | .whileWord => whileStatement fuel stmt
  | .doWord => doStatement fuel stmt
  | .forWord => forStatement fuel stmt
  | .switch => switchStatement fuel stmt
  | .tryWord => tryStatement fuel stmt
  | .returnWord => returnStatement fuel
  | .throwWord => throwStatement fuel
  | .breakWord => jump
  | .continueWord => jump
  | .var => variablesStatement fuel t.span none
  | .const => variablesStatement fuel t.span none
  | _ => expressionStatement fuel

/-- A statement; `fuel` bounds how deep it is nested. -/
def statement : Nat → Parse Node
  | 0 => throw .exhausted
  | fuel + 1 => statementWith (fuel + 1) (statement fuel)

end Parse

end MonkeyFormat
