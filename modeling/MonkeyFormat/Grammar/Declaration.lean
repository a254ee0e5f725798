import MonkeyFormat.Grammar.Statement

set_option autoImplicit false

/-! # Declarations

Modules, classes, functions, variables, enumerations, type definitions and imports, with the
attributes and access words before them. -/

namespace MonkeyFormat

namespace Parse

/-- A renaming import. -/
def usingDeclaration (fuel : Nat) : Parse Node := do
  let first ← advance
  let name ← scopedName fuel
  let shortName ← if ← skip .asWord then some <$> identifier else pure none
  let _ ← expect .semicolon "';' after using"
  finish "Using" first.span [("id", .node name), ("as", optional shortName)]

/-- An import. -/
def importDeclaration (fuel : Nat) : Parse Node := do
  let first ← advance
  let name ← scopedName fuel
  let _ ← expect .semicolon "';' after import"
  finish "ImportModule" first.span [("id", .node name)]

/-- Attributes in parentheses. -/
def attributes (fuel : Nat) : Parse Node := do
  let first ← advance
  let ns ← commaList fuel .rightParen (postfixed fuel (expression fuel))
  let _ ← expect .rightParen "')' to close the attribute list"
  finish "Attributes" first.span [("elements", nodes ns)]

/-- Access words one after the other. -/
def accessWords (fuel : Nat) : Parse (List String) := do
  let ws ← loop (fun acc => do
    match ← accept .access with
    | some t => pure (t.text :: acc, true)
    | none => pure (acc, false)) fuel []
  pure ws.reverse

/-- Attributes and access words before a declaration, if there are any. -/
def attributeList (fuel : Nat) : Parse (Option Node) := do
  let first ← current
  let attrs ← if first.kind = .leftParen then some <$> attributes fuel else pure none
  let words ← accessWords fuel
  if attrs.isNone && words.isEmpty then pure none
  else
    let access : Value := if words.isEmpty then .null else .list (words.map .str)
    some <$> finish "AttributeList" first.span
      [("attributes", optional attrs), ("access", access)]

/-- A module with its declarations. -/
def moduleDeclaration (fuel : Nat) (item : Parse Node) (first : Span) (attrs : Option Node) :
    Parse Node := do
  let _ ← advance
  let name ← identifier
  let opening ← expect .leftBrace "'\x7b' to open the module body"
  let ns ← bodyUntilBrace fuel item
  let body ← finish "BlockStatement" opening.span [("body", nodes ns)]
  finish "ModuleDeclaration" first
    [("attrs", optional attrs), ("id", .node name), ("body", .node body)]

/-- A class with its members. -/
def classDeclaration (fuel : Nat) (item : Parse Node) (first : Span) (attrs : Option Node) :
    Parse Node := do
  let _ ← advance
  let name ← identifier
  let base ← if ← skip .extendsWord then some <$> scopedName fuel else pure none
  let opening ← expect .leftBrace "'\x7b' to open the class body"
  let ns ← bodyUntilBrace fuel item
  let body ← finish "ClassBody" opening.span [("body", nodes ns)]
  finish "ClassDeclaration" first
    [("attrs", optional attrs), ("id", .node name), ("superClass", optional base),
      ("body", .node body)]

/-- A function, with a body or without one. -/
def functionDeclaration (fuel : Nat) (first : Span) (attrs : Option Node) : Parse Node := do
  let _ ← advance
  let name ← identifier
  let ps ← params fuel (types fuel)
  let result ← returnType (types fuel)
  let body ← if ← skip .semicolon then pure none else some <$> block fuel (statement fuel)
  finish "FunctionDeclaration" first
    [("attrs", optional attrs), ("id", .node name), ("params", nodes ps),
      ("returnType", optional result), ("body", optional body)]

/-- A member of an enumeration, with an optional value. -/
def enumMember (fuel : Nat) : Parse Node := do
  let name ← identifier
  if ← atText .assign "=" then
    let _ ← advance
    let init ← expression fuel
    finish "EnumStringMember" name.span [("id", .node name), ("init", .node init)]
  else pure name

/-- An enumeration, with a name or without one. A semicolon behind it is consumed but not
covered. -/
def enumDeclaration (fuel : Nat) (first : Span) (attrs : Option Node) : Parse Node := do
  let _ ← advance
  let name ← if ← nextIs .ident then some <$> identifier else pure none
  let opening ← expect .leftBrace "'\x7b' to open the enum body"
  let ns ← commaList fuel .rightBrace (enumMember fuel)
  let _ ← expect .rightBrace "'\x7d' to close the enum body"
  let body ← finish "EnumStringBody" opening.span [("members", nodes ns)]
  let n ← finish "EnumDeclaration" first
    [("attrs", optional attrs), ("id", optional name), ("body", .node body)]
  let _ ← skip .semicolon
  pure n

/-- A type definition. -/
def typedefDeclaration (fuel : Nat) (first : Span) (attrs : Option Node) : Parse Node := do
  let _ ← advance
  let name ← identifier
  match ← returnType (types fuel) with
  | none => complain .typedefWithoutType (← current)
  | some ts =>
    let _ ← expect .semicolon "';' after typedef"
    finish "TypedefDeclaration" first
      [("attrs", optional attrs), ("id", .node name), ("ts", .node ts)]

/-- A declaration inside a class, given how to read one. -/
def classElementOf (declaration : Parse Node) : Parse Node := do
  let n ← declaration
  pure (spanning "ClassElement" n.span n.span [("item", .node n)])

mutual

/-- A declaration with its attributes; modules only where they are allowed. `fuel` bounds how
deep declarations are nested. -/
def declaration (allowModule : Bool) : Nat → Parse Node
  | 0 => throw .exhausted
  | fuel + 1 => do
    let attrs ← attributeList (fuel + 1)
    let t ← current
    let first := (attrs.map Node.span).getD t.span
    match t.kind with
    | .classWord =>
      classDeclaration (fuel + 1) (classElementOf (declaration false fuel)) first attrs
    | .function => functionDeclaration (fuel + 1) first attrs
    | .var => variablesStatement (fuel + 1) first attrs
    | .const => variablesStatement (fuel + 1) first attrs
    | .enum => enumDeclaration (fuel + 1) first attrs
    | .typedef => typedefDeclaration (fuel + 1) first attrs
    | kind =>
      if kind = .module && allowModule then
        moduleDeclaration (fuel + 1) (topLevel fuel) first attrs
      else complain (.expectedDeclaration t) t

/-- An import or a declaration. -/
def topLevel : Nat → Parse Node
  | 0 => throw .exhausted
  | fuel + 1 => do
    let t ← current
    match t.kind with
    | .using => usingDeclaration (fuel + 1)
    | .importWord => importDeclaration (fuel + 1)
    | _ => declaration true fuel

end

/-- A declaration inside a class. -/
def classElement (fuel : Nat) : Parse Node := classElementOf (declaration false fuel)

end Parse

end MonkeyFormat
