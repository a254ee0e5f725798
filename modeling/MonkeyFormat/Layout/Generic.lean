import MonkeyFormat.Json.Writer
import MonkeyFormat.Layout.Comments
import MonkeyFormat.Layout.Nesting
import MonkeyFormat.Literal.Spelling

set_option autoImplicit false

/-! # The generic layout

Rules for the kinds of node that C-like languages share: programs, blocks, statements,
declarations and expressions. Blocks are always broken, one statement a line, and keep at most one
blank line where the source has some. Lists of arguments, parameters and elements break all or
none; arrays of numbers fill their lines. Chains of binary operators of one rank are laid out as
one. Dictionaries stay broken where the source breaks them behind the brace. -/

namespace MonkeyFormat

namespace Layout

/-! ## Small pieces -/

/-- A comma and a space that may break. -/
def commaLine : Doc := .list [.bare ",", .space]

/-- A document between delimiters, indented on lines of its own if it does not fit. -/
def enclosed (opening : String) (d : Doc) (closing : String) : Doc :=
  .group (.list [.bare opening, .indent (.list [.softline, d]), .softline, .bare closing]) false

/-- A document between braces, on lines of its own. -/
def braced (d : Doc) : Doc :=
  .list [.bare "\x7b", .indent (.list [.hardline, d]), .hardline, .bare "\x7d"]

/-- Braces around the dangling comments of a node that has nothing else to put there. -/
def emptyBraces (own : List Attached) : Layout Doc := do
  match ← dangling own with
  | none => pure (.bare "\x7b\x7d")
  | some d => pure (braced d)

/-- The kind of a value that should be a node. -/
def kindOf : Value → Except Fault String
  | .node n => pure n.kind
  | _ => throw .noAttribute

/-- The end of a value that should be a node. -/
def stopOf : Value → Except Fault Int
  | .node n => pure n.stop
  | _ => throw .noAttribute

/-- The value of a field as a document; `default` stands for an empty one. -/
def fieldOr (n : Node) (name default : String) : Doc :=
  let v := n.get name
  if v.truthy then Doc.ofValue v else .bare default

/-- Does the source have a blank line behind the value, which should be a node? -/
def blankLineAfter (cx : Context) (v : Value) : Except Fault Bool := do
  if cx.source.isEmpty then pure false
  else
    let stop ← stopOf v
    cx.source.nextLineEmpty stop

/-! ## Shared layouts -/

/-- The elements of a field one on each line, keeping single blank lines of the source. -/
def statements (cx : Context) (child : Child) (c : Cursor) (n : Node) (name : String) :
    Layout (List Doc) := do
  let count ← (n.get name).count
  let cs ← (c.field name).elements
  let parts ← cs.zipIdx.mapM fun (e, i) => do
    let d ← child e none
    if i + 1 < count then
      let blank ← blankLineAfter cx e.focus
      pure ([d, .hardline] ++ if blank then [.hardline] else [])
    else pure [d]
  pure parts.flatten

/-- The elements of a field between braces. -/
def bracedBody (cx : Context) (child : Child) (c : Cursor) (n : Node) : Layout Doc := do
  if (n.get "body").truthy then
    let parts ← statements cx child c n "body"
    pure (braced (.list parts))
  else emptyBraces (own cx c)

/-- Parameters between parentheses. -/
def parameters (child : Child) (c : Cursor) (n : Node) : Layout Doc := do
  if (n.get "params").truthy then
    let ds ← eachOf child c "params"
    pure (enclosed "(" (Doc.join commaLine ds) ")")
  else pure (.bare "()")

/-- Is the value a dictionary or an array with something in it? -/
def isFilledCollection : Value → Bool
  | .node n =>
    match n.kind with
    | "ObjectExpression" => (n.get "properties").truthy
    | "ArrayExpression" => (n.get "elements").truthy
    | _ => false
  | _ => false

/-- Arguments between parentheses. A sole dictionary or array keeps its brackets next to them. -/
def callArguments (cx : Context) (child : Child) (c : Cursor) (n : Node) : Layout Doc := do
  if (n.get "arguments").truthy then
    let vs ← (n.get "arguments").elements
    let ds ← eachOf child c "arguments"
    match vs, ds with
    | [v], [d] =>
      if isFilledCollection v then pure (.list [.bare "(", d, .bare ")"])
      else pure (enclosed "(" (Doc.join commaLine ds) ")")
    | _, _ => pure (enclosed "(" (Doc.join commaLine ds) ")")
  else
    let own := own cx c
    if hasDangling own then
      let inline := (own.filter fun a => a.role = .dangling).all fun a => a.comment.isBlock
      let d := (← dangling own).getD (.bare "")
      if inline then pure (.list [.bare "(", d, .bare ")"])
      else
        pure (.list [.bare "(", .indent (.list [.hardline, d]), .hardline, .bare ")"])
    else pure (.bare "()")

/-- The kinds that never move to a line of their own behind an assignment. -/
def staysBehindOperator : Value → Bool
  | .node n =>
    ["CallExpression", "NewExpression", "ObjectExpression", "ArrayExpression",
      "SizedArrayExpression", "Literal", "Identifier", "ThisExpression", "MemberExpression",
      "UnaryExpression", "UpdateExpression"].contains n.kind
  | _ => false

/-- Two sides of an assignment. -/
def assignment (left : Doc) (op : String) (rightValue : Value) (right : Doc) : Doc :=
  if staysBehindOperator rightValue then
    .group (.list [.group left false, .bare op, .bare " ", right]) false
  else
    .group (.list [.group left false, .bare op,
      .group (.indent (.list [.space, right])) false]) false

/-- A name with an optional value. -/
def initialized (child : Child) (c : Cursor) (n : Node) : Layout Doc := do
  let name ← child c "id"
  let init := n.get "init"
  if init.isNull then pure name
  else
    let value ← child c "init"
    pure (assignment name " =" init value)

/-- The test of a statement, to stand between parentheses. -/
def testClause (child : Child) (c : Cursor) : Layout Doc := do
  let d ← child c "test"
  pure (.group (.list [.indent (.list [.softline, d]), .softline]) false)

/-- A branch or body behind its header: on the same line if it is a block or has to be. -/
def clause (v : Value) (d : Doc) (sameLine : Bool) : Except Fault Doc := do
  if v.isNull then pure (.bare ";")
  else
    let kind ← kindOf v
    if kind = "BlockStatement" || sameLine then pure (.list [.bare " ", d])
    else pure (.indent (.list [.space, d]))

/-- Is the value a block? -/
def isBlock : Value → Bool
  | .node n => n.kind = "BlockStatement"
  | _ => false

/-! ## Declarations -/

/-- The root of a source. -/
def program (cx : Context) (child : Child) (c : Cursor) (n : Node) : Layout Doc := do
  if (n.get "body").truthy then
    let parts ← statements cx child c n "body"
    pure (.list [.list parts, .hardline])
  else
    match ← dangling (own cx c) with
    | none => pure (.bare "")
    | some d => pure (.list [d, .hardline])

/-- Does one of the declared variables have a value? -/
def anyInit : List Value → Except Fault Bool
  | [] => pure false
  | .node d :: vs => if (d.get "init").isNull then anyInit vs else pure true
  | _ :: _ => throw .noAttribute

/-- A declaration of variables; in the header of a loop it has no semicolon. -/
def variableDeclaration (child : Child) (c : Cursor) (n : Node) : Layout Doc := do
  let vs ← (n.get "declarations").elements
  let ds ← eachOf child c "declarations"
  let hasValue ← anyInit vs
  let break_ := if hasValue then Doc.hardline else .space
  let inHeader := match c.parent with
    | some p => p.kind = "ForStatement" && c.key == some "init"
    | none => false
  pure (.group (.list ([fieldOr n "kind" "var", .bare " ", ds.headD (.bare ""),
    .indent (.list ((ds.drop 1).map fun d => .list [.bare ",", break_, d]))] ++
    if inHeader then [] else [.bare ";"])) false)

/-- The parameters and the result of a function. -/
def signature (child : Child) (c : Cursor) (n : Node) : Layout Doc := do
  let ps ← parameters child c n
  let result ← child c "returnType"
  pure (.group (.list [ps, result]) false)

/-- A function. -/
def functionDeclaration (child : Child) (c : Cursor) (n : Node) : Layout Doc := do
  let sig ← signature child c n
  let name ← child c "id"
  if (n.get "body").isNull then pure (.list [.bare "function ", name, sig, .bare ";"])
  else
    let body ← child c "body"
    pure (.list [.bare "function ", name, sig, .bare " ", body])

/-- The signature of a method, behind its key. -/
def methodDefinition (child : Child) (c : Cursor) (n : Node) : Layout Doc := do
  let key ← if (n.get "key").isNode then child c "key" else pure (fieldOr n "key" "")
  let sig ← signature child c n
  pure (.list [key, sig])

/-- A class. -/
def classDeclaration (child : Child) (c : Cursor) (n : Node) : Layout Doc := do
  let name ← child c "id"
  let base ← if (n.get "superClass").isNull then pure []
    else do
      let d ← child c "superClass"
      pure [Doc.bare " extends ", d]
  let body ← child c "body"
  pure (.list ([.bare "class ", name] ++ base ++ [.bare " ", body]))

/-- The members of an enumeration. -/
def enumBody (cx : Context) (child : Child) (c : Cursor) (n : Node) : Layout Doc := do
  if (n.get "members").truthy then
    let ds ← eachOf child c "members"
    pure (braced (Doc.join (.list [.bare ",", .hardline]) ds))
  else emptyBraces (own cx c)

/-! ## Statements -/

/-- A choice. -/
def ifStatement (child : Child) (c : Cursor) (n : Node) : Layout Doc := do
  let test ← testClause child c
  let consequent := n.get "consequent"
  let consequentDoc ← child c "consequent"
  let first ← clause consequent consequentDoc false
  let head : Doc := .group (.list [.bare "if (", test, .bare ")", first]) false
  let alternate := n.get "alternate"
  if alternate.isNull then pure (.list [head])
  else
    let alternateDoc ← child c "alternate"
    let kind ← kindOf alternate
    let second ← clause alternate alternateDoc (kind = "IfStatement")
    pure (.list [head, if isBlock consequent then .bare " " else .hardline,
      .list [.bare "else", .group second false]])

/-- A loop that tests first. -/
def whileStatement (child : Child) (c : Cursor) (n : Node) : Layout Doc := do
  let test ← testClause child c
  let body ← child c "body"
  let body ← clause (n.get "body") body false
  pure (.group (.list [.bare "while (", test, .bare ")", body]) false)

/-- A loop that tests last. -/
def doStatement (child : Child) (c : Cursor) (n : Node) : Layout Doc := do
  let body ← child c "body"
  let body ← clause (n.get "body") body false
  let test ← testClause child c
  pure (.list [.group (.list [.bare "do", body]) false,
    if isBlock (n.get "body") then .bare " " else .hardline,
    .bare "while (", test, .bare ");"])

/-- A loop with a header of three parts. -/
def forStatement (child : Child) (c : Cursor) (n : Node) : Layout Doc := do
  let body ← child c "body"
  let body ← clause (n.get "body") body false
  if (n.get "init").isNull && (n.get "test").isNull && (n.get "update").isNull then
    pure (.list [.bare "for (;;)", body])
  else
    let init ← child c "init"
    let test ← child c "test"
    let update ← child c "update"
    let header : Doc := .group (.list [.indent (.list [.softline, init, .bare ";", .space, test,
      .bare ";", .space, update]), .softline]) false
    pure (.list [.bare "for (", header, .bare ")", body])

/-- A choice among cases. -/
def switchStatement (cx : Context) (child : Child) (c : Cursor) (n : Node) : Layout Doc := do
  let discriminant ← child c "discriminant"
  let head := enclosed "switch (" discriminant ")"
  let body ← if (n.get "cases").truthy then do
      let parts ← statements cx child c n "cases"
      pure [Doc.indent (.list [.hardline, .list parts])]
    else do
      match ← dangling (own cx c) with
      | none => pure []
      | some d => pure [Doc.indent (.list [.hardline, d])]
  pure (.list ([head, .bare " \x7b"] ++ body ++ [.hardline, .bare "\x7d"]))

/-- A case of a switch. A sole block stays on the line of its label. -/
def switchCase (cx : Context) (child : Child) (c : Cursor) (n : Node) : Layout Doc := do
  let label ← if (n.get "test").isNull then pure [Doc.bare "default:"]
    else do
      let d ← child c "test"
      pure [Doc.bare "case ", d, .bare ":"]
  let consequent := n.get "consequent"
  let count ← consequent.count
  let soleBlock ← if count = 1 then do
      let first ← consequent.child (.index 0)
      pure ((← kindOf first) == "BlockStatement")
    else pure false
  if soleBlock then
    let e ← (c.field "consequent").down (.index 0)
    let d ← child e none
    pure (.list (label ++ [.bare " ", d]))
  else if consequent.truthy then
    let parts ← statements cx child c n "consequent"
    pure (.list (label ++ [.indent (.list [.hardline, .list parts])]))
  else pure (.list label)

/-- A guarded block. -/
def tryStatement (child : Child) (c : Cursor) (n : Node) : Layout Doc := do
  let block ← child c "block"
  let handler ← if (n.get "handler").isNull then pure []
    else do
      let d ← child c "handler"
      pure [Doc.bare " ", d]
  let finalizer ← if (n.get "finalizer").isNull then pure []
    else do
      let d ← child c "finalizer"
      pure [Doc.bare " finally ", d]
  pure (.list ([.bare "try ", block] ++ handler ++ finalizer))

/-- A handler. -/
def catchClause (child : Child) (c : Cursor) (n : Node) : Layout Doc := do
  if (n.get "param").isNull then
    let body ← child c "body"
    pure (.list [.bare "catch ", body])
  else
    let param ← child c "param"
    let body ← child c "body"
    pure (.list [.bare "catch (", param, .bare ") ", body])

/-- A return. -/
def returnStatement (child : Child) (c : Cursor) (n : Node) : Layout Doc := do
  if (n.get "argument").isNull then pure (.bare "return;")
  else
    let d ← child c "argument"
    pure (.list [.bare "return ", d, .bare ";"])

/-! ## Expressions -/

/-- A literal. A number gets the generic spelling of its text, or of its value without one. -/
def literal (n : Node) : Layout Doc := do
  let value := n.get "value"
  let raw := n.get "raw"
  if value.isNumber then
    if raw.truthy then
      match raw with
      | .str s => pure (.bare (Literal.generic s))
      | .node m => throw (.noField m.kind "lower")
      | _ => throw .noAttribute
    else pure (.bare (Literal.generic value.describe))
  else if raw.truthy then pure (Doc.ofValue raw)
  else
    let s ← Json.write value
    pure (.bare s)

/-- An operator before its operand; a word is set apart by a space. -/
def unaryExpression (child : Child) (c : Cursor) (n : Node) : Layout Doc := do
  match n.get "operator" with
  | .str op =>
    let d ← child c "argument"
    let gap := if Literal.endsWith Text.isLetter op then " " else ""
    pure (.list [.bare op, .bare gap, d])
  | .list _ => throw .noAttribute
  | _ => throw .wrongType

/-- An increment or decrement. -/
def updateExpression (child : Child) (c : Cursor) (n : Node) : Layout Doc := do
  let op := Doc.ofValue (n.get "operator")
  let d ← child c "argument"
  pure (.list (if (n.get "prefix").truthy then [op, d] else [d, op]))

/-- Is the value a binary or logical expression? -/
def isBinaryish : Value → Bool
  | .node n => n.kind = "BinaryExpression" || n.kind = "LogicalExpression"
  | _ => false

/-- Is the left operand laid out as part of the same chain? -/
def chainsLeft (n : Node) : Bool :=
  match n.get "left" with
  | .node l => isBinaryish (.node l) && Operator.flattens (n.get "operator") (l.get "operator")
  | _ => false

/-- Does the right operand stay behind its logical operator? -/
def inlinesRight (n : Node) : Bool :=
  n.kind = "LogicalExpression" && isFilledCollection (n.get "right")

/-- Is the value a node of this kind? -/
def isKind (kind : String) : Value → Bool
  | .node n => n.kind = kind
  | _ => false

/-- The operands and operators of a chain. The operands that are flattened into it do not pass
through the callback, so their comments are laid out here. `fuel` bounds the length of the
chain. -/
def chain (cx : Context) (child : Child) : Nat → Bool → Cursor → Node → Layout (List Doc)
  | 0, _, _, _ => throw .exhausted
  | fuel + 1, nested, c, n => do
    let left := n.get "left"
    let front ← match left with
      | .node l =>
        if chainsLeft n then chain cx child fuel true (c.field "left") l
        else do
          let d ← child c "left"
          pure [Doc.group d false]
      | _ => do
        let d ← child c "left"
        pure [Doc.group d false]
    let d ← child c "right"
    let right : Doc := .list [Doc.ofValue (n.get "operator"),
      if inlinesRight n then .bare " " else .space, d]
    let sameAbove := match c.parent with
      | some p => p.kind == n.kind
      | none => false
    let alone := !sameAbove && !isKind n.kind left && !isKind n.kind (n.get "right")
    let parts := front ++ [.bare " ", if alone then .group right false else right]
    let own := own cx c
    if nested && !own.isEmpty then
      let d ← withComments cx own (.list parts)
      pure [d]
    else pure parts

/-- The field of a statement that is laid out between parentheses. -/
def testField? : String → Option String
  | "IfStatement" => some "test"
  | "WhileStatement" => some "test"
  | "DoWhileStatement" => some "test"
  | "SwitchStatement" => some "discriminant"
  | _ => none

/-- Does a chain under this parent and grandparent break without indentation? -/
def breaksFlush (parent : Node) (grandparent : Option Node) : Bool :=
  ["ReturnStatement", "ThrowStatement", "ForStatement"].contains parent.kind ||
  (parent.kind = "ConditionalExpression" &&
    match grandparent with
    | none => true
    | some g =>
      !(["ReturnStatement", "ThrowStatement", "CallExpression", "NewExpression"].contains g.kind))

/-- A chain of binary or logical operators; where it stands decides how it is indented. -/
def binaryExpression (cx : Context) (child : Child) (c : Cursor) (n : Node) : Layout Doc := do
  let parts ← chain cx child n.depth false c n
  let plain : Doc := .group (.list parts) false
  match c.ancestors with
  | [] => pure plain
  | parent :: above =>
    if (testField? parent.kind).isSome && testField? parent.kind == c.key then pure (.list parts)
    else if parent.kind = "UnaryExpression" ||
        (parent.kind = "ArrayExpression" && c.index.isSome) then
      pure (.group (.list [.indent (.list [.softline, .list parts]), .softline]) false)
    else
      let inline := inlinesRight n
      let isValue := ["AssignmentExpression", "VariableDeclarator", "Property",
        "EnumStringMember"].contains parent.kind
      if breaksFlush parent above.head? || (inline && !chainsLeft n) || (!inline && isValue) then
        pure plain
      else
        pure (.group (.list [parts.headD (.bare ""), .indent (.list (parts.drop 1))]) false)

/-- An assignment as an expression. -/
def assignmentExpression (child : Child) (c : Cursor) (n : Node) : Layout Doc := do
  let left ← child c "left"
  match n.get "operator" with
  | .str op =>
    let right ← child c "right"
    pure (assignment left (" " ++ op) (n.get "right") right)
  | _ => throw .wrongType

/-- A conditional. -/
def conditionalExpression (child : Child) (c : Cursor) : Layout Doc := do
  let test ← child c "test"
  let consequent ← child c "consequent"
  let alternate ← child c "alternate"
  pure (.group (.list [test, .indent (.list [.space, .bare "? ", consequent, .space, .bare ": ",
    alternate])]) false)

/-- A member access. -/
def memberExpression (child : Child) (c : Cursor) (n : Node) : Layout Doc := do
  let object ← child c "object"
  let property ← child c "property"
  pure (.list (if (n.get "computed").truthy then [object, .bare "[", property, .bare "]"]
    else [object, .bare ".", property]))

/-- Is the node a number, perhaps with a sign? -/
def isNumeric (n : Node) : Bool :=
  let inner := if n.kind = "UnaryExpression" &&
      ((n.get "operator").isStr "-" || (n.get "operator").isStr "+") then n.get "argument"
    else .node n
  match inner with
  | .node m => m.kind = "Literal" && (m.get "value").isNumber
  | _ => false

/-- Are there several elements and all of them numbers? -/
def allNumeric (vs : List Value) : Bool :=
  1 < vs.length && vs.all fun
    | .node n => isNumeric n
    | _ => false

/-- Do all values have the kind, and more than one entry in the field? -/
def allLarge (kind name : String) : List Value → Except Fault Bool
  | [] => pure true
  | .node e :: vs =>
    if e.kind = kind then do
      let count ← (e.get name).count
      if 1 < count then allLarge kind name vs else pure false
    else pure false
  | _ :: _ => pure false

/-- Are these several arrays, or several dictionaries, each with several entries? -/
def isTable (vs : List Value) : Except Fault Bool :=
  if vs.length < 2 then pure false
  else match vs with
    | .node first :: _ =>
      match first.kind with
      | "ObjectExpression" => allLarge first.kind "properties" vs
      | "ArrayExpression" => allLarge first.kind "elements" vs
      | _ => pure false
    | _ => pure false

/-- Numbers with commas that fill their lines, keeping blank lines of the source. -/
def filled (cx : Context) : List (Value × Doc) → Except Fault (List Doc)
  | [] => pure []
  | [(_, d)] => pure [d]
  | (v, d) :: more => do
    let blank ← blankLineAfter cx v
    let rest ← filled cx more
    pure (.list [d, .bare ","] :: (if blank then .list [.hardline, .hardline] else .space) :: rest)

/-- An array. -/
def arrayExpression (cx : Context) (child : Child) (c : Cursor) (n : Node) : Layout Doc := do
  if (n.get "elements").truthy then
    let vs ← (n.get "elements").elements
    let ds ← eachOf child c "elements"
    let body ← if allNumeric vs then do
        let parts ← filled cx (vs.zip ds)
        pure (Doc.fill parts)
      else pure (Doc.join commaLine ds)
    let table ← isTable vs
    pure (.group (.list [.bare "[", .indent (.list [.softline, body]), .softline, .bare "]"])
      table)
  else
    match ← dangling (own cx c) with
    | none => pure (.bare "[]")
    | some d =>
      pure (.group (.list [.bare "[", .indent (.list [.softline, d]), .softline, .bare "]"]) true)

/-- Does the source break the line between the start of a dictionary and its first entry? -/
def isExpanded (cx : Context) (n : Node) : Except Fault Bool := do
  if cx.source.isEmpty then pure false
  else
    let first ← (n.get "properties").child (.index 0)
    match first with
    | .node e => pure ((cx.source.slice n.start e.start).toList.contains '\n')
    | _ => throw .noAttribute

/-- A dictionary. -/
def objectExpression (cx : Context) (child : Child) (c : Cursor) (n : Node) : Layout Doc := do
  if (n.get "properties").truthy then
    let expanded ← isExpanded cx n
    let ds ← eachOf child c "properties"
    pure (.group (.list [.bare "\x7b", .indent (.list [.space, Doc.join commaLine ds]), .space,
      .bare "\x7d"]) expanded)
  else emptyBraces (own cx c)

/-! ## The rules -/

/-- Lays out a node by the rule of the given name. Three layouts that are shared by several kinds
have names too; some names belong to layouts that cannot stand for a node. -/
def genericRule (cx : Context) (child : Child) (c : Cursor) (n : Node) : String → Layout Doc
  | "program" => program cx child c n
  | "statement_sequence" => do
    let parts ← statements cx child c n "body"
    pure (.list parts)
  | "braced_body" => bracedBody cx child c n
  | "call_arguments" => callArguments cx child c n
  | "block_statement" => bracedBody cx child c n
  | "class_body" => bracedBody cx child c n
  | "variable_declaration" => variableDeclaration child c n
  | "variable_declarator" => initialized child c n
  | "function_declaration" => functionDeclaration child c n
  | "method_definition" => methodDefinition child c n
  | "class_declaration" => classDeclaration child c n
  | "enum_string_body" => enumBody cx child c n
  | "enum_string_member" => initialized child c n
  | "expression_statement" => do
    let d ← child c "expression"
    pure (.list [d, .bare ";"])
  | "if_statement" => ifStatement child c n
  | "while_statement" => whileStatement child c n
  | "do_while_statement" => doStatement child c n
  | "for_statement" => forStatement child c n
  | "switch_statement" => switchStatement cx child c n
  | "switch_case" => switchCase cx child c n
  | "try_statement" => tryStatement child c n
  | "catch_clause" => catchClause child c n
  | "return_statement" => returnStatement child c n
  | "throw_statement" => do
    let d ← child c "argument"
    pure (.list [.bare "throw ", d, .bare ";"])
  | "break_statement" => pure (.bare "break;")
  | "continue_statement" => pure (.bare "continue;")
  | "identifier" => pure (Doc.ofValue (n.get "name"))
  | "this_expression" => pure (fieldOr n "text" "self")
  | "literal" => literal n
  | "parenthesized_expression" => do
    let d ← child c "expression"
    pure (.list [.bare "(", d, .bare ")"])
  | "unary_expression" => unaryExpression child c n
  | "update_expression" => updateExpression child c n
  | "binary_expression" => binaryExpression cx child c n
  | "logical_expression" => binaryExpression cx child c n
  | "assignment_expression" => assignmentExpression child c n
  | "conditional_expression" => conditionalExpression child c
  | "sequence_expression" => do
    let ds ← eachOf child c "expressions"
    pure (.group (Doc.join commaLine ds) false)
  | "member_expression" => memberExpression child c n
  | "call_expression" => do
    let callee ← child c "callee"
    let args ← callArguments cx child c n
    pure (.list [callee, args])
  | "new_expression" => do
    let callee ← child c "callee"
    let args ← callArguments cx child c n
    pure (.list [.bare "new ", callee, args])
  | "array_expression" => arrayExpression cx child c n
  | "object_expression" => objectExpression cx child c n
  | "comment" => throw .wrongType
  | "params" => throw .wrongType
  | "assignment" => throw .wrongType
  | "test_clause" => throw .wrongType
  | _ => throw (.noRule n.kind)

/-- Lays out what the cursor points to. Nothing stands for an absent value, a text for itself, and
a node is put in parentheses where its surroundings ask for them. -/
def generic (cx : Context) (child : Child) (c : Cursor) : Layout Doc := do
  match c.focus with
  | .null => pure (.bare "")
  | .str s => pure (.bare s)
  | .node n =>
    let d ← genericRule cx child c n (snake n.kind)
    pure (if Nesting.parenthesized c then .list [.bare "(", d, .bare ")"] else d)
  | _ => throw .noAttribute

end Layout

end MonkeyFormat
