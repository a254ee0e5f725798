import MonkeyFormat.Layout.Generic
import MonkeyFormat.Tree.Equality

set_option autoImplicit false

/-! # The layout of Monkey C

Rules for the kinds of node that only this language has (modules, type definitions, renaming
imports, attributes, type specifications, sized arrays, enumerations, cases by class, several
handlers), and for those that it writes differently (dictionary entries, numbers, byte arrays).
Every other kind is left to the generic layout. -/

namespace MonkeyFormat

namespace Layout

/-- A declaration behind its attributes. -/
def withAttrs (child : Child) (c : Cursor) (n : Node) (body : Doc) : Layout Doc := do
  if (n.get "attrs").isNull then pure body
  else
    let d ← child c "attrs"
    pure (.list [d, body])

/-- A declaration that the generic layout knows, behind its attributes. -/
def attributed (cx : Context) (child : Child) (c : Cursor) (n : Node) : Layout Doc := do
  let body ← generic cx child c
  withAttrs child c n body

/-- A module. -/
def moduleDeclaration (child : Child) (c : Cursor) (n : Node) : Layout Doc := do
  let name ← child c "id"
  let body ← child c "body"
  withAttrs child c n (.group (.list
    [.group (.list [.bare "module", .space, .indent name, .space]) false, body]) false)

/-- A type definition. -/
def typedefDeclaration (child : Child) (c : Cursor) (n : Node) : Layout Doc := do
  let name ← child c "id"
  let ts ← child c "ts"
  withAttrs child c n (.list
    [.group (.list [.bare "typedef", .indent .space, name]) false, ts, .bare ";"])

/-- An entry of a dictionary. -/
def property (child : Child) (c : Cursor) : Layout Doc := do
  let key ← child c "key"
  let value ← child c "value"
  pure (.group (.list [.group (.list [key, .space, .bare "=>", .space]) false, value]) false)

/-- An import. -/
def importModule (child : Child) (c : Cursor) : Layout Doc := do
  let name ← child c "id"
  pure (.group (.list [.bare "import", .space, name, .bare ";"]) false)

/-- A renaming import. -/
def usingImport (child : Child) (c : Cursor) (n : Node) : Layout Doc := do
  let name ← child c "id"
  let shortName ← if (n.get "as").isNull then pure []
    else do
      let d ← child c "as"
      pure [Doc.space, .bare "as", .space, d]
  pure (.group (.list ([.bare "using", .space, name] ++ shortName ++ [.bare ";"])) false)

/-- A value inside a text: a text as it is, any other value as a message shows it. -/
def shown : Value → String
  | .str s => s
  | v => v.describe

/-- An identifier; one that has been renamed shows its earlier name in a comment. -/
def identifier (n : Node) : Doc :=
  let name := n.get "name"
  let earlier := n.get "original"
  if earlier.truthy && !earlier.same name then
    .bare (shown name ++ " /*>" ++ shown earlier ++ "<*/")
  else Doc.ofValue name

/-- Alternatives of a type; one that is only completed by the absent value gets a question
mark. -/
def typeSpecList (child : Child) (c : Cursor) : Layout Doc := do
  let ds ← eachOf child c "ts"
  match ds with
  | [d, e] =>
    if e.isBare "Null" then pure (.list [d, .bare "?"])
    else pure (.group (Doc.join (.list [.bare " or", .indent .space]) ds) false)
  | _ => pure (.group (Doc.join (.list [.bare " or", .indent .space]) ds) false)

/-- Explicit parentheses. They are left out around a whole tree, and around a dictionary that is
not the left side of a cast: such a pair only keeps the generic layout from adding its own. -/
def parenthesizedExpression (cx : Context) (child : Child) (c : Cursor) (n : Node) :
    Layout Doc := do
  match c.parent with
  | none => child c "expression"
  | some parent =>
    let isCast := parent.kind = "BinaryExpression" && (parent.get "operator").isStr "as"
    if isKind "ObjectExpression" (n.get "expression") && !isCast then child c "expression"
    else generic cx child c

/-- A field of a value that should be a node or a dictionary. -/
def fieldOf (v : Value) (name : String) : Except Fault Value :=
  match v with
  | .node n => pure (n.get name)
  | .dict es => pure ((es.lookup name).getD .null)
  | _ => throw .noAttribute

/-- Does the last generic argument itself end in a generic argument, so that two closing angles
would meet? -/
def endsInGenerics (generics : Value) : Except Fault Bool := do
  let last ← generics.child (.index (-1))
  let ts ← fieldOf last "ts"
  if ts.truthy then
    let part ← ts.child (.index (-1))
    pure (← fieldOf part "generics").truthy
  else pure false

/-- One alternative of a type. -/
def typeSpecPart (child : Child) (c : Cursor) (n : Node) : Layout Doc := do
  let name ← if (n.get "name").truthy then child c "name" else pure (.bare "")
  let generics ← if (n.get "generics").truthy then do
      let apart ← endsInGenerics (n.get "generics")
      let ds ← eachOf child c "generics"
      pure [Doc.group (.list [.bare "<", .indent (.list [.softline, Doc.join commaLine ds]),
        if apart then .space else .softline, .bare ">"]) false]
    else pure []
  let body ← if (n.get "callspec").isNull then pure (name :: generics)
    else do
      let d ← child c "callspec"
      pure ([.bare "(", name] ++ generics ++
        [.indent (.list [.softline, d]), .softline, .bare ")"])
  let body := if (n.get "nullable").truthy then body ++ [.bare "?"] else body
  pure (match body with
    | [d] => d
    | ds => .list ds)

/-- A new array of a given size. -/
def sizedArray (child : Child) (c : Cursor) (n : Node) : Layout Doc := do
  let ts := n.get "ts"
  let type ← if ts.isNull then pure (.bare "")
    else do
      let d ← child c "ts"
      let hasGenerics := match ts with
        | .node t => (t.get "generics").truthy
        | _ => false
      pure (.list [d, .bare (if hasGenerics then "" else " ")])
  let size ← child c "size"
  pure (.group (.list [.bare "new ", type, .bare "[", .indent size, .bare "]",
    fieldOr n "byte" ""]) false)

/-- An enumeration. -/
def enumDeclaration (child : Child) (c : Cursor) (n : Node) : Layout Doc := do
  let name ← if (n.get "id").isNull then pure []
    else do
      let d ← child c "id"
      pure [d]
  let head ← withAttrs child c n (Doc.join (.bare " ") (.bare "enum" :: name))
  let body ← child c "body"
  pure (.list [head, .bare " ", body])

/-- Attributes in parentheses. -/
def attributes (child : Child) (c : Cursor) : Layout Doc := do
  let ds ← eachOf child c "elements"
  pure (enclosed "(" (.group (Doc.join commaLine ds) false) ")")

/-- The words that a value holds: the texts of a list, the characters of a text, or the keys of a
dictionary. -/
def wordsOf : Value → Except Fault (List String)
  | .list vs => vs.mapM fun
    | .str s => pure s
    | _ => throw .wrongType
  | .str s => pure (s.toList.map String.singleton)
  | .dict es => pure (es.map Prod.fst)
  | _ => throw .wrongType

/-- Access words in alphabetical order, each once and with a space behind it. -/
def accessText (v : Value) : Except Fault String := do
  if v.truthy then
    let words ← wordsOf v
    pure (" ".intercalate (words.eraseDups.mergeSort fun a b => decide (a ≤ b)) ++ " ")
  else pure ""

/-- Attributes on a line of their own, and access words. -/
def attributeList (child : Child) (c : Cursor) (n : Node) : Layout Doc := do
  let access ← accessText (n.get "access")
  if (n.get "attributes").isNull then pure (.bare access)
  else
    let d ← child c "attributes"
    pure (.list [d, .hardline, .bare access])

/-- A literal. A text keeps its spelling; a number that has one gets the spelling of the
language. -/
def monkeyLiteral (cx : Context) (child : Child) (c : Cursor) (n : Node) : Layout Doc := do
  let value := n.get "value"
  let raw := n.get "raw"
  match value, raw with
  | .str _, raw => if raw.isNull then generic cx child c else pure (Doc.ofValue raw)
  | value, raw =>
    if value.isNumber && raw.truthy then
      let d ← generic cx child c
      let rendered ← d.render cx.widths
      let s ← Literal.spell (shown raw) value rendered
      pure (.bare s)
    else generic cx child c

/-- Lays out a node by the rule of the given name; the generic layout has the rules that are not
here. -/
def monkeyRule (cx : Context) (child : Child) (c : Cursor) (n : Node) : String → Layout Doc
  | "module_declaration" => moduleDeclaration child c n
  | "typedef_declaration" => typedefDeclaration child c n
  | "property" => property child c
  | "import_module" => importModule child c
  | "using" => usingImport child c n
  | "identifier" => pure (identifier n)
  | "type_spec_list" => typeSpecList child c
  | "parenthesized_expression" => parenthesizedExpression cx child c n
  | "type_spec_part" => typeSpecPart child c n
  | "array_expression" => do
    let d ← generic cx child c
    pure (.list [d, fieldOr n "byte" ""])
  | "sized_array_expression" => sizedArray child c n
  | "variable_declaration" => attributed cx child c n
  | "function_declaration" => attributed cx child c n
  | "class_declaration" => attributed cx child c n
  | "enum_declaration" => enumDeclaration child c n
  | "attributes" => attributes child c
  | "attribute_list" => attributeList child c n
  | "class_element" => child c "item"
  | "catch_clauses" => do
    let ds ← eachOf child c "catches"
    pure (Doc.join (.bare " ") ds)
  | "this_expression" => pure (fieldOr n "text" "self")
  | "instance_of_case" => do
    let d ← child c "id"
    pure (.list [.bare "instanceof ", d])
  | "literal" => monkeyLiteral cx child c n
  | _ => generic cx child c

/-- Lays out what the cursor points to. -/
def monkey (cx : Context) (child : Child) (c : Cursor) : Layout Doc := do
  match c.focus with
  | .null => pure (.bare "")
  | .str s => pure (.bare s)
  | .node n => monkeyRule cx child c n (snake n.kind)
  | _ => throw .noAttribute

/-- May a node own comments? Attributes leave theirs to what they hold. -/
def mayOwn (n : Node) : Bool := n.kind != "AttributeList"

end Layout

end MonkeyFormat
