import MonkeyFormat.Operator
import MonkeyFormat.Tree.Cursor

set_option autoImplicit false

/-! # Generic parentheses

Where the generic layout puts an expression in parentheses, by the generic ranks of operators and
the customs of C-like languages. -/

namespace MonkeyFormat

namespace Nesting

/-- Is the value an operator that touches its operand? -/
def isSign (op : Value) : Bool := ["!", "~", "-", "+"].any op.isStr

/-- Does an operand with the operator `node` need parentheses under the operator `parent`? The
ranks decide; of two equal ones the right operand, and a chain that must be kept apart, needs
them. Mixtures that are easily misread get them too. -/
def betweenOperators (node parent : Value) (key : Option String) : Bool :=
  match Operator.rankOf parent, Operator.rankOf node with
  | some parentRank, some nodeRank =>
    if parentRank < nodeRank then true
    else if parentRank = nodeRank ∧ (key = some "right" ∨ !Operator.flattens parent node) then true
    else if nodeRank < parentRank ∧ node.isStr "%" then parent.isStr "+" || parent.isStr "-"
    else (parent.str?.map Operator.isBitwise).getD false
  | _, _ => false

/-- The fields whose child comes first in the text of its parent. -/
def isLeftmost (parent : Node) (key : String) : Bool :=
  [("MemberExpression", "object"), ("CallExpression", "callee"), ("BinaryExpression", "left"),
    ("LogicalExpression", "left"), ("AssignmentExpression", "left"),
    ("ConditionalExpression", "test")].contains (parent.kind, key) ||
  (parent.kind = "UpdateExpression" && !(parent.get "prefix").truthy)

/-- Does the way down from a statement lead only through first children? -/
def startsStatement : List (Step × Value) → Bool
  | (.field key, .node parent) :: above =>
    parent.kind = "ExpressionStatement" || (isLeftmost parent key && startsStatement above)
  | _ => false

/-- Is the field that of an object, or that of a callee? -/
def isHead (parentKind : String) (key : Option String) : Bool :=
  (parentKind = "MemberExpression" && key == some "object") ||
  (["CallExpression", "NewExpression"].contains parentKind && key == some "callee")

/-- Does a node under a parent need parentheses, apart from dictionaries? -/
def needed (node parent : Node) (key : Option String) : Bool :=
  let op := node.get "operator"
  let parentOp := parent.get "operator"
  let isParent (kinds : List String) : Bool := kinds.contains parent.kind
  match node.kind with
  | "BinaryExpression" =>
    if isParent ["UnaryExpression"] then isSign parentOp
    else if isParent ["UpdateExpression"] then true
    else if isParent ["BinaryExpression", "LogicalExpression"] then
      betweenOperators op parentOp key
    else isHead parent.kind key
  | "LogicalExpression" =>
    if isParent ["UnaryExpression"] then isSign parentOp
    else if isParent ["UpdateExpression", "BinaryExpression"] then true
    else if isParent ["LogicalExpression"] then betweenOperators op parentOp key
    else isHead parent.kind key
  | "ConditionalExpression" =>
    if isParent ["BinaryExpression", "LogicalExpression", "UpdateExpression"] then true
    else if isParent ["UnaryExpression"] then isSign parentOp
    else if isParent ["ConditionalExpression"] then key == some "test"
    else isHead parent.kind key
  | "AssignmentExpression" =>
    if isParent ["ExpressionStatement", "ForStatement", "SequenceExpression"] then false
    else if isParent ["AssignmentExpression"] then key != some "right"
    else true
  | "SequenceExpression" =>
    !isParent ["ForStatement", "ExpressionStatement", "SequenceExpression"]
  | "UnaryExpression" =>
    if !isSign op then false
    else if isParent ["UnaryExpression"] then
      (op.isStr "-" && parentOp.isStr "-") || (op.isStr "+" && parentOp.isStr "+")
    else isHead parent.kind key
  | "UpdateExpression" => (node.get "prefix").truthy && isHead parent.kind key
  | "NewExpression" => isParent ["CallExpression"] && key == some "callee"
  | "CallExpression" => isParent ["NewExpression"] && key == some "callee"
  | _ => false

/-- Is the node under the cursor put in parentheses? -/
def parenthesized (c : Cursor) : Bool :=
  match c.focus, c.parent with
  | .node n, some parent =>
    if c.index.isSome &&
        ["SequenceExpression", "ArrayExpression", "Attributes"].contains parent.kind then false
    else if n.kind = "ObjectExpression" then startsStatement c.above
    else needed n parent c.key
  | _, _ => false

end Nesting

end MonkeyFormat
