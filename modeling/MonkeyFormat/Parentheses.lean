import MonkeyFormat.Operator
import MonkeyFormat.Tree.Record

set_option autoImplicit false

/-! # Making parentheses explicit

The generic layout writes parentheses by the generic ranks. Where the language needs a pair that
the generic ranks do not ask for, this pass wraps the subexpression in a node of its own, which is
always laid out with its parentheses. It also makes blocks of the single statements that follow an
`if`, `else`, `while`, `do` or `for`, so that braces are always written. All else is left as it
is: a node of which no field changes is the node itself, and any other is copied with the changes of
its fields. -/

namespace MonkeyFormat

namespace Parentheses

/-- The kinds that may stand alone as a statement, or on the left of a cast, without
parentheses. -/
def safeKinds : List String :=
  ["ThisExpression", "Identifier", "SizedArrayExpression", "ArrayExpression", "Literal",
    "MemberExpression", "NewExpression", "CallExpression", "UnaryExpression",
    "ParenthesizedExpression", "AssignmentExpression", "UpdateExpression"]

/-- May a node of this kind stand alone as a statement without parentheses? -/
def isSafe (kind : String) : Bool := safeKinds.contains kind

/-- Does the language need parentheses between two operators that the generic ranks do not ask
for? -/
def betweenOperators (node parent : Value) (isRight : Bool) : Bool :=
  match node.str?.bind Operator.ranks?, parent.str?.bind Operator.ranks? with
  | some (nodeGeneric, nodeSource), some (parentGeneric, parentSource) =>
    let inSource := parentSource < nodeSource || (isRight && parentSource == nodeSource)
    let generically := parentGeneric < nodeGeneric || (isRight && parentGeneric == nodeGeneric)
    inSource && !generically
  | _, _ => false

/-- Does the decision about `node` below `parent` ask for the ranks of something that no table can
hold? -/
def unranked (node parent : Node) : Bool :=
  node.kind = "BinaryExpression" && parent.kind = "BinaryExpression" &&
    !(parent.get "operator").isStr "as" &&
    !((node.get "operator").isHashable && (parent.get "operator").isHashable)

/-- Must `node`, which stands in the field `key` of `parent`, be wrapped? -/
def needed (node parent : Node) (key : Option String) : Bool :=
  let isCast := (node.get "operator").isStr "as"
  if parent.kind = "ExpressionStatement" then !isSafe node.kind
  else if parent.kind = "BinaryExpression" && (parent.get "operator").isStr "as" then
    key != some "right" && !isSafe node.kind
  else if node.kind = "BinaryExpression" then
    match parent.kind with
    | "BinaryExpression" =>
      betweenOperators (node.get "operator") (parent.get "operator") (key == some "right")
    | "ConditionalExpression" => isCast && key == some "test"
    | "LogicalExpression" => isCast
    | "MemberExpression" => isCast && key == some "object"
    | "NewExpression" => isCast && key == some "callee"
    | "CallExpression" => isCast && key == some "callee"
    | _ => false
  else node.kind = "NewExpression" && parent.kind = "MemberExpression"

/-- The node in explicit parentheses. -/
def wrap (n : Node) : Node := ⟨"ParenthesizedExpression", n.span, [("expression", .node n)]⟩

/-- The statement as a block. -/
def wrapBody (n : Node) : Node :=
  if n.kind = "BlockStatement" then n
  else ⟨"BlockStatement", n.span, [("body", .list [.node n])]⟩

/-- What the pass made of something: the result, whether it differs, and the number of
parentheses put in. -/
structure Outcome (α : Type) where
  result : α
  changed : Bool := false
  wrapped : Nat := 0

/-- The fields of a kind that hold statements which must be blocks. -/
def bodyFields : String → List String
  | "IfStatement" => ["consequent", "alternate"]
  | "WhileStatement" => ["body"]
  | "DoWhileStatement" => ["body"]
  | "ForStatement" => ["body"]
  | _ => []

/-- Makes a block of a statement in a field, as the changes so far have it; a second branch that is
itself a choice stays. -/
def blockChange (n : Node) (changes : Fields) (name : String) : Fields :=
  match (changes.lookup name).getD (n.get name) with
  | .node s =>
    if s.kind = "BlockStatement" || (name = "alternate" && s.kind = "IfStatement") then changes
    else changes.insert name (.node (wrapBody s))
  | _ => changes

/-- Wraps a node whose children are done if its parent asks for it. -/
def wrapUnder (parent : Node) (key : String) (o : Outcome Node) : Outcome Node :=
  if needed o.result parent (some key) then ⟨wrap o.result, true, o.wrapped + 1⟩ else o

/-- Makes blocks of the bodies of a node of which the changes below are known. The node is copied
with all its changes; without any, it is the node itself. -/
def finish (n : Node) (below : Outcome (List (String × Value))) : Except Fault (Outcome Node) :=
  let changes := (bodyFields n.kind).foldl (blockChange n) below.result
  if changes.isEmpty then pure ⟨n, false, below.wrapped⟩
  else do
    let copy ← n.copy changes
    pure ⟨copy, true, below.wrapped⟩

mutual

/-- Makes parentheses and blocks explicit in a node and all below it. Elements of lists are treated
as if they had no parent. -/
def run : Node → Except Fault (Outcome Node)
  | ⟨kind, span, fields⟩ => do
    let n : Node := ⟨kind, span, fields⟩
    let below ← runFields n n.childKeys fields
    finish n below

/-- The changes of those of the parent's fields that hold children. -/
def runFields (parent : Node) (keys : List String) :
    List (String × Value) → Except Fault (Outcome (List (String × Value)))
  | [] => pure ⟨[], false, 0⟩
  | (k, v) :: fs => do
    let first ← (if keys.contains k then runValue parent k v else pure ⟨v, false, 0⟩)
    let rest ← runFields parent keys fs
    let changes := if first.changed then (k, first.result) :: rest.result else rest.result
    pure ⟨changes, first.changed || rest.changed, first.wrapped + rest.wrapped⟩

/-- The same in the value of a field. A child that is an operation below another can only be judged
if both operators can be looked up. -/
def runValue (parent : Node) (key : String) : Value → Except Fault (Outcome Value)
  | .node c => do
    let o ← run c
    if unranked o.result parent then throw .wrongType
    let o := wrapUnder parent key o
    pure ⟨.node o.result, o.changed, o.wrapped⟩
  | .list vs => do
    let o ← runItems vs
    pure ⟨.list o.result, o.changed, o.wrapped⟩
  | v => pure ⟨v, false, 0⟩

/-- The same in the nodes of a list. -/
def runItems : List Value → Except Fault (Outcome (List Value))
  | [] => pure ⟨[], false, 0⟩
  | .node c :: vs => do
    let o ← run c
    let rest ← runItems vs
    pure ⟨.node o.result :: rest.result, o.changed || rest.changed, o.wrapped + rest.wrapped⟩
  | v :: vs => do
    let rest ← runItems vs
    pure ⟨v :: rest.result, rest.changed, rest.wrapped⟩

end

end Parentheses

end MonkeyFormat
