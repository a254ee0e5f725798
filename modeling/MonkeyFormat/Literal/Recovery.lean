import MonkeyFormat.Literal.Spelling
import MonkeyFormat.Tree.Visit

set_option autoImplicit false

/-! # Recovering whole numbers

A whole number may lose precision, or its type, while a tree is exchanged. Its text still has it:
every literal whose text is that of a whole number, and whose value is not one, gets the value of
its text. -/

namespace MonkeyFormat

namespace Literal

/-- The text of a literal whose value has to be recovered. -/
def lostText? (n : Node) : Option String :=
  match n.kind, n.get "raw", n.get "value" with
  | "Literal", .str raw, value =>
    match value with
    | .int _ => none
    | _ => if isWholeShaped raw then some raw else none
  | _, _, _ => none

/-- Recovers the value of a single node. -/
def recoverNode (n : Node) : Except Fault (Node × Nat) :=
  match lostText? n with
  | none => pure (n, 0)
  | some raw => do
    let value ← readWhole raw
    pure (n.set "value" (.int value), 1)

mutual

/-- Recovers the literals of a tree, and counts them. -/
def recover : Node → Except Fault (Node × Nat)
  | ⟨kind, span, fields⟩ => do
    let keys := Node.childKeys ⟨kind, span, fields⟩
    let (fields, below) ← recoverFields keys fields
    let (n, here) ← recoverNode ⟨kind, span, fields⟩
    pure (n, here + below)

/-- Recovers the literals in those fields that hold children. -/
def recoverFields (keys : List String) :
    List (String × Value) → Except Fault (List (String × Value) × Nat)
  | [] => pure ([], 0)
  | (k, v) :: fs => do
    let (v, first) ← if keys.contains k then recoverValue v else pure (v, 0)
    let (fs, rest) ← recoverFields keys fs
    pure ((k, v) :: fs, first + rest)

/-- Recovers the literals in a child or a list of them. -/
def recoverValue : Value → Except Fault (Value × Nat)
  | .node n => do
    let (n, count) ← recover n
    pure (.node n, count)
  | .list vs => do
    let (vs, count) ← recoverItems vs
    pure (.list vs, count)
  | v => pure (v, 0)

/-- Recovers the literals in the nodes of a list. -/
def recoverItems : List Value → Except Fault (List Value × Nat)
  | [] => pure ([], 0)
  | .node n :: vs => do
    let (n, first) ← recover n
    let (vs, rest) ← recoverItems vs
    pure (.node n :: vs, first + rest)
  | v :: vs => do
    let (vs, rest) ← recoverItems vs
    pure (v :: vs, rest)

end

end Literal

end MonkeyFormat
