import MonkeyFormat.Fault

set_option autoImplicit false

/-! # Cursors

A cursor points into a tree and remembers the way down, so that a rule for a node can ask about
the nodes around it. -/

namespace MonkeyFormat

/-- A value with the steps that led to it, last one first, each with the value it was taken in. -/
structure Cursor where
  focus : Value
  above : List (Step × Value)
deriving Inhabited

/-- The element of a list at a place; places below zero count from the end. -/
def pickAt {α : Type} (xs : List α) (i : Int) : Except Fault α :=
  let j := if i < 0 then i + xs.length else i
  if j < 0 then throw .outOfRange
  else match xs[j.toNat]? with
    | some x => pure x
    | none => throw .outOfRange

namespace Value

/-- The value that one step down leads to. A field that a node does not have is null. -/
def child (v : Value) : Step → Except Fault Value
  | .index i =>
    match v with
    | .list vs => pickAt vs i
    | .str s => do
      let c ← pickAt s.toList i
      pure (.str (String.singleton c))
    | .dict _ => throw .missingKey
    | _ => throw .wrongType
  | .field name =>
    match v with
    | .node n => pure (n.get name)
    | .dict es =>
      match es.lookup name with
      | some w => pure w
      | none => throw .missingKey
    | _ => throw .wrongType

/-- The elements of a value that holds some; an absent or empty value holds none. -/
def elements (v : Value) : Except Fault (List Value) :=
  if v.truthy then
    match v with
    | .list vs => pure vs
    | .str s => pure (s.toList.map fun c => .str (String.singleton c))
    | .dict _ => throw .missingKey
    | _ => throw .wrongType
  else pure []

/-- The number of elements of a value that holds some; an absent or empty value holds none. -/
def count (v : Value) : Except Fault Nat :=
  if v.truthy then
    match v with
    | .list vs => pure vs.length
    | .str s => pure s.length
    | .dict es => pure es.length
    | _ => throw .wrongType
  else pure 0

end Value

namespace Cursor

/-- A cursor at a value without anything around it. -/
def root (v : Value) : Cursor := ⟨v, []⟩

/-- One step down. -/
def down (c : Cursor) (s : Step) : Except Fault Cursor := do
  let v ← c.focus.child s
  pure ⟨v, (s, c.focus) :: c.above⟩

/-- Several steps down. -/
def descend (c : Cursor) (steps : List Step) : Except Fault Cursor := steps.foldlM down c

/-- A field of the node that the cursor points to. -/
def field (c : Cursor) (name : String) : Cursor :=
  let v := match c.focus with
    | .node n => n.get name
    | _ => .null
  ⟨v, (.field name, c.focus) :: c.above⟩

/-- The elements of the value that the cursor points to. -/
def elements (c : Cursor) : Except Fault (List Cursor) := do
  let vs ← c.focus.elements
  pure (vs.zipIdx.map fun (v, i) => ⟨v, (.index i, c.focus) :: c.above⟩)

/-- The field name under which the focus hangs off the nearest node that holds it. -/
def key (c : Cursor) : Option String :=
  c.above.findSome? fun
    | (.field name, _) => some name
    | _ => none

/-- The place of the focus in the list that holds it. -/
def index (c : Cursor) : Option Int :=
  match c.above with
  | (.index i, _) :: _ => some i
  | _ => none

/-- The nodes around the focus, nearest first. -/
def ancestors (c : Cursor) : List Node := c.above.filterMap fun (_, v) => v.node?

/-- The node that holds the focus. -/
def parent (c : Cursor) : Option Node := c.ancestors.head?

/-- The steps from the root to the focus. -/
def address (c : Cursor) : Address := (c.above.map Prod.fst).reverse

/-- The number of values and steps on the way to the focus. -/
def depth (c : Cursor) : Nat := 1 + 2 * c.above.length

end Cursor

end MonkeyFormat
