import MonkeyFormat.Comment.Basic
import MonkeyFormat.Source
import MonkeyFormat.Text.Blank
import MonkeyFormat.Tree.Visit

set_option autoImplicit false

/-! # Attaching comments

Every comment gets an owner and a role. From the root the search goes down to the smallest node
around the comment; of that node's children the nearest one before and the nearest one behind the
comment are its neighbours. Whether the comment has its line to itself, ends a line, or stands
between other text decides which of the three owns it. -/

namespace MonkeyFormat

/-- How a comment stands to its owner. -/
inductive Role where
  /-- Before the owner. -/
  | leading
  /-- Behind the owner. -/
  | trailing
  /-- Inside the owner, between none of its children. -/
  | dangling
deriving DecidableEq, Inhabited

/-- A comment with its owner. -/
structure Attached where
  /-- The comment's place in the list of all comments. -/
  id : Nat
  comment : Comment
  owner : Address
  role : Role
  /-- Must a line break follow? -/
  breaksAfter : Bool

/-- A node with its address. -/
abbrev Located := Address × Node

/-! ## Neighbours -/

/-- The nearest nodes below `n` that may own comments, in the order in which they start. -/
def Node.owners (mayOwn : Node → Bool) (n : Node) : List Located :=
  (n.slots.attach.flatMap fun ⟨(a, c), _⟩ =>
    if mayOwn c then [(a, c)]
    else (c.owners mayOwn).map fun (b, d) => (a ++ b, d)).mergeSort
      fun x y => decide (x.2.start ≤ y.2.start)
termination_by sizeOf n
decreasing_by exact Node.sizeOf_lt_of_mem_slots ‹_›

/-- Where a comment stands among the children of a node. -/
inductive Position where
  /-- Inside a child. -/
  | inside (child : Located)
  /-- Between two children, each of which may be absent. -/
  | between (preceding following : Option Located)

/-- Halves the interval `[left, right)` of children until the comment from `start` to `stop` is
found to lie inside a child or between two. A comment across the edge of a child is a fault. -/
def search (start stop : Int) (children : Array Located) (left right : Nat)
    (preceding following : Option Located) : Except Fault Position :=
  if left < right then
    let middle := (left + right) / 2
    match children[middle]? with
    | none => throw .exhausted
    | some child =>
      if child.2.start ≤ start ∧ stop ≤ child.2.stop then pure (.inside child)
      else if child.2.stop ≤ start then
        search start stop children (middle + 1) right (some child) following
      else if stop ≤ child.2.start then
        search start stop children left middle preceding (some child)
      else throw (.straddles start stop child.2.brief)
  else pure (.between preceding following)
termination_by right - left

/-- The smallest node around a comment, and the comment's neighbours among its children. -/
structure Surroundings where
  enclosing : Located
  preceding : Option Located
  following : Option Located

/-- Goes down from a node to the surroundings of the comment from `start` to `stop`; `fuel` bounds
the way down. -/
def locate (mayOwn : Node → Bool) (start stop : Int) :
    Nat → Located → Except Fault Surroundings
  | 0, _ => throw .exhausted
  | fuel + 1, (base, n) => do
    let children := ((n.owners mayOwn).map fun (a, c) => (base ++ a, c)).toArray
    match ← search start stop children 0 children.size none none with
    | .inside child => locate mayOwn start stop fuel child
    | .between preceding following => pure ⟨(base, n), preceding, following⟩

/-- The surroundings of a comment in a tree. -/
def Node.surroundings (mayOwn : Node → Bool) (root : Node) (start stop : Int) :
    Except Fault Surroundings :=
  locate mayOwn start stop (root.depth + 1) ([], root)

/-! ## Owners -/

/-- Is the comment before the block of a statement whose block is always written? -/
def Surroundings.beforeBlock (s : Surroundings) : Option Located :=
  if ["IfStatement", "WhileStatement", "DoWhileStatement", "ForStatement"].contains
      s.enclosing.2.kind then
    s.following.filter fun f => f.2.kind = "BlockStatement"
  else none

/-- Is the comment between the attributes of a declaration and its keyword? -/
def Surroundings.followsAttributes (s : Surroundings) (start : Int) : Bool :=
  match s.enclosing.2.get "attrs", s.following with
  | .node attrs, some following =>
    attrs.start ≤ start && attrs.stop ≤ following.2.start &&
      (s.preceding.map fun p => decide (p.2.stop ≤ attrs.stop)).getD true
  | _, _ => false

/-- Is the comment between the parentheses of a call without arguments? -/
def Surroundings.inEmptyArguments (s : Surroundings) (start : Int) : Bool :=
  let n := s.enclosing.2
  ["CallExpression", "NewExpression"].contains n.kind && s.following.isNone &&
    !(n.get "arguments").truthy &&
    match n.get "callee" with
    | .node callee => decide (callee.stop ≤ start)
    | _ => false

/-- The first statement of a block, with its place; a body that cannot be looked through is a
fault. -/
def firstStatement (block : Located) : Except Fault (Option Located) :=
  match block.2.get "body" with
  | .list vs =>
    pure (vs.zipIdx.findSome? fun (v, i) =>
      v.node?.map fun n => (block.1 ++ [.field "body", .index i], n))
  | .str _ => pure none
  | .dict _ => pure none
  | v => if v.truthy then throw .wrongType else pure none

/-- The neighbours of a comment in the order in which they are offered it, or else the node around
it. -/
def Surroundings.choose (s : Surroundings) (followingFirst : Bool) : Address × Role :=
  let before := s.preceding.map fun p => (p.1, Role.trailing)
  let behind := s.following.map fun f => (f.1, Role.leading)
  let chosen := if followingFirst then behind.or before else before.or behind
  chosen.getD (s.enclosing.1, .dangling)

/-- The owner of a comment and its role. -/
def Surroundings.owner (s : Surroundings) (text : Source) (c : Comment) :
    Except Fault (Address × Role) := do
  match s.beforeBlock with
  | some block =>
    match ← firstStatement block with
    | some n => pure (n.1, .leading)
    | none => pure (block.1, .dangling)
  | none =>
    if s.followsAttributes c.span.start then pure (s.enclosing.1, .leading)
    else if s.inEmptyArguments c.span.start then pure (s.enclosing.1, .dangling)
    else if ← text.newlineBefore c.span.start then pure (s.choose true)
    else if ← text.newlineAfter c.span.stop then pure (s.choose false)
    else match s.preceding, s.following with
      | some _, some f =>
        let gap := text.slice c.span.stop f.2.start
        pure (s.choose (gap.toList.all Source.isSpace))
      | _, _ => pure (s.choose false)

/-- Attaches one comment to a node of the tree. -/
def attachOne (mayOwn : Node → Bool) (root : Node) (text : Source) (id : Nat) (c : Comment) :
    Except Fault Attached := do
  let s ← root.surroundings mayOwn c.span.start c.span.stop
  let breaksAfter ← if c.isBlock then text.newlineAfter c.span.stop else pure true
  let (owner, role) ← s.owner text c
  pure ⟨id, c, owner, role, breaksAfter⟩

/-- Attaches all comments, in the order in which they start. -/
def attach (mayOwn : Node → Bool) (root : Node) (text : Source) (comments : List Comment) :
    Except Fault (List Attached) :=
  (comments.zipIdx.mergeSort fun x y => decide (x.1.span.start ≤ y.1.span.start)).mapM
    fun (c, id) => attachOne mayOwn root text id c

/-! ## The ignore directive -/

/-- The text of a comment that keeps the node behind it as it is. -/
def ignoreDirective : String := "mcfmt-ignore"

/-- Does one of a node's comments keep it as it is? -/
def hasIgnore (own : List Attached) : Bool :=
  own.any fun a => a.role = .leading && Text.trim a.comment.value = ignoreDirective

/-- Is one of a node's comments dangling? -/
def hasDangling (own : List Attached) : Bool := own.any fun a => a.role = .dangling

end MonkeyFormat
