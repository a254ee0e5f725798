import MonkeyFormat.Fault

set_option autoImplicit false

/-! # Visiting a tree

The children of a node in source order, the walk over all nodes of a tree, and the check that
children lie inside their parents, in order and apart. -/

namespace MonkeyFormat

/-! ## Children -/

/-- The fields that hold the children of a known kind, in source order. -/
def childFields? : String → Option (List String)
  | "Program" => some ["body"]
  | "ModuleDeclaration" => some ["attrs", "id", "body"]
  | "ClassDeclaration" => some ["attrs", "id", "superClass", "body"]
  | "ClassBody" => some ["body"]
  | "ClassElement" => some ["item"]
  | "FunctionDeclaration" => some ["attrs", "id", "params", "returnType", "body"]
  | "MethodDefinition" => some ["params", "returnType"]
  | "VariableDeclaration" => some ["attrs", "declarations"]
  | "VariableDeclarator" => some ["id", "init"]
  | "EnumDeclaration" => some ["attrs", "id", "body"]
  | "EnumStringBody" => some ["members"]
  | "EnumStringMember" => some ["id", "init"]
  | "TypedefDeclaration" => some ["attrs", "id", "ts"]
  | "ImportModule" => some ["id"]
  | "Using" => some ["id", "as"]
  | "AttributeList" => some ["attributes"]
  | "Attributes" => some ["elements"]
  | "BlockStatement" => some ["body"]
  | "ExpressionStatement" => some ["expression"]
  | "IfStatement" => some ["test", "consequent", "alternate"]
  | "WhileStatement" => some ["test", "body"]
  | "DoWhileStatement" => some ["body", "test"]
  | "ForStatement" => some ["init", "test", "update", "body"]
  | "SwitchStatement" => some ["discriminant", "cases"]
  | "SwitchCase" => some ["test", "consequent"]
  | "InstanceOfCase" => some ["id"]
  | "TryStatement" => some ["block", "handler", "finalizer"]
  | "CatchClauses" => some ["catches"]
  | "CatchClause" => some ["param", "body"]
  | "ReturnStatement" => some ["argument"]
  | "ThrowStatement" => some ["argument"]
  | "BreakStatement" => some []
  | "ContinueStatement" => some []
  | "Identifier" => some []
  | "Literal" => some []
  | "ThisExpression" => some []
  | "UnaryExpression" => some ["argument"]
  | "UpdateExpression" => some ["argument"]
  | "BinaryExpression" => some ["left", "right"]
  | "LogicalExpression" => some ["left", "right"]
  | "AssignmentExpression" => some ["left", "right"]
  | "MemberExpression" => some ["object", "property"]
  | "CallExpression" => some ["callee", "arguments"]
  | "NewExpression" => some ["callee", "arguments"]
  | "ConditionalExpression" => some ["test", "consequent", "alternate"]
  | "SequenceExpression" => some ["expressions"]
  | "ArrayExpression" => some ["elements"]
  | "SizedArrayExpression" => some ["ts", "size"]
  | "ObjectExpression" => some ["properties"]
  | "Property" => some ["key", "value"]
  | "ParenthesizedExpression" => some ["expression"]
  | "TypeSpecList" => some ["ts"]
  | "TypeSpecPart" => some ["name", "generics", "callspec"]
  | _ => none

/-- Does the value hold a node, itself or as an element? -/
def Value.holdsNode : Value → Bool
  | .node _ => true
  | .list vs => vs.any Value.isNode
  | _ => false

/-- The fields that hold the children of a node, in source order. A node of an unknown kind has
its children in every field that holds a node, in the order of its fields. -/
def Node.childKeys (n : Node) : List String :=
  (childFields? n.kind).getD ((n.fields.filter fun kv => kv.2.holdsNode).map Prod.fst)

/-- The nodes that a field's value holds directly, each with its address below the node. -/
def Value.slots (name : String) : Value → List (Address × Node)
  | .node c => [([.field name], c)]
  | .list vs => vs.zipIdx.filterMap fun (v, i) =>
    v.node?.map fun c => ([.field name, .index i], c)
  | _ => []

/-- The children of a node in source order, each with its address below the node. -/
def Node.slots (n : Node) : List (Address × Node) :=
  n.childKeys.flatMap fun key => (n.get key).slots key

/-- The children of a node in source order. -/
def Node.children (n : Node) : List Node := n.slots.map Prod.snd

/-! ## A child is smaller than its parent -/

theorem Value.sizeOf_lt_of_mem_slots {name : String} {v : Value} {a : Address} {c : Node}
    (h : (a, c) ∈ v.slots name) : sizeOf c < sizeOf v := by
  cases v with
  | node n => simp_all [Value.slots]
  | list vs =>
    simp only [Value.slots, List.mem_filterMap] at h
    obtain ⟨⟨w, i⟩, hw, hc⟩ := h
    have hmem : w ∈ vs := by
      have := List.mem_zipIdx hw
      simp_all
    have hlt : sizeOf w < sizeOf vs := List.sizeOf_lt_of_mem hmem
    cases w <;> simp_all [Value.node?]
    omega
  | _ => simp [Value.slots] at h

theorem Node.sizeOf_lt_of_mem_slots {n c : Node} {a : Address} (h : (a, c) ∈ n.slots) :
    sizeOf c < sizeOf n := by
  obtain ⟨kind, span, fields⟩ := n
  simp only [Node.slots, List.mem_flatMap] at h
  obtain ⟨key, _, hc⟩ := h
  have hv := Value.sizeOf_lt_of_mem_slots hc
  simp only [Node.get] at hv
  cases hl : List.lookup key fields with
  | none => rw [hl] at hv; simp [Node.get, hl, Value.slots] at hc
  | some v =>
    rw [hl] at hv
    have hmem : (key, v) ∈ fields := by
      have := List.lookup_eq_some_iff.1 hl
      obtain ⟨l, r, rfl, _⟩ := this
      simp
    have := List.sizeOf_lt_of_mem hmem
    simp at hv this ⊢
    omega

theorem Node.sizeOf_lt_of_mem_children {n c : Node} (h : c ∈ n.children) :
    sizeOf c < sizeOf n := by
  simp only [Node.children, List.mem_map] at h
  obtain ⟨⟨a, c⟩, hc, rfl⟩ := h
  exact Node.sizeOf_lt_of_mem_slots hc

/-! ## Walking -/

/-- All nodes of a tree, each before its children and these in source order. -/
def Node.walk (n : Node) : List Node :=
  n :: n.children.attach.flatMap fun ⟨c, _⟩ => c.walk
termination_by sizeOf n
decreasing_by exact Node.sizeOf_lt_of_mem_children ‹_›

/-- All nodes of a tree with their addresses, in the order of the walk. -/
def Node.places (n : Node) (base : Address) : List (Address × Node) :=
  (base, n) :: n.slots.attach.flatMap fun ⟨(a, c), _⟩ => c.places (base ++ a)
termination_by sizeOf n
decreasing_by exact Node.sizeOf_lt_of_mem_slots ‹_›

mutual

/-- How deep nodes are nested in a value. -/
def Value.depth : Value → Nat
  | .list vs => itemsDepth vs
  | .dict es => entriesDepth es
  | .node n => n.depth
  | _ => 0

/-- The number of nodes on the longest way down from a node, through any of its fields. -/
def Node.depth : Node → Nat
  | ⟨_, _, fs⟩ => 1 + entriesDepth fs

/-- How deep nodes are nested in a list of values. -/
def itemsDepth : List Value → Nat
  | [] => 0
  | v :: vs => max v.depth (itemsDepth vs)

/-- How deep nodes are nested in named values. -/
def entriesDepth : List (String × Value) → Nat
  | [] => 0
  | (_, v) :: es => max v.depth (entriesDepth es)

end

/-! ## Spans -/

/-- Checks one child: it lies inside its parent, and behind the child before it. -/
def Node.checkChild (parent : Node) (previous : Option Node) (child : Node) :
    Except Fault Unit := do
  if child.start < parent.start || parent.stop < child.stop then
    throw (.escapes child.brief parent.brief)
  if let some p := previous then
    if child.start < p.stop then throw (.outOfOrder child.brief p.brief)

/-- Checks that every child lies inside its parent, and that siblings are ordered and apart. The
first violation on the walk is the one that is answered. -/
def Node.checkSpans (n : Node) : Except Fault Unit := do
  let _ ← n.children.attach.foldlM (fun previous ⟨c, _⟩ => do
    n.checkChild previous c
    c.checkSpans
    pure (some c)) none
termination_by sizeOf n
decreasing_by exact Node.sizeOf_lt_of_mem_children ‹_›

end MonkeyFormat
