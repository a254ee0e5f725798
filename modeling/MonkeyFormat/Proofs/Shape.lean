import MonkeyFormat.Tree.Visit

set_option autoImplicit false

/-! # The shapes of trees

Which fields a node of each kind has, and what they hold. Trees that come from a source have these
shapes, and their edges are where tokens start or end. -/

namespace MonkeyFormat

/-- Does a text start like a comment? -/
def Text.opensComment (s : String) : Bool :=
  match s.toList with
  | '/' :: '/' :: _ => true
  | '/' :: '*' :: _ => true
  | _ => false

theorem Text.opensComment_of_not_mem {s : String} (h : '/' ∉ s.toList) :
    Text.opensComment s = false := by
  unfold Text.opensComment
  split
  · next hs => simp [hs] at h
  · next hs => simp [hs] at h
  · rfl

/-- What a field may hold. -/
inductive FieldType where
  | node
  /-- A node or nothing. -/
  | optional
  | nodes
  /-- Nothing, or the arguments of a generic type. -/
  | types
  | text
  /-- The text of a literal. -/
  | raw
  /-- A text or nothing. -/
  | suffix
  /-- Nothing, or words one after the other. -/
  | words
  | absent
deriving DecidableEq

/-- The fields of a kind that say how its nodes are laid out. -/
def fieldTypes? : String → Option (List (String × FieldType))
  | "Program" => some [("body", .nodes)]
  | "ModuleDeclaration" => some [("attrs", .optional), ("id", .node), ("body", .node)]
  | "ClassDeclaration" =>
    some [("attrs", .optional), ("id", .node), ("superClass", .optional), ("body", .node)]
  | "ClassBody" => some [("body", .nodes)]
  | "ClassElement" => some [("item", .node)]
  | "FunctionDeclaration" => some [("attrs", .optional), ("id", .node), ("params", .nodes),
    ("returnType", .optional), ("body", .optional)]
  | "MethodDefinition" => some [("key", .text), ("params", .nodes), ("returnType", .optional)]
  | "VariableDeclaration" =>
    some [("attrs", .optional), ("declarations", .nodes), ("kind", .text)]
  | "VariableDeclarator" => some [("id", .node), ("init", .optional)]
  | "EnumDeclaration" => some [("attrs", .optional), ("id", .optional), ("body", .node)]
  | "EnumStringBody" => some [("members", .nodes)]
  | "EnumStringMember" => some [("id", .node), ("init", .node)]
  | "TypedefDeclaration" => some [("attrs", .optional), ("id", .node), ("ts", .node)]
  | "ImportModule" => some [("id", .node)]
  | "Using" => some [("id", .node), ("as", .optional)]
  | "AttributeList" => some [("attributes", .optional), ("access", .words)]
  | "Attributes" => some [("elements", .nodes)]
  | "BlockStatement" => some [("body", .nodes)]
  | "ExpressionStatement" => some [("expression", .node)]
  | "IfStatement" => some [("test", .node), ("consequent", .node), ("alternate", .optional)]
  | "WhileStatement" => some [("test", .node), ("body", .node)]
  | "DoWhileStatement" => some [("body", .node), ("test", .node)]
  | "ForStatement" =>
    some [("init", .optional), ("test", .optional), ("update", .optional), ("body", .node)]
  | "SwitchStatement" => some [("discriminant", .node), ("cases", .nodes)]
  | "SwitchCase" => some [("test", .optional), ("consequent", .nodes)]
  | "InstanceOfCase" => some [("id", .node)]
  | "TryStatement" => some [("block", .node), ("handler", .optional), ("finalizer", .optional)]
  | "CatchClauses" => some [("catches", .nodes)]
  | "CatchClause" => some [("param", .optional), ("body", .node)]
  | "ReturnStatement" => some [("argument", .optional)]
  | "ThrowStatement" => some [("argument", .node)]
  | "BreakStatement" => some []
  | "ContinueStatement" => some []
  | "Identifier" => some [("name", .text), ("original", .absent)]
  | "Literal" => some [("raw", .raw)]
  | "ThisExpression" => some [("text", .text)]
  | "UnaryExpression" => some [("operator", .text), ("argument", .node)]
  | "UpdateExpression" => some [("operator", .text), ("argument", .node)]
  | "BinaryExpression" => some [("operator", .text), ("left", .node), ("right", .node)]
  | "LogicalExpression" => some [("operator", .text), ("left", .node), ("right", .node)]
  | "AssignmentExpression" => some [("operator", .text), ("left", .node), ("right", .node)]
  | "MemberExpression" => some [("object", .node), ("property", .node)]
  | "CallExpression" => some [("callee", .node), ("arguments", .nodes)]
  | "NewExpression" => some [("callee", .node), ("arguments", .nodes)]
  | "ConditionalExpression" => some [("test", .node), ("consequent", .node), ("alternate", .node)]
  | "SequenceExpression" => some [("expressions", .nodes)]
  | "ArrayExpression" => some [("elements", .nodes), ("byte", .suffix)]
  | "SizedArrayExpression" => some [("ts", .optional), ("size", .node), ("byte", .suffix)]
  | "ObjectExpression" => some [("properties", .nodes)]
  | "Property" => some [("key", .node), ("value", .node)]
  | "ParenthesizedExpression" => some [("expression", .node)]
  | "TypeSpecList" => some [("ts", .nodes)]
  | "TypeSpecPart" => some [("name", .node), ("generics", .types), ("callspec", .optional)]
  | _ => none

/-! ## Kinds -/

/-- The kinds of declarations and what they consist of. -/
def declarationKinds : List String :=
  ["Program", "ModuleDeclaration", "ClassDeclaration", "ClassBody", "ClassElement",
    "FunctionDeclaration", "MethodDefinition", "VariableDeclaration", "VariableDeclarator",
    "EnumDeclaration", "EnumStringBody", "EnumStringMember", "TypedefDeclaration", "ImportModule",
    "Using", "AttributeList", "Attributes"]

/-- The kinds of statements and what they consist of. -/
def statementKinds : List String :=
  ["BlockStatement", "ExpressionStatement", "IfStatement", "WhileStatement", "DoWhileStatement",
    "ForStatement", "SwitchStatement", "SwitchCase", "InstanceOfCase", "TryStatement",
    "CatchClauses", "CatchClause", "ReturnStatement", "ThrowStatement", "BreakStatement",
    "ContinueStatement"]

/-- The kinds of expressions and types. -/
def expressionKinds : List String :=
  ["Identifier", "Literal", "ThisExpression", "UnaryExpression", "UpdateExpression",
    "BinaryExpression", "LogicalExpression", "AssignmentExpression", "MemberExpression",
    "CallExpression", "NewExpression", "ConditionalExpression", "SequenceExpression",
    "ArrayExpression", "SizedArrayExpression", "ObjectExpression", "Property",
    "ParenthesizedExpression", "TypeSpecList", "TypeSpecPart"]

/-- May the field hold nodes? -/
def FieldType.holdsNodes : FieldType → Bool
  | .node | .optional | .nodes | .types => true
  | _ => false

section Kinds

variable {kind : String} {types : List (String × FieldType)}

/-- Only these kinds have fields. -/
theorem mem_kinds (known : fieldTypes? kind = some types) :
    kind ∈ declarationKinds ++ (statementKinds ++ expressionKinds) := by
  unfold fieldTypes? at known
  split at known
  case h_54 => cases known
  all_goals repeat (first | exact .head _ | apply List.Mem.tail)

theorem kind_cases (known : fieldTypes? kind = some types) :
    kind ∈ declarationKinds ∨ kind ∈ statementKinds ∨ kind ∈ expressionKinds := by
  simpa only [List.mem_append] using mem_kinds known

/-- A node has its children in those of its fields that may hold nodes, each of which it has
once. -/
theorem childFields_of_fieldTypes (known : fieldTypes? kind = some types) :
    childFields? kind = some ((types.filter fun field => field.2.holdsNodes).map Prod.fst) ∧
      (types.map Prod.fst).Nodup := by
  have hall : ∀ kind ∈ declarationKinds ++ (statementKinds ++ expressionKinds),
      ∀ types ∈ fieldTypes? kind,
        childFields? kind = some ((types.filter fun field => field.2.holdsNodes).map Prod.fst) ∧
          (types.map Prod.fst).Nodup := by
    decide +kernel
  exact hall kind (mem_kinds known) types known

end Kinds

/-! ## Shaped trees -/

mutual

/-- The node and all nodes below it have the fields of their kinds, and `P` holds of them. A number
is spelled without a slash. -/
inductive Node.Shaped (P : Node → Prop) : Node → Prop where
  | intro (n : Node) (types : List (String × FieldType)) (known : fieldTypes? n.kind = some types)
    (here : P n)
    (fits : ∀ f ∈ types, Value.Fits P f.2 (n.get f.1))
    (number : (n.get "value").isNumber = true → ∃ s, n.get "raw" = .str s ∧ '/' ∉ s.toList) :
    Node.Shaped P n

/-- The value is what a field of the type may hold. -/
inductive Value.Fits (P : Node → Prop) : FieldType → Value → Prop where
  | node {n : Node} (h : n.Shaped P) : Value.Fits P .node (.node n)
  | some {n : Node} (h : n.Shaped P) : Value.Fits P .optional (.node n)
  | none : Value.Fits P .optional .null
  | nodes {ns : List Node} (h : ∀ n ∈ ns, n.Shaped P) :
    Value.Fits P .nodes (.list (ns.map .node))
  | types {ns : List Node} (h : ∀ n ∈ ns, n.Shaped P)
    (hkind : ∀ n ∈ ns, n.kind = "TypeSpecList") : Value.Fits P .types (.list (ns.map .node))
  | noTypes : Value.Fits P .types .null
  | text {s : String} (h : Text.opensComment s = false) : Value.Fits P .text (.str s)
  | raw {s : String} (h : Text.opensComment s = false) (hne : s ≠ "") :
    Value.Fits P .raw (.str s)
  | suffix {s : String} (h : Text.opensComment s = false) : Value.Fits P .suffix (.str s)
  | noSuffix : Value.Fits P .suffix .null
  | words {ws : List String} (h : ∀ w ∈ ws, '/' ∉ w.toList) :
    Value.Fits P .words (.list (ws.map .str))
  | noWords : Value.Fits P .words .null
  | absent : Value.Fits P .absent .null

end

/-- Both edges of a span are such that `edge` holds of them. -/
abbrev Span.Bounded (edge : Int → Prop) (s : Span) : Prop := edge s.start ∧ edge s.stop

/-- The nodes of the tree have the fields of their kinds, and edges that `edge` holds of. -/
abbrev Node.Edged (edge : Int → Prop) (n : Node) : Prop := n.Shaped fun m => m.span.Bounded edge

/-- The value is what a field of the type may hold in such a tree. -/
abbrev Value.Suits (edge : Int → Prop) (type : FieldType) (v : Value) : Prop :=
  Value.Fits (fun m => m.span.Bounded edge) type v

/-- The named values have the fields of a kind. -/
def Fields.Fit (P : Node → Prop) (fs : Fields) : List (String × FieldType) → Prop
  | [] => True
  | (name, type) :: types =>
    Value.Fits P type ((fs.lookup name).getD .null) ∧ Fields.Fit P fs types

theorem Fields.Fit.all {P : Node → Prop} {fs : Fields} {types : List (String × FieldType)}
    (h : Fields.Fit P fs types) :
    ∀ f ∈ types, Value.Fits P f.2 ((fs.lookup f.1).getD .null) := by
  induction types with
  | nil => simp
  | cons f types ih =>
    intro g hg
    rcases List.mem_cons.1 hg with rfl | hg
    · exact h.1
    · exact ih h.2 g hg

/-- A node with the fields of its kind, none of which is a number. -/
theorem Node.Shaped.of_fit {P : Node → Prop} {kind : String} {span : Span} {fields : Fields}
    {types : List (String × FieldType)} (known : fieldTypes? kind = some types)
    (here : P ⟨kind, span, fields⟩) (fits : Fields.Fit P fields types)
    (number : ((fields.lookup "value").getD .null).isNumber = false) :
    Node.Shaped P ⟨kind, span, fields⟩ := by
  refine .intro _ types known here fits.all fun h => ?_
  change ((fields.lookup "value").getD .null).isNumber = true at h
  rw [number] at h
  cases h

namespace Node.Shaped

variable {P : Node → Prop} {n : Node}

theorem here (h : n.Shaped P) : P n := by
  cases h
  assumption

/-- A field of a shaped node holds what its kind says. -/
theorem get {types : List (String × FieldType)} (h : n.Shaped P)
    (known : fieldTypes? n.kind = some types) {name : String} {type : FieldType}
    (hmem : (name, type) ∈ types) : Value.Fits P type (n.get name) := by
  cases h with
  | intro _ _ hknown _ fits _ =>
    rw [known] at hknown
    cases hknown
    exact fits _ hmem

section Children

variable {types : List (String × FieldType)}

theorem node (name : String) {c : Node} (h : n.Shaped P)
    (known : fieldTypes? n.kind = some types) (hmem : (name, .node) ∈ types)
    (hget : n.get name = .node c) : c.Shaped P := by
  have hfits := h.get known hmem
  rw [hget] at hfits
  cases hfits
  assumption

theorem optional (name : String) {c : Node} (h : n.Shaped P)
    (known : fieldTypes? n.kind = some types) (hmem : (name, .optional) ∈ types)
    (hget : n.get name = .node c) : c.Shaped P := by
  have hfits := h.get known hmem
  rw [hget] at hfits
  cases hfits
  assumption

theorem item (name : String) {cs : List Node} (h : n.Shaped P)
    (known : fieldTypes? n.kind = some types) (hmem : (name, .nodes) ∈ types)
    (hget : n.get name = .list (cs.map .node)) : ∀ c ∈ cs, c.Shaped P := by
  have hfits := h.get known hmem
  rw [hget] at hfits
  generalize hvs : cs.map Value.node = vs at hfits
  cases hfits with
  | nodes hall =>
    intro c hc
    rw [(List.map_inj_right fun _ _ => Value.node.inj).1 hvs] at hc
    exact hall c hc

end Children

/-- A node may cover another stretch. -/
theorem respan (h : n.Shaped P) {span : Span} (here : P ⟨n.kind, span, n.fields⟩) :
    Node.Shaped P ⟨n.kind, span, n.fields⟩ := by
  cases h with
  | intro _ types known _ fits number => exact .intro _ types known here fits number

end Node.Shaped

namespace Value.Fits

variable {P : Node → Prop} {v : Value}

theorem eq_node (h : Value.Fits P .node v) : ∃ n, v = .node n ∧ n.Shaped P := by
  cases h with
  | node h => exact ⟨_, rfl, h⟩

theorem eq_nodes (h : Value.Fits P .nodes v) :
    ∃ ns : List Node, v = .list (ns.map .node) ∧ ∀ n ∈ ns, n.Shaped P := by
  cases h with
  | nodes h => exact ⟨_, rfl, h⟩

theorem eq_str (h : Value.Fits P .text v) : ∃ s, v = .str s := by
  cases h with
  | text h => exact ⟨_, rfl⟩

theorem eq_raw (h : Value.Fits P .raw v) : ∃ s, v = .str s ∧ s ≠ "" := by
  cases h with
  | raw h hne => exact ⟨_, rfl, hne⟩

theorem eq_null (h : Value.Fits P .absent v) : v = .null := by
  cases h with
  | absent => rfl

end Value.Fits

/-! ## Changing a field -/

theorem Fields.lookup_cons (fs : Fields) (name key : String) (v : Value) :
    List.lookup key ((name, v) :: fs) = if key = name then some v else fs.lookup key := by
  rw [List.lookup_cons]
  by_cases h : key = name
  · simp [h]
  · rw [beq_eq_false_iff_ne.2 h, if_neg h]

theorem Fields.lookup_insert (fs : Fields) (name key : String) (v : Value) :
    (Fields.insert fs name v).lookup key = if key = name then some v else fs.lookup key := by
  induction fs with
  | nil => exact Fields.lookup_cons [] name key v
  | cons f fs ih =>
    obtain ⟨k, w⟩ := f
    rw [Fields.insert]
    by_cases hk : k = name
    · subst hk
      rw [if_pos rfl, Fields.lookup_cons, Fields.lookup_cons]
      split <;> rfl
    · rw [if_neg hk, Fields.lookup_cons, Fields.lookup_cons, ih]
      by_cases h : key = k
      · rw [if_pos h, if_neg (by rwa [h]), if_pos h]
      · rw [if_neg h, if_neg h]

theorem Fields.mem_insert {fs : Fields} {name : String} {v : Value}
    {f : String × Value}
    (h : f ∈ Fields.insert fs name v) : f ∈ fs ∨ f = (name, v) := by
  induction fs with
  | nil => simpa [Fields.insert] using h
  | cons g fs ih =>
    rw [Fields.insert] at h
    split at h
    · next heq =>
      rw [heq, List.mem_cons] at h
      rcases h with h | h
      · exact .inr h
      · exact .inl (List.mem_cons_of_mem g h)
    · rcases List.mem_cons.1 h with h | h
      · exact .inl (h ▸ List.mem_cons_self)
      · exact (ih h).imp_left (List.mem_cons_of_mem g)

theorem Node.get_set (n : Node) (name key : String) (v : Value) :
    (n.set name v).get key = if key = name then v else n.get key := by
  rw [Node.get, Node.set, Fields.lookup_insert]
  by_cases h : key = name
  · simp [h]
  · simp [h, Node.get]

/-- A field may be set to what it may hold, and one that the kind does not have to anything. -/
theorem Node.Shaped.set {P : Node → Prop} {n : Node} {types : List (String × FieldType)}
    (h : n.Shaped P) (known : fieldTypes? n.kind = some types) (name : String) {v : Value}
    (hv : ∀ type, (name, type) ∈ types → Value.Fits P type v)
    (hname : name ≠ "value" ∧ name ≠ "raw") (here : P (n.set name v)) :
    (n.set name v).Shaped P := by
  cases h with
  | intro _ _ hknown _ fits number =>
    rw [known] at hknown
    cases hknown
    refine .intro _ types known here (fun f hf => ?_) ?_
    · rw [Node.get_set]
      by_cases hkey : f.1 = name
      · rw [if_pos hkey]
        exact hv f.2 (by rwa [← hkey])
      · rw [if_neg hkey]
        exact fits f hf
    · rw [Node.get_set, Node.get_set, if_neg hname.1.symm, if_neg hname.2.symm]
      exact number

end MonkeyFormat
