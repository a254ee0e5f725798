import Mathlib.Data.List.Forall2
import MonkeyFormat.Format
import MonkeyFormat.Proofs.SourceLines
import MonkeyFormat.Proofs.Spelling

set_option autoImplicit false

/-! # Layouts without comments

Where no comments are attached, a rule's layout is a document and nothing else. What matters of it
is which tokens it spells. -/

namespace MonkeyFormat

theorem Cursor.field_eq {n : Node} {name : String} {v : Value} {above : List (Step × Value)}
    (h : n.get name = v) :
    Cursor.field ⟨.node n, above⟩ name = ⟨v, (.field name, .node n) :: above⟩ := by
  rw [← h]
  rfl

namespace Layout

/-- The callback that the tree layout gives to its rules. -/
def below (cx : Context) (fuel : Nat) : Child := fun c name? =>
  match name? with
  | none => tree cx fuel c
  | some name => tree cx fuel (c.field name)

/-- The kinds of node that have rules, with the names of their rules. -/
def ruleNames : List (String × String) :=
  [("Program", "program"), ("ModuleDeclaration", "module_declaration"),
    ("ClassDeclaration", "class_declaration"), ("ClassBody", "class_body"),
    ("ClassElement", "class_element"), ("FunctionDeclaration", "function_declaration"),
    ("MethodDefinition", "method_definition"), ("VariableDeclaration", "variable_declaration"),
    ("VariableDeclarator", "variable_declarator"), ("EnumDeclaration", "enum_declaration"),
    ("EnumStringBody", "enum_string_body"), ("EnumStringMember", "enum_string_member"),
    ("TypedefDeclaration", "typedef_declaration"), ("ImportModule", "import_module"),
    ("Using", "using"), ("AttributeList", "attribute_list"), ("Attributes", "attributes"),
    ("BlockStatement", "block_statement"), ("ExpressionStatement", "expression_statement"),
    ("IfStatement", "if_statement"), ("WhileStatement", "while_statement"),
    ("DoWhileStatement", "do_while_statement"), ("ForStatement", "for_statement"),
    ("SwitchStatement", "switch_statement"), ("SwitchCase", "switch_case"),
    ("InstanceOfCase", "instance_of_case"), ("TryStatement", "try_statement"),
    ("CatchClauses", "catch_clauses"), ("CatchClause", "catch_clause"),
    ("ReturnStatement", "return_statement"), ("ThrowStatement", "throw_statement"),
    ("BreakStatement", "break_statement"), ("ContinueStatement", "continue_statement"),
    ("Identifier", "identifier"), ("Literal", "literal"), ("ThisExpression", "this_expression"),
    ("UnaryExpression", "unary_expression"), ("UpdateExpression", "update_expression"),
    ("BinaryExpression", "binary_expression"), ("LogicalExpression", "logical_expression"),
    ("AssignmentExpression", "assignment_expression"), ("MemberExpression", "member_expression"),
    ("CallExpression", "call_expression"), ("NewExpression", "new_expression"),
    ("ConditionalExpression", "conditional_expression"),
    ("SequenceExpression", "sequence_expression"), ("ArrayExpression", "array_expression"),
    ("SizedArrayExpression", "sized_array_expression"), ("ObjectExpression", "object_expression"),
    ("Property", "property"), ("ParenthesizedExpression", "parenthesized_expression"),
    ("TypeSpecList", "type_spec_list"), ("TypeSpecPart", "type_spec_part")]

theorem snake_ofList (c : Char) (cs : List Char) :
    snake (String.ofList (c :: cs)) = String.ofList (Text.lowerAfter [] (c :: cs.flatMap fun d =>
      if 'A' ≤ d && d ≤ 'Z' then ['_', d] else [d])) := by
  rw [snake, String.toList_ofList, Text.lower, String.toList_ofList]

theorem snake_of_mem {kind rule : String} (h : (kind, rule) ∈ ruleNames) : snake kind = rule := by
  have hall : ∀ names ∈ ruleNames, snake names.1 = names.2 := by
    simp only [ruleNames, List.forall_mem_cons]
    repeat rw [snake_ofList]
    decide +kernel
  exact hall (kind, rule) h

theorem withComments_nil (cx : Context) (d : Doc) : withComments cx [] d = pure d := rfl

/-- Without comments a node is laid out by its rule alone. -/
theorem tree_node {cx : Context} (hcx : cx.attached = []) (fuel : Nat) (kind rule : String)
    (hrule : snake kind = rule) (span : Span) (fields : Fields) (above : List (Step × Value)) :
    tree cx (fuel + 1) ⟨.node ⟨kind, span, fields⟩, above⟩ =
      monkeyRule cx (below cx fuel) ⟨.node ⟨kind, span, fields⟩, above⟩ ⟨kind, span, fields⟩
        rule := by
  have hown : own cx ⟨.node ⟨kind, span, fields⟩, above⟩ = [] := by simp [own, hcx]
  have hignore : (!cx.source.isEmpty && hasIgnore []) = false := Bool.and_false _
  change commented cx (below cx fuel) ⟨.node ⟨kind, span, fields⟩, above⟩ = _
  unfold commented
  simp only [hown, hignore, Bool.false_eq_true, if_false, withComments_nil, bind_pure]
  rw [← hrule]
  rfl

/-- A node that the language lays out like any other of its kind is laid out by the generic rule,
between parentheses where its surroundings ask for them. -/
theorem tree_generic {cx : Context} (hcx : cx.attached = []) (fuel : Nat) (kind rule : String)
    (hrule : snake kind = rule)
    (hmonkey : ∀ cx child c n, monkeyRule cx child c n rule = generic cx child c) (span : Span)
    (fields : Fields) (above : List (Step × Value)) :
    tree cx (fuel + 1) ⟨.node ⟨kind, span, fields⟩, above⟩ =
      genericRule cx (below cx fuel) ⟨.node ⟨kind, span, fields⟩, above⟩ ⟨kind, span, fields⟩ rule
        >>= fun d => pure (if Nesting.parenthesized ⟨.node ⟨kind, span, fields⟩, above⟩ then
          .list [.bare "(", d, .bare ")"] else d) := by
  rw [tree_node hcx fuel kind rule hrule, hmonkey, generic, ← hrule]

/-- The kinds that may get parentheses. -/
def nestingKinds : List String :=
  ["BinaryExpression", "LogicalExpression", "ConditionalExpression", "AssignmentExpression",
    "SequenceExpression", "UnaryExpression", "UpdateExpression", "NewExpression", "CallExpression",
    "ObjectExpression"]

theorem parenthesized_of_kind {n : Node} (h : n.kind ∉ nestingKinds)
    (above : List (Step × Value)) : Nesting.parenthesized ⟨.node n, above⟩ = false := by
  simp only [nestingKinds, List.mem_cons, List.not_mem_nil, or_false, not_or] at h
  unfold Nesting.parenthesized
  split
  · next m parent hfocus hparent =>
    cases hfocus
    have hneeded : Nesting.needed n parent (Cursor.key ⟨.node n, above⟩) = false := by
      unfold Nesting.needed
      split <;> simp_all
    simp [h, hneeded]
  · rfl

/-- A node of a kind that gets no parentheses is laid out by the generic rule alone. -/
theorem tree_generic_plain {cx : Context} (hcx : cx.attached = []) (fuel : Nat)
    (kind rule : String) (hrule : snake kind = rule)
    (hmonkey : ∀ cx child c n, monkeyRule cx child c n rule = generic cx child c)
    (hkind : kind ∉ nestingKinds) (span : Span) (fields : Fields) (above : List (Step × Value)) :
    tree cx (fuel + 1) ⟨.node ⟨kind, span, fields⟩, above⟩ =
      genericRule cx (below cx fuel) ⟨.node ⟨kind, span, fields⟩, above⟩ ⟨kind, span, fields⟩
        rule := by
  rw [tree_generic hcx fuel kind rule hrule hmonkey, parenthesized_of_kind hkind]
  simp only [Bool.false_eq_true, if_false, bind_pure]

/-- The last of several things. -/
theorem pickAt_concat {α : Type} (xs : List α) (x : α) : pickAt (xs ++ [x]) (-1) = .ok x := by
  have hplace : (-1 + ((xs ++ [x]).length : Int)).toNat = xs.length := by
    rw [List.length_append, List.length_singleton]
    omega
  unfold pickAt
  simp only [show (-1 : Int) < 0 by decide, if_true, hplace, List.getElem?_concat_length]
  rw [if_neg (by rw [List.length_append, List.length_singleton]; omega)]
  rfl

/-- The layout is a document that spells the tokens from one edge to the other. -/
def Prints (m : Layout Doc) (s : Doc.Edge) (gs : List Glyph) (t : Doc.Edge) : Prop :=
  ∃ d, m = pure d ∧ Doc.Spells s d gs t

theorem Prints.pure {d : Doc} {s t : Doc.Edge} {gs : List Glyph} (h : Doc.Spells s d gs t) :
    Prints (Pure.pure d) s gs t := ⟨d, rfl, h⟩

theorem Prints.bind {m : Layout Doc} {f : Doc → Layout Doc} {s t s' t' : Doc.Edge}
    {gs hs : List Glyph} (hm : Prints m s gs t)
    (hf : ∀ d, Doc.Spells s d gs t → Prints (f d) s' hs t') : Prints (m >>= f) s' hs t' := by
  obtain ⟨d, rfl, hd⟩ := hm
  rw [pure_bind]
  exact hf d hd

/-! ## Children -/

theorem depth_lookup {fs : Fields} {name : String} {v : Value} (h : fs.lookup name = some v) :
    v.depth ≤ entriesDepth fs := by
  induction fs with
  | nil => cases h
  | cons f fs ih =>
    obtain ⟨k, w⟩ := f
    rw [entriesDepth]
    by_cases hname : name = k
    · simp [hname] at h
      rw [h]
      exact Nat.le_max_left _ _
    · rw [List.lookup_cons, beq_eq_false_iff_ne.2 hname] at h
      exact Nat.le_trans (ih h) (Nat.le_max_right _ _)

/-- What a field holds is less deep than the node. -/
theorem depth_get (n : Node) (name : String) : (n.get name).depth < n.depth := by
  obtain ⟨kind, span, fields⟩ := n
  rw [Node.depth, Node.get]
  cases h : List.lookup name fields with
  | none =>
    change 0 < _
    omega
  | some v =>
    have hle := depth_lookup h
    change v.depth < _
    omega

theorem depth_item {vs : List Value} {v : Value} (h : v ∈ vs) : v.depth ≤ itemsDepth vs := by
  induction vs with
  | nil => cases h
  | cons w vs ih =>
    rw [itemsDepth]
    rcases List.mem_cons.1 h with rfl | h
    · exact Nat.le_max_left _ _
    · exact Nat.le_trans (ih h) (Nat.le_max_right _ _)

/-- An element of a field is less deep than the node. -/
theorem depth_element {α : Type} {node : α → Node} {xs : List α} {x : α} {n : Node} {name : String}
    (hfield : n.get name = .list (xs.map fun x => .node (node x))) (hx : x ∈ xs) :
    (node x).depth < n.depth := by
  have hdepth := depth_get n name
  have hitem := depth_item (List.mem_map_of_mem (f := fun x => Value.node (node x)) hx)
  rw [hfield] at hdepth
  change itemsDepth _ < _ at hdepth
  change (node x).depth ≤ _ at hitem
  omega

section Children

variable {cx : Context} {fuel : Nat} {above : List (Step × Value)} {n c : Node} {name : String}
  {s t : Doc.Edge} {gs : List Glyph}

/-- A child is less deep than the node. -/
theorem below_child (hget : n.get name = .node c)
    (hc : c.depth < n.depth →
      Prints (tree cx fuel ⟨.node c, (.field name, .node n) :: above⟩) s gs t) :
    Prints (below cx fuel ⟨.node n, above⟩ name) s gs t := by
  have hdepth := depth_get n name
  have hchild : below cx fuel ⟨.node n, above⟩ name =
      tree cx fuel ⟨n.get name, (.field name, .node n) :: above⟩ := rfl
  rw [hchild, hget]
  rw [hget, Value.depth] at hdepth
  exact hc hdepth

/-- A child is laid out with enough fuel for its depth. -/
theorem below_prints (hget : n.get name = .node c) (h : n.depth ≤ fuel + 1)
    (hc : c.depth ≤ fuel →
    Prints (tree cx fuel ⟨.node c, (.field name, .node n) :: above⟩) s gs t) :
    Prints (below cx fuel ⟨.node n, above⟩ name) s gs t :=
  below_child hget fun hlt => hc (Nat.le_of_lt_succ (Nat.lt_of_lt_of_le hlt h))

/-- A child is laid out with fuel to spare if the node is no deeper than the fuel. -/
theorem below_within (hget : n.get name = .node c) (h : n.depth ≤ fuel)
    (hc : c.depth < fuel →
    Prints (tree cx fuel ⟨.node c, (.field name, .node n) :: above⟩) s gs t) :
    Prints (below cx fuel ⟨.node n, above⟩ name) s gs t :=
  below_child hget fun hlt => hc (Nat.lt_of_lt_of_le hlt h)

/-- Nothing stands for a child that is absent. -/
theorem below_null (hget : n.get name = .null) :
    below cx (fuel + 1) ⟨.node n, above⟩ name = pure (.bare "") := by
  have hchild : below cx (fuel + 1) ⟨.node n, above⟩ name =
      tree cx (fuel + 1) ⟨n.get name, (.field name, .node n) :: above⟩ := rfl
  rw [hchild, hget]
  rfl

end Children

/-! ## Lists -/

/-- Documents that spell the tokens of as many things, each from and to the same edges. -/
abbrev SpellEach {α : Type} (s : Doc.Edge) (glyphs : α → List Glyph) (t : Doc.Edge) :
    List α → List Doc → Prop :=
  List.Forall₂ fun x d => Doc.Spells s d (glyphs x) t

/-- The cursors at the elements of a list, of which the first is at a given place. -/
def itemCursors (whole : Value) (above : List (Step × Value)) (first : Nat) (vs : List Value) :
    List Cursor :=
  (vs.zipIdx first).map fun (v, i) => ⟨v, (.index i, whole) :: above⟩

theorem elements_list (vs : List Value) (above : List (Step × Value)) :
    Cursor.elements ⟨.list vs, above⟩ = pure (itemCursors (.list vs) above 0 vs) := by
  cases vs <;> rfl

section Each

variable {α : Type} {f : Cursor → Layout Doc} {node : α → Node} {glyphs : α → List Glyph}
  {s t : Doc.Edge} {whole : Value} {above : List (Step × Value)} {xs : List α}

/-- Each element of a list is laid out as a document that is related to it. -/
theorem mapM_each {R : α → Doc → Prop} (h : ∀ x ∈ xs, ∀ i,
      ∃ d, f ⟨.node (node x), (.index i, whole) :: above⟩ = pure d ∧ R x d) (first : Nat) :
    ∃ ds, (itemCursors whole above first (xs.map fun x => .node (node x))).mapM f = pure ds ∧
      List.Forall₂ R xs ds := by
  induction xs generalizing first with
  | nil => exact ⟨[], rfl, .nil⟩
  | cons x xs ih =>
    obtain ⟨d, hd, hrel⟩ := h x List.mem_cons_self first
    obtain ⟨ds, hds, hrels⟩ := ih (fun y hy => h y (List.mem_cons_of_mem _ hy)) (first + 1)
    refine ⟨d :: ds, ?_, .cons hrel hrels⟩
    change ((⟨.node (node x), (.index first, whole) :: above⟩ : Cursor) ::
      itemCursors whole above (first + 1) (xs.map fun x => .node (node x))).mapM f = _
    rw [List.mapM_cons, hd, pure_bind, hds, pure_bind]

/-- Each element of a field is laid out as a document that is related to it. -/
theorem eachOf_each {R : α → Doc → Prop} {cx : Context} {fuel : Nat} {n : Node} {name : String}
    (hfield : n.get name = .list (xs.map fun x => .node (node x)))
    (h : ∀ x ∈ xs, ∀ i, ∃ d, tree cx fuel ⟨.node (node x), (.index i, n.get name) ::
      (.field name, .node n) :: above⟩ = pure d ∧ R x d) :
    ∃ ds, eachOf (below cx fuel) ⟨.node n, above⟩ name = pure ds ∧ List.Forall₂ R xs ds := by
  obtain ⟨ds, hds, hrel⟩ := mapM_each (f := fun e => below cx fuel e none) h 0
  refine ⟨ds, ?_, hrel⟩
  rw [hfield] at hds
  unfold eachOf
  rw [Cursor.field_eq hfield, elements_list]
  exact hds

/-- Each element of a field is laid out. -/
theorem eachOf_prints {cx : Context} {fuel : Nat} {n : Node} {name : String}
    (hfield : n.get name = .list (xs.map fun x => .node (node x)))
    (h : ∀ x ∈ xs, ∀ i, Prints (tree cx fuel ⟨.node (node x), (.index i, n.get name) ::
      (.field name, .node n) :: above⟩) s (glyphs x) t) :
    ∃ ds, eachOf (below cx fuel) ⟨.node n, above⟩ name = pure ds ∧ SpellEach s glyphs t xs ds :=
  eachOf_each hfield h

end Each

section Lists

variable {α : Type} {glyphs : α → List Glyph} {s t u : Doc.Edge} {xs : List α} {ds : List Doc}

/-- Documents with separators between them spell their tokens with those of the separators. -/
theorem SpellEach.join {x : α} {d sep : Doc} {gs : List Glyph} (hsep : Doc.Spells t sep gs s)
    (h : SpellEach s glyphs t (x :: xs) (d :: ds)) :
    Doc.Spells s (Doc.join sep (d :: ds)) (gs.intercalate ((x :: xs).map glyphs)) t := by
  refine .list ?_
  induction ds generalizing x xs d with
  | nil =>
    obtain ⟨hd, hnil⟩ := List.forall₂_cons.1 h
    cases hnil
    have hall := Doc.SpellsAll.cons hd (.nil t)
    rw [List.append_nil] at hall
    rwa [List.map_singleton, List.intercalate_singleton]
  | cons e es ih =>
    obtain ⟨hd, hrest⟩ := List.forall₂_cons.1 h
    cases hrest with
    | cons he hes =>
      rw [List.map_cons, List.map_cons, List.intercalate_cons_cons, List.append_assoc,
        ← List.map_cons]
      exact .cons hd (.cons hsep (ih (.cons he hes)))

theorem spells_commaLine : Doc.Spells .word commaLine [Glyph.of ","] .fresh :=
  .list (.cons (.text [Glyph.of ","] .fresh rfl rfl) (.cons (.space _) (.nil _)))

/-- Documents with commas between them. -/
theorem SpellEach.commas (h : SpellEach .fresh glyphs .word xs ds) :
    Doc.Spells .fresh (Doc.join commaLine ds) ([Glyph.of ","].intercalate (xs.map glyphs))
      .word := by
  cases h with
  | nil => exact Doc.Spells.ofFresh (.list (.nil .fresh)) .word
  | cons hd hds => exact SpellEach.join spells_commaLine (.cons hd hds)

/-- A document between parentheses or the like. -/
theorem spells_enclosed {opening closing : String} {d : Doc} {gs gs' hs : List Glyph}
    (hopen : Doc.Spells s (.bare opening) gs .fresh) (hd : Doc.Spells .fresh d hs t)
    (hclose : Doc.Spells t (.bare closing) gs' u) :
    Doc.Spells s (enclosed opening d closing) (gs ++ (hs ++ gs')) u := by
  refine .group (.list (.cons hopen ?_)) false
  have hindent : Doc.Spells .fresh (.indent (.list [.softline, d])) hs t := by
    have hall := Doc.SpellsAll.cons (.softline _) (.cons hd (.nil _))
    rw [List.append_nil] at hall
    exact .indent (.list hall)
  have hall := Doc.SpellsAll.cons (.softline t) (.cons hclose (.nil u))
  rw [List.append_nil] at hall
  exact .cons hindent hall

end Lists

/-! ## Bodies -/

section Bodies

variable {α : Type} {node : α → Node} {glyphs : α → List Glyph} {xs : List α}

theorem blankLineAfter_eq_ok (cx : Context) {n : Node} (h : 0 ≤ n.stop) :
    ∃ b, blankLineAfter cx (.node n) = .ok b := by
  unfold blankLineAfter
  split
  · exact ⟨_, rfl⟩
  · exact Source.nextLineEmpty_eq_ok cx.source h

/-- What one statement or declaration of a body is laid out as: its document, and line breaks if
another one follows. -/
def bodyPart (cx : Context) (child : Child) (count : Nat) (e : Cursor) (i : Nat) :
    Layout (List Doc) := do
  let d ← child e none
  if i + 1 < count then
    let blank ← blankLineAfter cx e.focus
    pure ([d, .hardline] ++ if blank then [.hardline] else [])
  else pure [d]

theorem statements_eq (cx : Context) (child : Child) {n : Node} {name : String} {vs : List Value}
    (hfield : n.get name = .list vs) (above : List (Step × Value)) :
    statements cx child ⟨.node n, above⟩ n name =
      (((itemCursors (.list vs) ((.field name, .node n) :: above) 0 vs).zipIdx.mapM fun (e, i) =>
        bodyPart cx child vs.length e i) >>= fun parts => pure parts.flatten) := by
  have hcount : (Value.list vs).count = .ok vs.length := by cases vs <;> rfl
  unfold statements
  rw [hfield, Cursor.field_eq hfield, elements_list, hcount]
  rfl

theorem bodyPart_prints {cx : Context} {fuel : Nat} {n : Node} {gs : List Glyph}
    {above : List (Step × Value)} (h : Prints (tree cx fuel ⟨.node n, above⟩) .fresh gs .fresh)
    (hstop : 0 ≤ n.stop) (count i : Nat) :
    ∃ part, bodyPart cx (below cx fuel) count ⟨.node n, above⟩ i = pure part ∧
      Doc.SpellsAll .fresh part gs .fresh := by
  obtain ⟨d, hd, hspell⟩ := h
  obtain ⟨blank, hblank⟩ := blankLineAfter_eq_ok cx hstop
  have hd' : below cx fuel ⟨.node n, above⟩ none = pure d := hd
  unfold bodyPart
  rw [hd', pure_bind]
  split
  · rw [hblank]
    refine ⟨_, rfl, ?_⟩
    rw [← List.append_nil gs]
    refine .cons hspell (.cons (.hardline _) ?_)
    cases blank with
    | false => exact .nil _
    | true => exact .cons (.hardline _) (.nil _)
  · refine ⟨_, rfl, ?_⟩
    rw [← List.append_nil gs]
    exact .cons hspell (.nil _)

theorem bodyParts_prints {cx : Context} {fuel : Nat} {whole : Value} {above : List (Step × Value)}
    (h : ∀ x ∈ xs, ∀ i, Prints (tree cx fuel ⟨.node (node x), (.index i, whole) :: above⟩) .fresh
      (glyphs x) .fresh) (hstop : ∀ x ∈ xs, 0 ≤ (node x).stop) (count first place : Nat) :
    ∃ parts, ((itemCursors whole above first (xs.map fun x => .node (node x))).zipIdx place).mapM
        (fun (e, i) => bodyPart cx (below cx fuel) count e i) = pure parts ∧
      Doc.SpellsAll .fresh parts.flatten (xs.flatMap glyphs) .fresh := by
  induction xs generalizing first place with
  | nil => exact ⟨[], rfl, .nil _⟩
  | cons x xs ih =>
    rw [List.forall_mem_cons] at h hstop
    obtain ⟨part, hpart, hspell⟩ := bodyPart_prints (h.1 first) hstop.1 count place
    obtain ⟨parts, hparts, hspells⟩ := ih h.2 hstop.2 (first + 1) (place + 1)
    refine ⟨part :: parts, ?_, hspell.append hspells⟩
    change (((⟨.node (node x), (.index first, whole) :: above⟩ : Cursor), place) ::
      (itemCursors whole above (first + 1) (xs.map fun x => .node (node x))).zipIdx
        (place + 1)).mapM _ = _
    rw [List.mapM_cons]
    dsimp only
    rw [hpart, pure_bind, hparts, pure_bind]

/-- The elements of a body are laid out one behind the other. -/
theorem statements_prints {cx : Context} {fuel : Nat} {n : Node} {name : String}
    {above : List (Step × Value)} (hfield : n.get name = .list (xs.map fun x => .node (node x)))
    (h : ∀ x ∈ xs, ∀ i, Prints (tree cx fuel ⟨.node (node x), (.index i, n.get name) ::
      (.field name, .node n) :: above⟩) .fresh (glyphs x) .fresh)
    (hstop : ∀ x ∈ xs, 0 ≤ (node x).stop) :
    ∃ parts, statements cx (below cx fuel) ⟨.node n, above⟩ n name = pure parts ∧
      Doc.SpellsAll .fresh parts (xs.flatMap glyphs) .fresh := by
  obtain ⟨parts, hrun, hspells⟩ := bodyParts_prints h hstop
    (xs.map fun x => Value.node (node x)).length 0 0
  refine ⟨parts.flatten, ?_, hspells⟩
  rw [hfield] at hrun
  rw [statements_eq cx _ hfield, hrun, pure_bind]

end Bodies

end Layout

/-- A tree whose layout spells tokens is formatted as a text that lexes into them. -/
theorem formatTree_of_prints {root : Node} {source : String} {o : Options} {gs : List Glyph}
    {t : Doc.Edge} {made : Parentheses.Outcome Node} (hrun : Parentheses.run root = .ok made)
    (h : Layout.Prints (Layout.tree ⟨o.widths, Source.ofString source, []⟩
      (made.result.depth + 1) ⟨.node made.result, []⟩) .fresh gs t) :
    ∃ text, formatTree root [] source o = .ok ⟨text, []⟩ ∧ Lexeme.Scans text.toList gs := by
  obtain ⟨d, hd, hspell⟩ := h
  obtain ⟨text, hrender, hscan⟩ := Doc.render_spells o.widths hspell
  refine ⟨text, ?_, hscan⟩
  have hattach : attach Layout.mayOwn made.result (Source.ofString source) [] = .ok [] := by
    simp [attach]
    rfl
  have hdocument : Layout.document ⟨o.widths, Source.ofString source, []⟩
      made.result = .ok (d, []) := congrArg (fun m => StateT.run m []) hd
  unfold formatTree
  simp only [hrun, hattach, hdocument, hrender, bind, Except.bind]
  rfl

end MonkeyFormat
