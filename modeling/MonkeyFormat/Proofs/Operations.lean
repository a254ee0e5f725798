import MonkeyFormat.Proofs.Ordinary

set_option autoImplicit false

/-! # Operations

Trees of binary and logical operators over names. Parentheses around an operand come from three
places: the pass that makes them explicit, the generic ranks, and, on the left, the chains that
leave them out. Together they decide which tokens the layout of a tree spells. -/

namespace MonkeyFormat

/-! ## Operators between two operands -/

/-- A kind of node with two operands, and its operator. -/
structure Joint where
  kind : String
  op : String
deriving DecidableEq

namespace Joint

/-- A node of the kind with the operator, as far as parentheses depend on it. -/
def node (j : Joint) : Node := ⟨j.kind, {}, [("operator", .str j.op)]⟩

/-- The operator that tests for a class. -/
def instanceOf : Joint := ⟨"BinaryExpression", "instanceof"⟩

/-- The operator that casts to a type. -/
def cast : Joint := ⟨"BinaryExpression", "as"⟩

/-- The operators whose operands are both expressions. -/
def plain : List Joint :=
  (["*", "/", "%", "+", "-", "<<", ">>", "<", "<=", ">", ">=", "has", "==", "!=", "&", "^",
    "|"].map (Joint.mk "BinaryExpression")) ++
  (["&&", "and", "||", "or"].map (Joint.mk "LogicalExpression"))

/-- All operators between two operands. -/
def all : List Joint := instanceOf :: cast :: plain

theorem ranks?_isSome_iff (op : String) :
    (Operator.ranks? op).isSome = true ↔ ⟨"BinaryExpression", op⟩ ∈ all := by
  constructor
  · intro h
    unfold Operator.ranks? at h
    split at h
    all_goals first | decide | cases h
  · intro h
    have hall : ∀ j ∈ all, j.kind = "BinaryExpression" → (Operator.ranks? j.op).isSome = true := by
      decide +kernel
    exact hall _ h rfl

theorem kind_of_mem {j : Joint} (h : j ∈ all) :
    j.kind = "BinaryExpression" ∨ j.kind = "LogicalExpression" := by
  have hall : ∀ j ∈ all, j.kind = "BinaryExpression" ∨ j.kind = "LogicalExpression" := by
    decide +kernel
  exact hall j h

/-- The rank by which the grammar binds the operator; conjunctions bind looser than all binary
operators, and disjunctions looser still. -/
def rank (j : Joint) : Int :=
  if j.kind = "LogicalExpression" then if j.op = "&&" || j.op = "and" then 100 else 101
  else (Operator.sourceRank? j.op).getD 0

/-- Does the pass before the layout wrap an operand with the operator `j` under `parent`? -/
def wraps (parent : Joint) (side : String) (j : Joint) : Bool :=
  Parentheses.needed j.node parent.node (some side)

/-- Is a left operand with the operator `j` laid out in the chain of `parent`? -/
def chains (parent j : Joint) : Bool := Operator.flattens (.str parent.op) (.str j.op)

/-- Does the layout put an operand with the operator `j` under `parent` in parentheses? -/
def nests (parent : Joint) (side : String) (j : Joint) : Bool :=
  Nesting.needed j.node parent.node (some side)

/-- Does an operand with the operator `j` stand in parentheses under `parent`? -/
def encloses (parent : Joint) (side : String) (j : Joint) : Bool :=
  wraps parent side j || (!(side == "left" && chains parent j) && nests parent side j)

/-- A left operand without parentheses binds at least as tight as the operator over it. -/
theorem rank_le_of_left : ∀ parent ∈ all, ∀ j ∈ all, encloses parent "left" j = false →
    j.rank ≤ parent.rank ∧ j ≠ cast := by
  decide +kernel

/-- A right operand without parentheses binds tighter than the operator over it. -/
theorem rank_lt_of_right : ∀ parent ∈ plain, ∀ j ∈ all, encloses parent "right" j = false →
    j.rank < parent.rank ∧ j ≠ cast := by
  decide +kernel

end Joint

/-! ## Trees of operators -/

/-- An expression of binary and logical operators over names. A test for a class has a dotted name
on its right, and a cast a type. -/
inductive Operation where
  | name (x : Name) (span : Span)
  | join (j : Joint) (hj : j ∈ Joint.plain) (left right : Operation) (span : Span)
  | test (left : Operation) (right : DottedName) (span : Span)
  | cast (left : Operation) (right : PlainType) (span : Span)

/-- A node with two operands. -/
def Joint.apply (j : Joint) (span : Span) (left right : Node) : Node :=
  ⟨j.kind, span, [("operator", .str j.op), ("left", .node left), ("right", .node right)]⟩

namespace Operation

/-- The node of an operation. -/
def node : Operation → Node
  | .name x span => x.node span
  | .join j _ left right span => j.apply span left.node right.node
  | .test left right span => Joint.instanceOf.apply span left.node right.node
  | .cast left right span => Joint.cast.apply span left.node right.node

/-- The outermost operator. -/
def joint? : Operation → Option Joint
  | .name _ _ => none
  | .join j _ _ _ _ => some j
  | .test _ _ _ => some Joint.instanceOf
  | .cast _ _ _ => some Joint.cast

/-- Is the operation wrapped under an operator before the layout? -/
def wrapped (e : Operation) (parent : Joint) (side : String) : Bool :=
  e.joint?.any (parent.wraps side)

/-- Does the operation stand in parentheses under an operator? -/
def enclosed (e : Operation) (parent : Joint) (side : String) : Bool :=
  e.joint?.any (parent.encloses side)

/-- The node with explicit parentheses if it is to be wrapped. -/
def wrapIf (b : Bool) (n : Node) : Node := if b then Parentheses.wrap n else n

/-- The node of an operation with parentheses made explicit. -/
def explicit : Operation → Node
  | .name x span => x.node span
  | .join j _ left right span =>
    j.apply span (wrapIf (left.wrapped j "left") left.explicit)
      (wrapIf (right.wrapped j "right") right.explicit)
  | .test left right span =>
    Joint.instanceOf.apply span (wrapIf (left.wrapped Joint.instanceOf "left") left.explicit)
      right.node
  | .cast left right span =>
    Joint.cast.apply span (wrapIf (left.wrapped Joint.cast "left") left.explicit) right.node

/-- Tokens, in parentheses or not. -/
def enclosedIf (b : Bool) (gs : List Glyph) : List Glyph :=
  if b then Glyph.of "(" :: (gs ++ [Glyph.of ")"]) else gs

/-- The tokens that the layout of an operation spells. -/
def glyphs : Operation → List Glyph
  | .name x _ => [x.glyph]
  | .join j _ left right _ =>
    enclosedIf (left.enclosed j "left") left.glyphs ++
      Glyph.of j.op :: enclosedIf (right.enclosed j "right") right.glyphs
  | .test left right _ =>
    enclosedIf (left.enclosed Joint.instanceOf "left") left.glyphs ++
      Glyph.of "instanceof" :: right.glyphs
  | .cast left right _ =>
    enclosedIf (left.enclosed Joint.cast "left") left.glyphs ++ Glyph.of "as" :: right.glyphs

theorem joint?_mem {e : Operation} {j : Joint} (h : e.joint? = some j) : j ∈ Joint.all := by
  cases e with
  | name => cases h
  | join j hj =>
    cases h
    exact List.mem_cons_of_mem _ (List.mem_cons_of_mem _ hj)
  | test =>
    cases h
    exact List.mem_cons_self
  | cast =>
    cases h
    exact List.mem_cons_of_mem _ List.mem_cons_self

/-- How a node with two operands looks to the rules for parentheses. -/
theorem explicit_joint {e : Operation} {j : Joint} (h : e.joint? = some j) :
    e.explicit.kind = j.kind ∧ e.explicit.get "operator" = .str j.op := by
  cases e <;> cases h <;> exact ⟨rfl, rfl⟩

end Operation

/-! ## Making parentheses explicit -/

namespace Parentheses

theorem needed_congr {n n' parent parent' : Node} (key : Option String) (hn : n.kind = n'.kind)
    (ho : n.get "operator" = n'.get "operator") (hp : parent.kind = parent'.kind)
    (hq : parent.get "operator" = parent'.get "operator") :
    needed n parent key = needed n' parent' key := by
  simp only [needed, hn, ho, hp, hq]

theorem needed_explicit (e : Operation) (j : Joint) (side : String) (span : Span)
    (left right : Node) :
    needed e.explicit (j.apply span left right) (some side) = e.wrapped j side := by
  cases hj : e.joint? with
  | none =>
    cases e with
    | name x xspan =>
      rw [Operation.wrapped, hj]
      exact needed_of_quiet List.mem_cons_self _ _
    | join | test | cast => cases hj
  | some k =>
    obtain ⟨hkind, hop⟩ := Operation.explicit_joint hj
    rw [Operation.wrapped, hj]
    exact needed_congr _ hkind hop rfl rfl

theorem made_apply {j : Joint} (hj : j ∈ Joint.all) (span : Span) (left right : Node) :
    made (j.apply span left right) = j.apply span
      (madeUnder (j.apply span left right) "left" left)
      (madeUnder (j.apply span left right) "right" right) := by
  have hbody : bodyFields j.kind = [] := by
    rcases Joint.kind_of_mem hj with h | h <;> rw [h] <;> rfl
  have hkeys : childFields? j.kind = some ["left", "right"] := by
    rcases Joint.kind_of_mem hj with h | h <;> rw [h] <;> rfl
  rw [Joint.apply, made_eq hbody, childKeys_eq hkeys]
  simp only [explicitFields_cons, explicitFields_nil, explicitValue_node]
  rfl

theorem madeUnder_operation {e : Operation} (he : made e.node = e.explicit) (j : Joint)
    (side : String) (span : Span) (left right : Node) :
    madeUnder (j.apply span left right) side e.node =
      Operation.wrapIf (e.wrapped j side) e.explicit := by
  rw [madeUnder, he, needed_explicit, Operation.wrapIf]

/-- A node that is not wrapped on the right of a cast. -/
theorem needed_right_of_cast (n : Node) (span : Span) (left right : Node) :
    needed n (Joint.cast.apply span left right) (some "right") = false := rfl

/-- The pass makes explicit the parentheses that it is said to make. -/
theorem made_operation (e : Operation) : made e.node = e.explicit := by
  induction e with
  | name x span => rfl
  | join j hj left right span ihl ihr =>
    have hall : j ∈ Joint.all := List.mem_cons_of_mem _ (List.mem_cons_of_mem _ hj)
    rw [Operation.node, made_apply hall, madeUnder_operation ihl, madeUnder_operation ihr]
    rfl
  | test left right span ih =>
    rw [Operation.node, made_apply List.mem_cons_self, madeUnder_operation ih,
      madeUnder_of_quiet (made_dottedName right) (kind_dottedName right)]
    rfl
  | cast left right span ih =>
    rw [Operation.node, made_apply (List.mem_cons_of_mem _ List.mem_cons_self),
      madeUnder_operation ih, madeUnder, made_plainType, needed_right_of_cast]
    rfl

/-! ### No fault -/

theorem ordinary_dottedName (c : DottedName) : ∀ m ∈ c.node.walk, Ordinary m := by
  have hname (x : Name) (span : Span) : ∀ m ∈ (x.node span).walk, Ordinary m :=
    Node.forall_walk_iff.2 ⟨.of_names ["name"] rfl (by decide) rfl fun _ => rfl,
      fun _ hc => absurd hc List.not_mem_nil⟩
  induction c with
  | name x span => exact hname x span
  | member object x property span ih =>
    refine Node.forall_walk_iff.2 ⟨.of_names ["object", "property", "computed"] rfl (by decide) rfl
      fun _ => rfl, fun c hc => ?_⟩
    have hchildren : (DottedName.member object x property span).node.children =
        [object.node, x.node property] := rfl
    rw [hchildren, List.mem_pair] at hc
    rcases hc with rfl | rfl
    · exact ih
    · exact hname x property

theorem ordinary_plainType (t : PlainType) : ∀ m ∈ t.node.walk, Ordinary m := by
  have hname : t.partNode.children = [t.name.node] := rfl
  have hpart : t.node.children = [t.partNode] := rfl
  refine Node.forall_walk_iff.2 ⟨.of_names ["ts"] rfl (by decide) rfl fun _ => rfl, fun c hc => ?_⟩
  rw [hpart, List.mem_singleton] at hc
  subst hc
  refine Node.forall_walk_iff.2 ⟨.of_names ["name", "generics"] rfl (by decide) rfl fun _ => rfl,
    fun c hc => ?_⟩
  rw [hname, List.mem_singleton] at hc
  subst hc
  exact ordinary_dottedName t.name

theorem ordinary_apply {j : Joint} (hj : j ∈ Joint.all) {span : Span} {left right : Node}
    (hleft : ∀ m ∈ left.walk, Ordinary m) (hright : ∀ m ∈ right.walk, Ordinary m) :
    ∀ m ∈ (j.apply span left right).walk, Ordinary m := by
  have hkeys : childFields? j.kind = some ["left", "right"] := by
    rcases Joint.kind_of_mem hj with h | h <;> rw [h] <;> rfl
  have hchildren : (j.apply span left right).children = [left, right] := by
    rw [Node.children_eq, Joint.apply, childKeys_eq hkeys]
    rfl
  refine Node.forall_walk_iff.2 ⟨.of_names ["operator", "left", "right"] rfl (by decide) ?_
    fun _ => rfl, fun c hc => ?_⟩
  · rw [Joint.apply, hkeys]
    rfl
  rw [hchildren, List.mem_pair] at hc
  rcases hc with rfl | rfl
  · exact hleft
  · exact hright

theorem ordinary_operation (e : Operation) : ∀ m ∈ e.node.walk, Ordinary m := by
  induction e with
  | name x span => exact ordinary_dottedName (.name x span)
  | join j hj left right span ihl ihr =>
    exact ordinary_apply (List.mem_cons_of_mem _ (List.mem_cons_of_mem _ hj)) ihl ihr
  | test left right span ih =>
    exact ordinary_apply List.mem_cons_self ih (ordinary_dottedName right)
  | cast left right span ih =>
    exact ordinary_apply (List.mem_cons_of_mem _ List.mem_cons_self) ih (ordinary_plainType right)

/-- An operation is made explicit without a fault. -/
theorem run_operation (e : Operation) : run e.node = .ok (Parentheses.explicit e.node) :=
  run_of_ordinary (ordinary_operation e)

end Parentheses

/-! ## Laying out -/

namespace Layout

variable {cx : Context} {child : Child} {fuel : Nat} {above : List (Step × Value)}
  {gs hs : List Glyph} {j : Joint} {span : Span} {left right : Node}

/-- An operator spells its token where a blank follows. -/
theorem spells_operator (hj : j ∈ Joint.all) :
    Doc.Spells .fresh (.bare j.op) [Glyph.of j.op] .operator := by
  have hall : ∀ j ∈ Joint.all, Doc.isMultiline j.op = false ∧
      (Doc.spellText (j.op.length + 1) .fresh j.op.toList = some ([Glyph.of j.op], .word) ∨
        Doc.spellText (j.op.length + 1) .fresh j.op.toList =
          some ([Glyph.of j.op], .operator)) := by
    decide +kernel
  obtain ⟨hline, h | h⟩ := hall j hj
  · exact (Doc.Spells.text _ _ hline h).toOperator
  · exact .text _ _ hline h

/-- Tokens between parentheses. -/
theorem spells_parens {d : Doc} (h : Doc.Spells .fresh d gs .word) :
    Doc.Spells .fresh (.list [.bare "(", d, .bare ")"]) (Operation.enclosedIf true gs) .word :=
  .list (.cons (.text [Glyph.of "("] .fresh rfl rfl)
    (.cons h (.cons (.ofFresh (.text [Glyph.of ")"] .fresh rfl rfl) _) (.nil _))))

/-- What a chain starts with: the chain of the left operand, or that operand as a whole. -/
def Fronts (cx : Context) (child : Child) (fuel : Nat) (c : Cursor) (n left : Node)
    (front : List Doc) : Prop :=
  (chainsLeft n = true ∧ chain cx child fuel true (c.field "left") left = pure front) ∨
    (chainsLeft n = false ∧ ∃ d, child c "left" = pure d ∧ front = [.group d false])

/-- A chain goes on behind its front with an operator and the right operand. -/
theorem chain_apply (hcx : cx.attached = []) (hj : j ∈ Joint.all) (nested : Bool) {front : List Doc}
    {t : Doc.Edge} (hfront : Fronts cx child fuel ⟨.node (j.apply span left right), above⟩
      (j.apply span left right) left front)
    (hspell : Doc.SpellsAll .fresh front gs .word)
    (hright : Prints (child ⟨.node (j.apply span left right), above⟩ "right") .fresh hs t) :
    ∃ parts, chain cx child (fuel + 1) nested ⟨.node (j.apply span left right), above⟩
        (j.apply span left right) = pure parts ∧
      Doc.SpellsAll .fresh parts (gs ++ Glyph.of j.op :: hs) t := by
  obtain ⟨d, hd, hdspell⟩ := hright
  have hown : own cx ⟨.node (j.apply span left right), above⟩ = [] := by simp [own, hcx]
  have hleft : (j.apply span left right).get "left" = .node left := rfl
  have hgap : Doc.Spells .operator (if inlinesRight (j.apply span left right) then .bare " "
      else .space) [] .fresh := by
    split
    · exact .text [] .fresh rfl rfl
    · exact .space _
  have hrest : Doc.Spells .fresh (.list [.bare j.op,
      if inlinesRight (j.apply span left right) then .bare " " else .space, d])
      ([Glyph.of j.op] ++ ([] ++ (hs ++ []))) t :=
    .list (.cons (spells_operator hj) (.cons hgap (.cons hdspell (.nil _))))
  rw [List.append_nil] at hrest
  have hparts (alone : Bool) : Doc.SpellsAll .fresh (front ++ [.bare " ",
      if alone then .group (.list [.bare j.op,
        if inlinesRight (j.apply span left right) then .bare " " else .space, d]) false
      else .list [.bare j.op,
        if inlinesRight (j.apply span left right) then .bare " " else .space, d]])
      (gs ++ ([] ++ (Glyph.of j.op :: hs ++ []))) t := by
    refine hspell.append (.cons (.text [] .fresh rfl rfl) (.cons ?_ (.nil _)))
    split
    · exact hrest.group false
    · exact hrest
  simp only [List.append_nil, List.nil_append] at hparts
  rcases hfront with ⟨hchains, hchain⟩ | ⟨hchains, e, he, rfl⟩
  · unfold chain
    simp only [hleft, hchains, if_true, hchain, pure_bind, hd, hown, List.isEmpty_nil,
      Bool.not_true,
      Bool.and_false, Bool.false_eq_true, if_false]
    exact ⟨_, rfl, hparts _⟩
  · unfold chain
    simp only [hleft, hchains, he, pure_bind, hd, hown, List.isEmpty_nil, Bool.not_true,
      Bool.and_false, Bool.false_eq_true, if_false]
    exact ⟨_, rfl, hparts _⟩

/-- Wherever a chain stands, its parts are laid out in order. -/
theorem binaryExpression_prints {c : Cursor} {n : Node} {parts : List Doc} {t : Doc.Edge}
    (hchain : chain cx child n.depth false c n = pure parts)
    (hspell : Doc.SpellsAll .fresh parts gs t) :
    Prints (binaryExpression cx child c n) .fresh gs t := by
  have hsoft : Doc.Spells .fresh (.group (.list [.indent (.list [.softline, .list parts]),
      .softline]) false) ([] ++ (gs ++ []) ++ ([] ++ [])) t :=
    .group (.list (.cons (.indent (.list (.cons (.softline _) (.cons (.list hspell) (.nil _)))))
      (.cons (.softline _) (.nil _)))) false
  simp only [List.append_nil, List.nil_append] at hsoft
  have hindent : Doc.Spells .fresh (.group (.list [parts.headD (.bare ""),
      .indent (.list (parts.drop 1))]) false) gs t := by
    cases parts with
    | nil => exact ⟨rfl, hspell.spelled⟩
    | cons d ds =>
      have hplain := hspell.plain
      have hspelled := hspell.spelled
      simp only [Doc.plainAll, Doc.piecesAll] at hplain hspelled
      constructor
      · simpa [Doc.plain, Doc.plainAll] using hplain
      · simpa [Doc.pieces, Doc.piecesAll] using hspelled
  unfold binaryExpression
  rw [hchain, pure_bind]
  split
  · exact .pure (.group (.list hspell) false)
  · dsimp only
    split
    · exact .pure (.list hspell)
    · split
      · exact .pure hsoft
      · split
        · exact .pure (.group (.list hspell) false)
        · exact .pure hindent

theorem monkeyRule_parenthesized (c : Cursor) (n : Node) :
    monkeyRule cx child c n "parenthesized_expression" = parenthesizedExpression cx child c n := rfl

theorem snake_parenthesized : snake "ParenthesizedExpression" = "parenthesized_expression" :=
  snake_of_mem (by decide)

/-- Explicit parentheses are written inside a tree. -/
theorem prints_wrap (hcx : cx.attached = []) {n parent : Node} (key : String)
    (hobject : isKind "ObjectExpression" (.node n) = false)
    (h : Prints (tree cx fuel ⟨.node n, (.field "expression", .node (Parentheses.wrap n)) ::
      (.field key, .node parent) :: above⟩) .fresh gs .word) :
    Prints (tree cx (fuel + 1) ⟨.node (Parentheses.wrap n), (.field key, .node parent) :: above⟩)
      .fresh (Operation.enclosedIf true gs) .word := by
  have hkind : (Parentheses.wrap n).kind ∉ nestingKinds := by
    change "ParenthesizedExpression" ∉ nestingKinds
    decide
  have hexpression : isKind "ObjectExpression" ((Parentheses.wrap n).get "expression") = false :=
    hobject
  obtain ⟨d, hd, hspell⟩ := h
  refine ⟨_, ?_, spells_parens hspell⟩
  rw [Parentheses.wrap, tree_node hcx fuel "ParenthesizedExpression" "parenthesized_expression"
    snake_parenthesized, monkeyRule_parenthesized, ← Parentheses.wrap]
  unfold parenthesizedExpression
  simp only [Cursor.parent, Cursor.ancestors, List.filterMap_cons, Value.node?, List.head?_cons,
    hexpression, Bool.false_and, Bool.false_eq_true, if_false]
  have hrule : genericRule cx (below cx fuel) ⟨.node (Parentheses.wrap n),
      (.field key, .node parent) :: above⟩ (Parentheses.wrap n) (snake "ParenthesizedExpression") =
      pure (.list [.bare "(", d, .bare ")"]) := by
    rw [snake_parenthesized]
    change (tree cx fuel ⟨.node n, _⟩ >>= fun d => _) = _
    rw [hd]
    rfl
  change (genericRule cx (below cx fuel) _ _ (snake "ParenthesizedExpression") >>= _) = _
  rw [hrule, pure_bind, parenthesized_of_kind hkind]
  rfl

/-- A node with two operands is laid out as a chain, in parentheses where it needs them. -/
theorem tree_apply (hcx : cx.attached = []) (hj : j ∈ Joint.all) :
    tree cx (fuel + 1) ⟨.node (j.apply span left right), above⟩ =
      binaryExpression cx (below cx fuel) ⟨.node (j.apply span left right), above⟩
          (j.apply span left right) >>= fun d =>
        pure (if Nesting.parenthesized ⟨.node (j.apply span left right), above⟩ then
          .list [.bare "(", d, .bare ")"] else d) := by
  obtain ⟨kind, op⟩ := j
  rcases Joint.kind_of_mem hj with hkind | hkind
  · obtain rfl : kind = "BinaryExpression" := hkind
    exact tree_generic hcx fuel "BinaryExpression" "binary_expression" (snake_of_mem (by decide))
      (fun _ _ _ _ => rfl) _ _ _
  · obtain rfl : kind = "LogicalExpression" := hkind
    exact tree_generic hcx fuel "LogicalExpression" "logical_expression" (snake_of_mem (by decide))
      (fun _ _ _ _ => rfl) _ _ _

theorem Prints.parens {m : Layout Doc} {b : Bool} (h : Prints m .fresh gs .word) :
    Prints (m >>= fun d => Pure.pure (if b then .list [.bare "(", d, .bare ")"] else d)) .fresh
      (Operation.enclosedIf b gs) .word := by
  refine h.bind fun d hd => ?_
  cases b with
  | false => exact .pure hd
  | true => exact .pure (spells_parens hd)

end Layout

namespace Nesting

theorem needed_congr {n n' parent parent' : Node} (key : Option String) (hn : n.kind = n'.kind)
    (hkind : n.kind = "BinaryExpression" ∨ n.kind = "LogicalExpression")
    (ho : n.get "operator" = n'.get "operator") (hp : parent.kind = parent'.kind)
    (hq : parent.get "operator" = parent'.get "operator") :
    needed n parent key = needed n' parent' key := by
  unfold needed
  rw [← hn]
  rcases hkind with h | h <;> rw [h] <;> simp only [ho, hp, hq]

theorem parenthesized_field {n parent : Node} {key : String} {above : List (Step × Value)}
    (h : n.kind ≠ "ObjectExpression") :
    parenthesized ⟨.node n, (.field key, .node parent) :: above⟩ = needed n parent (some key) := by
  simp [parenthesized, Cursor.parent, Cursor.ancestors, Value.node?, Cursor.index, Cursor.key, h]

end Nesting

namespace Operation

theorem kind_explicit (e : Operation) :
    e.explicit.kind = "Identifier" ∨ e.explicit.kind = "BinaryExpression" ∨
      e.explicit.kind = "LogicalExpression" := by
  cases hj : e.joint? with
  | none =>
    cases e with
    | name => exact Or.inl rfl
    | join | test | cast => cases hj
  | some j =>
    rw [(explicit_joint hj).1]
    exact Or.inr (Joint.kind_of_mem (joint?_mem hj))

/-- Under an operator, the layout puts an operation in parentheses by the ranks of the two. -/
theorem parenthesized_explicit (e : Operation) (j : Joint) (side : String) (span : Span)
    (left right : Node) (above : List (Step × Value)) :
    Nesting.parenthesized ⟨.node e.explicit,
      (.field side, .node (j.apply span left right)) :: above⟩ = e.joint?.any (j.nests side) := by
  have hobject : e.explicit.kind ≠ "ObjectExpression" := by
    rcases e.kind_explicit with h | h | h <;> rw [h] <;> decide
  rw [Nesting.parenthesized_field hobject]
  cases hj : e.joint? with
  | none =>
    cases e with
    | name => rfl
    | join | test | cast => cases hj
  | some k =>
    obtain ⟨hkind, hop⟩ := explicit_joint hj
    refine Nesting.needed_congr _ hkind ?_ hop rfl rfl
    rw [hkind]
    exact Joint.kind_of_mem (joint?_mem hj)

/-- A left operand that is no chain stands in parentheses if the pass or the layout puts some. -/
theorem enclosed_left {e : Operation} {j : Joint}
    (h : (!e.wrapped j "left" && e.joint?.any j.chains) = false) :
    e.enclosed j "left" = (e.wrapped j "left" || e.joint?.any (j.nests "left")) := by
  unfold wrapped enclosed at *
  cases hj : e.joint? with
  | none => rfl
  | some k =>
    rw [hj] at h
    simp only [Option.any_some, Joint.encloses] at h ⊢
    cases hw : j.wraps "left" k with
    | true => rfl
    | false =>
      rw [hw, Bool.not_false, Bool.true_and] at h
      rw [h]
      rfl

/-- A right operand stands in parentheses if the pass or the layout puts some. -/
theorem enclosed_right (e : Operation) (j : Joint) :
    e.enclosed j "right" = (e.wrapped j "right" || e.joint?.any (j.nests "right")) := by
  unfold wrapped enclosed
  cases e.joint? <;> rfl

/-- Inside explicit parentheses no further ones are put. -/
theorem parenthesized_wrapped (e : Operation) (n : Node) (above : List (Step × Value)) :
    Nesting.parenthesized ⟨.node e.explicit,
      (.field "expression", .node (Parentheses.wrap n)) :: above⟩ = false := by
  have hobject : e.explicit.kind ≠ "ObjectExpression" := by
    rcases e.kind_explicit with h | h | h <;> rw [h] <;> decide
  rw [Nesting.parenthesized_field hobject]
  unfold Nesting.needed
  rcases e.kind_explicit with h | h | h <;> rw [h] <;> rfl

end Operation

namespace Layout

variable {cx : Context} {fuel : Nat} {above : List (Step × Value)} {j : Joint} {span : Span}
  {left right : Node}

/-- The operation is laid out as its tokens, wherever it stands. -/
def PrintsTree (cx : Context) (e : Operation) : Prop :=
  ∀ (fuel : Nat) (above : List (Step × Value)), e.explicit.depth ≤ fuel →
    Prints (tree cx fuel ⟨.node e.explicit, above⟩) .fresh
      (Operation.enclosedIf (Nesting.parenthesized ⟨.node e.explicit, above⟩) e.glyphs) .word

/-- The chain of the operation is laid out as its tokens, wherever it stands. -/
def PrintsChain (cx : Context) (e : Operation) : Prop :=
  ∀ (fuel rounds : Nat) (nested : Bool) (above : List (Step × Value)),
    e.explicit.depth ≤ fuel + 1 → e.explicit.depth ≤ rounds →
      ∃ parts, chain cx (below cx fuel) rounds nested ⟨.node e.explicit, above⟩ e.explicit =
          pure parts ∧ Doc.SpellsAll .fresh parts e.glyphs .word

theorem depth_wrap (n : Node) : (Parentheses.wrap n).depth = n.depth + 1 := by
  simp only [Parentheses.wrap, Node.depth, entriesDepth, Value.depth]
  omega

theorem prints_operand (hcx : cx.attached = []) {e : Operation} (he : PrintsTree cx e)
    (side : String) (h : (Operation.wrapIf (e.wrapped j side) e.explicit).depth ≤ fuel) :
    Prints (tree cx fuel ⟨.node (Operation.wrapIf (e.wrapped j side) e.explicit),
        (.field side, .node (j.apply span left right)) :: above⟩) .fresh
      (Operation.enclosedIf (e.wrapped j side || e.joint?.any (j.nests side)) e.glyphs) .word := by
  cases hw : e.wrapped j side with
  | false =>
    rw [hw] at h
    have htree := he fuel ((.field side, .node (j.apply span left right)) :: above) h
    rwa [Operation.parenthesized_explicit] at htree
  | true =>
    rw [hw, Operation.wrapIf, if_pos rfl, depth_wrap] at h
    obtain ⟨fuel, rfl⟩ : ∃ m, fuel = m + 1 := ⟨fuel - 1, by omega⟩
    have hobject : isKind "ObjectExpression" (.node e.explicit) = false := by
      rcases e.kind_explicit with h | h | h <;> simp [isKind, h]
    refine prints_wrap hcx side hobject ?_
    have htree := he fuel ((.field "expression", .node (Parentheses.wrap e.explicit)) ::
      (.field side, .node (j.apply span left right)) :: above) (by omega)
    rwa [Operation.parenthesized_wrapped] at htree

/-- The left operand of a chain is a chain itself exactly if it is neither wrapped nor kept
apart. -/
theorem chainsLeft_apply (e : Operation) :
    chainsLeft (j.apply span (Operation.wrapIf (e.wrapped j "left") e.explicit) right) =
      (!e.wrapped j "left" && e.joint?.any j.chains) := by
  cases hw : e.wrapped j "left" with
  | true => rfl
  | false =>
    change (isBinaryish (.node e.explicit) && Operator.flattens (.str j.op)
      (e.explicit.get "operator")) = _
    cases hj : e.joint? with
    | none =>
      cases e with
      | name => rfl
      | join | test | cast => cases hj
    | some k =>
      obtain ⟨hkind, hop⟩ := Operation.explicit_joint hj
      rw [hop, isBinaryish, hkind]
      rcases Joint.kind_of_mem (Operation.joint?_mem hj) with h | h <;> rw [h] <;> rfl

theorem fronts_operand (hcx : cx.attached = []) {e : Operation} (he : PrintsTree cx e)
    (hchain : e.joint?.isSome = true → PrintsChain cx e) {rounds : Nat}
    (h : (Operation.wrapIf (e.wrapped j "left") e.explicit).depth ≤ fuel)
    (hrounds : (Operation.wrapIf (e.wrapped j "left") e.explicit).depth ≤ rounds) :
    ∃ front, Fronts cx (below cx fuel) rounds ⟨.node (j.apply span
        (Operation.wrapIf (e.wrapped j "left") e.explicit) right), above⟩
        (j.apply span (Operation.wrapIf (e.wrapped j "left") e.explicit) right)
        (Operation.wrapIf (e.wrapped j "left") e.explicit) front ∧
      Doc.SpellsAll .fresh front (Operation.enclosedIf (e.enclosed j "left") e.glyphs) .word := by
  cases hc : !e.wrapped j "left" && e.joint?.any j.chains with
  | true =>
    simp only [Bool.and_eq_true, Bool.not_eq_true', Option.any_eq_true] at hc
    obtain ⟨hw, k, hk, hkj⟩ := hc
    have hopen : e.enclosed j "left" = false := by
      rw [Operation.wrapped, hk, Option.any_some] at hw
      simp [Operation.enclosed, hk, Joint.encloses, hw, hkj]
    rw [hw] at h hrounds
    obtain ⟨parts, hparts, hspell⟩ := hchain (by rw [hk]; rfl) fuel rounds true
      ((.field "left", .node (j.apply span e.explicit right)) :: above) (Nat.le_succ_of_le h)
        hrounds
    refine ⟨parts, Or.inl ⟨?_, ?_⟩, ?_⟩
    · rw [chainsLeft_apply, hw, hk]
      simpa using hkj
    · rw [hw]
      exact hparts
    · rw [hopen]
      exact hspell
  | false =>
    have hoperand : Prints (below cx fuel ⟨.node (j.apply span
        (Operation.wrapIf (e.wrapped j "left") e.explicit) right), above⟩ "left") _ _ _ :=
      prints_operand hcx he "left" h
    rw [← Operation.enclosed_left hc] at hoperand
    obtain ⟨d, hd, hspell⟩ := hoperand
    refine ⟨[.group d false], Or.inr ⟨?_, d, hd, rfl⟩, ?_⟩
    · rw [chainsLeft_apply, hc]
    · have hall := Doc.SpellsAll.cons (hspell.group false) (.nil _)
      rwa [List.append_nil] at hall

/-- What is laid out as a chain is laid out as a tree. -/
theorem PrintsChain.tree (hcx : cx.attached = []) {e : Operation} {l r : Node}
    (hj : j ∈ Joint.all) (he : e.explicit = j.apply span l r) (h : PrintsChain cx e) :
    PrintsTree cx e := by
  intro fuel above hdepth
  cases fuel with
  | zero =>
    rw [he, Joint.apply, Node.depth] at hdepth
    omega
  | succ fuel =>
    obtain ⟨parts, hparts, hspell⟩ := h fuel e.explicit.depth false above hdepth (Nat.le_refl _)
    have hprints := (binaryExpression_prints hparts hspell).parens
      (b := Nesting.parenthesized ⟨.node e.explicit, above⟩)
    rw [he] at hprints ⊢
    rw [tree_apply hcx hj]
    exact hprints

theorem depth_apply (j : Joint) (span : Span) (l r : Node) :
    (j.apply span l r).depth = 1 + max l.depth r.depth := by
  simp only [Joint.apply, Node.depth, entriesDepth, Value.depth]
  omega

/-- The chain of an operation is that of its left operand, or starts with that operand's tree, and
goes on with the operator and the right operand. -/
theorem printsChain_apply (hcx : cx.attached = []) (hj : j ∈ Joint.all) {e l : Operation} {r : Node}
    {hs : List Glyph} (hl : PrintsTree cx l ∧ (l.joint?.isSome = true → PrintsChain cx l))
    (he : e.explicit = j.apply span (Operation.wrapIf (l.wrapped j "left") l.explicit) r)
    (hgs : e.glyphs = Operation.enclosedIf (l.enclosed j "left") l.glyphs ++ Glyph.of j.op :: hs)
    (hr : ∀ (fuel : Nat) (left : Node) (above : List (Step × Value)), r.depth ≤ fuel →
      Prints (tree cx fuel ⟨.node r, (.field "right", .node (j.apply span left r)) :: above⟩)
        .fresh hs .word) : PrintsChain cx e := by
  intro fuel rounds nested above hfuel hrounds
  rw [he, depth_apply] at hfuel hrounds
  obtain ⟨rounds, rfl⟩ : ∃ m, rounds = m + 1 := ⟨rounds - 1, by omega⟩
  have hfuel' : (Operation.wrapIf (l.wrapped j "left") l.explicit).depth ≤ fuel := by omega
  have hrounds' : (Operation.wrapIf (l.wrapped j "left") l.explicit).depth ≤ rounds := by omega
  obtain ⟨front, hfront, hspell⟩ := fronts_operand hcx hl.1 hl.2 hfuel' hrounds'
  rw [he, hgs]
  exact chain_apply hcx hj nested hfront hspell (hr fuel _ above (by omega))

/-- An operation is laid out as its tokens, as a tree and as a chain. -/
theorem prints_operation (hcx : cx.attached = []) (e : Operation) :
    PrintsTree cx e ∧ (e.joint?.isSome = true → PrintsChain cx e) := by
  induction e with
  | name x span =>
    refine ⟨?_, fun h => by cases h⟩
    intro fuel above hdepth
    have hplain :
        Nesting.parenthesized ⟨.node (Operation.name x span).explicit, above⟩ = false := by
      apply parenthesized_of_kind
      change "Identifier" ∉ nestingKinds
      decide
    cases fuel with
    | zero => simp [Operation.explicit, Name.node, Node.depth] at hdepth
    | succ fuel =>
      rw [hplain]
      exact (prints_name hcx x span).1
  | join j hj left right span ihl ihr =>
    have hall : j ∈ Joint.all := List.mem_cons_of_mem _ (List.mem_cons_of_mem _ hj)
    have hchain : PrintsChain cx (.join j hj left right span) := by
      refine printsChain_apply hcx hall ihl rfl rfl fun fuel l above hdepth => ?_
      rw [Operation.enclosed_right]
      exact prints_operand hcx ihr.1 "right" hdepth
    exact ⟨hchain.tree hcx hall rfl, fun _ => hchain⟩
  | test left right span ih =>
    have hchain : PrintsChain cx (.test left right span) :=
      printsChain_apply hcx List.mem_cons_self ih rfl rfl fun _ _ _ hdepth =>
        prints_dottedName hcx right hdepth
    exact ⟨hchain.tree hcx List.mem_cons_self rfl, fun _ => hchain⟩
  | cast left right span ih =>
    have hall : Joint.cast ∈ Joint.all := List.mem_cons_of_mem _ List.mem_cons_self
    have hchain : PrintsChain cx (.cast left right span) :=
      printsChain_apply hcx hall ih rfl rfl fun _ _ _ hdepth => prints_plainType hcx right hdepth
    exact ⟨hchain.tree hcx hall rfl, fun _ => hchain⟩

end Layout

end MonkeyFormat
