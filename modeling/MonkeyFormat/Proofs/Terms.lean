import MonkeyFormat.Proofs.OperatorNesting

set_option autoImplicit false

/-! # Simple expressions

Identifiers, calls of identifiers on identifiers, and identifiers with types: their nodes, the
tokens that their layout spells, and that the grammar reads these tokens as the same nodes. -/

namespace MonkeyFormat

/-- An identifier, or a call of one on identifiers. -/
inductive Term where
  | name (x : Name) (span : Span)
  | call (f : Name) (callee : Span) (args : List (Name × Span)) (span : Span)

namespace Term

/-- The node of an argument. -/
def argument (a : Name × Span) : Node := a.1.node a.2

/-- The node of a simple expression. -/
def node : Term → Node
  | .name x span => x.node span
  | .call f callee args span => ⟨"CallExpression", span, [("callee", .node (f.node callee)),
      ("arguments", .list (args.map fun a => .node (argument a)))]⟩

/-- The tokens of a simple expression. -/
def glyphs : Term → List Glyph
  | .name x _ => [x.glyph]
  | .call f _ args _ => f.glyph :: Parse.listed (args.map fun a => [a.1.glyph])

/-- A simple expression starts with an identifier. -/
theorem headD_glyphs (t : Term) (g : Glyph) : (t.glyphs.headD g).kind = .ident := by
  cases t with
  | name x span => exact x.glyph_kind
  | call f callee args span => exact f.glyph_kind

end Term

/-- An identifier with an optional type. -/
structure Typed where
  name : Name
  first : Span
  type : Option (PlainType × Span)

namespace Typed

/-- The node of an identifier with its type. -/
def node (t : Typed) : Node :=
  match t.type with
  | none => t.name.node t.first
  | some (type, span) => (Operation.cast (.name t.name t.first) type span).node

/-- The tokens of an identifier with its type. -/
def glyphs (t : Typed) : List Glyph :=
  match t.type with
  | none => [t.name.glyph]
  | some (type, _) => t.name.glyph :: Glyph.of "as" :: type.glyphs

theorem headD_glyphs (t : Typed) (g : Glyph) : (t.glyphs.headD g).kind = .ident := by
  unfold glyphs
  split <;> exact t.name.glyph_kind

end Typed

/-! ## Making parentheses explicit -/

namespace Parentheses

/-- The kinds under which an operand may get explicit parentheses. -/
def wrappingKinds : List String :=
  ["ExpressionStatement", "BinaryExpression", "ConditionalExpression", "LogicalExpression",
    "MemberExpression", "NewExpression", "CallExpression"]

theorem needed_of_parent {parent : Node} (h : parent.kind ∉ wrappingKinds) (n : Node)
    (key : Option String) : needed n parent key = false := by
  simp only [wrappingKinds, List.mem_cons, List.not_mem_nil, or_false, not_or] at h
  simp only [needed, h]
  split
  · next hfalse => exact hfalse.elim
  · split
    · next hcast => simp at hcast
    · split
      · split <;> simp_all
      · simp

theorem madeUnder_of_parent {parent : Node} (h : parent.kind ∉ wrappingKinds) (key : String)
    (n : Node) : madeUnder parent key n = made n := by
  rw [madeUnder, needed_of_parent h]
  rfl

theorem kind_term (t : Term) : t.node.kind ∈ quietKinds := by
  cases t <;> simp [Term.node, Name.node, quietKinds]

theorem made_term (t : Term) : made t.node = t.node := by
  cases t with
  | name x span => rfl
  | call f callee args span =>
    have hcallee := madeUnder_of_quiet (made_name f callee) (kind_dottedName (.name f callee))
      (Term.call f callee args span).node "callee"
    have hargs := explicitValue_nodes (Term.call f callee args span).node "arguments"
      (args.map Term.argument)
    have hmade : (args.map Term.argument).map made = args.map Term.argument := by
      rw [List.map_map]
      rfl
    rw [hmade, List.map_map] at hargs
    rw [Term.node] at hcallee hargs ⊢
    rw [made_eq rfl, childKeys_eq rfl]
    simp only [explicitFields_cons, explicitFields_nil, explicitValue_node, hcallee]
    have hcomp : (fun a => Value.node (Term.argument a)) = Value.node ∘ Term.argument := rfl
    rw [hcomp] at hargs ⊢
    rw [hargs]
    rfl

theorem made_typed (t : Typed) : made t.node = t.node := by
  obtain ⟨x, first, _ | ⟨type, span⟩⟩ := t
  · rfl
  · exact made_operation (.cast (.name x first) type span)

end Parentheses

/-! ## Reading -/

namespace Parse

variable {fuel fuel' : Nat} {next : Glyph → Prop}

theorem reads_name (x : Name) :
    Reads (expression (fuel + 2)) [x.glyph] (fun g => g ∈ closers) (x.node {}) := by
  have hread := ReadsAs.expression (readsOperation (.name x {}))
    (Nat.succ_le_succ (Nat.zero_le fuel))
  exact hread.weaken follows_of_closer fun _ hn => hn

theorem unspanned_call (f : Name) (callee : Span) (args : List (Name × Span)) (span : Span) :
    (Term.call f callee args span).node.unspanned = .bare "CallExpression"
      [("callee", .node (f.node {})), ("arguments", nodes (args.map fun a => a.1.node {}))] := by
  have hargs : itemsUnspanned (args.map fun a => .node (Term.argument a)) =
      (args.map fun a => a.1.node {}).map Value.node := by
    induction args with
    | nil => rfl
    | cons a args ih =>
      rw [List.map_cons, itemsUnspanned, ih]
      rfl
  simp only [Term.node, Node.unspanned, fieldsUnspanned, Value.unspanned, hargs]
  rfl

theorem intercalate_cons (g : Glyph) (gs : List Glyph) (gss : List (List Glyph)) :
    [g].intercalate (gs :: gss) = gs ++ gss.flatMap fun hs => g :: hs := by
  induction gss generalizing gs with
  | nil => simp
  | cons hs gss ih => rw [List.intercalate_cons_cons, ih, List.flatMap_cons, List.append_assoc]; rfl

theorem length_intercalate (gss : List (List Glyph)) (g : Glyph) :
    gss.length ≤ ([g].intercalate gss).length + 1 := by
  induction gss with
  | nil => simp
  | cons gs gss ih =>
    cases gss with
    | nil => simp
    | cons hs hss =>
      rw [List.intercalate_cons_cons, List.length_append, List.length_append, List.length_cons]
      simp only [List.length_singleton]
      omega

theorem length_le_of_mem_intercalate {gs : List Glyph} {gss : List (List Glyph)} (g : Glyph)
    (h : gs ∈ gss) : gs.length ≤ ([g].intercalate gss).length := by
  induction gss with
  | nil => cases h
  | cons hs gss ih =>
    cases gss with
    | nil => simp_all
    | cons hs' gss =>
      rw [List.intercalate_cons_cons, List.length_append, List.length_append]
      rcases List.mem_cons.1 h with rfl | h
      · omega
      · have := ih h
        omega

theorem length_listed (gss : List (List Glyph)) : gss.length + 1 ≤ (listed gss).length := by
  have hlength := length_intercalate gss (Glyph.of ",")
  rw [listed, List.length_cons, List.length_append, List.length_singleton]
  omega

theorem length_of_mem_listed {gs : List Glyph} {gss : List (List Glyph)} (h : gs ∈ gss) :
    gs.length < (listed gss).length := by
  have hle := length_le_of_mem_intercalate (Glyph.of ",") h
  rw [listed, List.length_cons, List.length_append]
  omega

/-- The values of a list of nodes without spans. -/
theorem unspanned_nodes (ns : List Node) :
    (nodes ns).unspanned = nodes (ns.map Node.unspanned) := by
  have hitems : itemsUnspanned (ns.map .node) = (ns.map Node.unspanned).map .node := by
    induction ns with
    | nil => rfl
    | cons n ns ih =>
      rw [List.map_cons, itemsUnspanned, ih]
      rfl
  simp only [nodes, Value.unspanned, hitems]

theorem takes_postfixStep_call {args : List (Name × Span)} {f : Name} {n : Node}
    (hn : n.unspanned = f.node {}) (hfuel : args.length < fuel) (callee span : Span) :
    Takes (postfixStep fuel (expression (fuel' + 2)) n)
      (listed (args.map fun a => [a.1.glyph])) next
      fun r => r.2 = true ∧ r.1.unspanned = (Term.call f callee args span).node.unspanned := by
  refine Takes.peek fun t ht => ?_
  rw [show t.kind = .leftParen from congrArg Glyph.kind ht]
  have hargs : Takes (arguments fuel (expression (fuel' + 2)))
      (listed (args.map fun a => [a.1.glyph])) next
      fun ns => ns.map Node.unspanned = args.map fun a => a.1.node {} := by
    refine takes_listed (fun a _ => reads_name a.1) (fun a _ g => ?_) (by decide) (by decide) hfuel
    change a.1.glyph.kind ≠ .rightParen
    rw [a.1.glyph_kind]
    decide
  refine hargs.last (fun ns hns => ?_) fun _ hg => hg
  refine (takes_finish _ _ _).ahead fun m hm => Takes.pure ⟨rfl, ?_⟩
  rw [hm, unspanned_call]
  simp only [fieldsUnspanned, unspanned_nodes, hns, Value.unspanned, hn]

/-- The grammar reads the tokens of a simple expression as that expression. -/
theorem reads_term (t : Term) (hlen : t.glyphs.length ≤ fuel) :
    Reads (expression (fuel + 1)) t.glyphs (fun g => g ∈ closers) t.node.unspanned := by
  cases t with
  | name x span =>
    obtain ⟨fuel, rfl⟩ : ∃ m, fuel = m + 1 := ⟨fuel - 1, by simp [Term.glyphs] at hlen; omega⟩
    exact reads_name x
  | call f callee args span =>
    have hlength := length_listed (args.map fun a => [a.1.glyph])
    rw [List.length_map] at hlength
    have hlen' := hlen
    rw [Term.glyphs, List.length_cons] at hlen'
    obtain ⟨fuel, rfl⟩ : ∃ m, fuel = m + 2 := ⟨fuel - 2, by omega⟩
    have hargs : args.length < fuel + 3 := by omega
    have hpostfixed : Reads (postfixed (fuel + 3) (expression (fuel + 2)))
        (Term.call f callee args span).glyphs (Follows 102)
        (Term.call f callee args span).node.unspanned := by
      rw [postfixed_eq]
      have hname : Loops (primary (fuel + 3) (expression (fuel + 2)) >>=
          loop (postfixStep (fuel + 3) (expression (fuel + 2))) (fuel + 3)) [f.glyph]
          (fun _ => True) _ (1 + 1) _ := (reads_primary_name f).loops (by omega)
      have hcall : Loops _ ([f.glyph] ++ listed (args.map fun a => [a.1.glyph])) (Follows 102)
          (postfixStep (fuel + 3) (expression (fuel + 2))) 1
          fun n => n.unspanned = (Term.call f callee args span).node.unspanned :=
        hname.round (fun n hn => takes_postfixStep_call hn hargs callee span) fun _ _ => trivial
      refine hcall.done (fun n hn => ?_) fun g hg => hg
      refine (takes_postfixStep_none (fun g hg => not_extends_of_follower hg.1) n).weaken
        (fun _ hg => hg) ?_
      rintro r ⟨hr, rfl⟩
      exact ⟨hr, hn⟩
    have hunary := reads_unary hpostfixed fun _ => by
      change prefixKinds.contains f.glyph.kind = false
      rw [f.glyph_kind]
      decide
    have hpos : 0 < (Term.call f callee args span).glyphs.length := Nat.succ_pos _
    have hread := (readsUpTo_of_unary hpos hlen hunary .disjunction).expression
      (Int.le_refl _) hlen
    exact hread.weaken follows_of_closer fun _ hn => hn

/-- May the token follow an identifier with its type? -/
def EndsTyped (g : Glyph) : Prop := g.kind ≠ .asWord ∧ EndsType g

/-- The grammar reads the tokens of an identifier with its type as that. -/
theorem reads_typed (t : Typed) (hlen : t.glyphs.length ≤ fuel + 1) :
    Reads (typedIdentifier (types (fuel + 1))) t.glyphs EndsTyped t.node.unspanned := by
  obtain ⟨x, first, _ | ⟨type, span⟩⟩ := t
  · refine (reads_identifier x).last (fun n hn => ?_) fun _ hg => hg
    refine (takes_skip_none .asWord).look ?_ fun g hg => hg.1
    rintro _ rfl
    exact Takes.pure hn
  · have hname : Reads identifier [x.glyph] (fun _ => True) _ := reads_identifier x
    have has : Takes (skip .asWord) [Glyph.of "as"] (fun _ => True) _ := takes_skip rfl (by decide)
    have htype : type.glyphs.length ≤ fuel := by
      simp only [Typed.glyphs, List.length_cons] at hlen
      omega
    refine hname.bind (fun n hn => ?_) fun _ _ => trivial
    refine has.bind ?_ fun _ _ => trivial
    rintro _ rfl
    refine (reads_types type htype).last (fun ts hts => ?_) fun g hg => hg.2
    refine (takes_finish _ _ _).weaken (fun _ hg => hg) fun m hm => ?_
    rw [hm]
    simp only [fieldsUnspanned, Value.unspanned, hn, hts]
    rfl

end Parse

/-! ## Laying out -/

/-- The kinds under which an operand may be put in parentheses. -/
def Nesting.operatorKinds : List String :=
  ["UnaryExpression", "UpdateExpression", "BinaryExpression", "LogicalExpression",
    "MemberExpression", "CallExpression", "NewExpression"]

/-- The nearest node above a place is none under which operands are put in parentheses. -/
def Nesting.Open (above : List (Step × Value)) : Prop :=
  ∃ parent, Cursor.parent ⟨.null, above⟩ = some parent ∧ parent.kind ∉ Nesting.operatorKinds

theorem Nesting.parenthesized_of_open {n : Node} {above : List (Step × Value)}
    (hn : n.kind = "BinaryExpression" ∨ n.kind = "CallExpression") (h : Nesting.Open above) :
    Nesting.parenthesized ⟨.node n, above⟩ = false := by
  obtain ⟨parent, hparent, hkind⟩ := h
  simp only [Nesting.operatorKinds, List.mem_cons, List.not_mem_nil, or_false, not_or] at hkind
  change Cursor.parent ⟨.node n, above⟩ = some parent at hparent
  unfold Nesting.parenthesized
  rw [hparent]
  have hneeded (key : Option String) : Nesting.needed n parent key = false := by
    unfold Nesting.needed
    rcases hn with hn | hn <;> rw [hn] <;> simp [hkind, Nesting.isHead]
  have hobject : n.kind ≠ "ObjectExpression" := by
    rcases hn with hn | hn <;> rw [hn] <;> decide
  simp [hobject, hneeded]

namespace Layout

variable {cx : Context} {fuel : Nat} {above : List (Step × Value)}

/-- Names in parentheses, with commas between them. -/
theorem callArguments_prints (hcx : cx.attached = []) {n : Node} {args : List (Name × Span)}
    (hargs : n.get "arguments" = .list (args.map fun a => .node (Term.argument a))) :
    Prints (callArguments cx (below cx (fuel + 1)) ⟨.node n, above⟩ n) .word
      (Parse.listed (args.map fun a => [a.1.glyph])) .fresh := by
  have heach : ∃ ds, eachOf (below cx (fuel + 1)) ⟨.node n, above⟩ "arguments" = pure ds ∧
      SpellEach .fresh (fun a => [a.1.glyph]) .word args ds :=
    eachOf_prints hargs fun a _ i => (prints_name hcx a.1 a.2).1
  obtain ⟨ds, hds, hspell⟩ := heach
  have hown : own cx ⟨.node n, above⟩ = [] := by simp [own, hcx]
  have henclosed : Doc.Spells .word (enclosed "(" (Doc.join commaLine ds) ")")
      (Parse.listed (args.map fun a => [a.1.glyph])) .fresh :=
    spells_enclosed (.text [Glyph.of "("] .fresh rfl rfl) hspell.commas
      (.text [Glyph.of ")"] .fresh rfl rfl)
  unfold callArguments
  rw [hargs, hown, hds]
  cases hspell with
  | nil => exact .pure (.text [Glyph.of "(", Glyph.of ")"] .fresh rfl rfl)
  | cons hd hrest =>
    cases hrest with
    | nil => exact .pure henclosed
    | cons he hrest => exact .pure henclosed

theorem prints_term (hcx : cx.attached = []) (t : Term) (habove : Nesting.Open above)
    (h : t.node.depth ≤ fuel) :
    Prints (tree cx fuel ⟨.node t.node, above⟩) .fresh t.glyphs .word := by
  cases t with
  | name x span =>
    cases fuel with
    | zero => simp [Term.node, Name.node, Node.depth] at h
    | succ fuel => exact (prints_name hcx x span).1
  | call f callee args span =>
    simp only [Term.node, Node.depth, entriesDepth, Value.depth, Name.node] at h
    obtain ⟨fuel, rfl⟩ : ∃ m, fuel = m + 2 := ⟨fuel - 2, by omega⟩
    have hparens := Nesting.parenthesized_of_open (n := (Term.call f callee args span).node)
      (.inr rfl) habove
    rw [Term.node] at hparens ⊢
    rw [tree_generic hcx (fuel + 1) "CallExpression" "call_expression" (snake_of_mem (by decide))
      (fun _ _ _ _ => rfl), hparens]
    simp only [Bool.false_eq_true, if_false, bind_pure]
    have hcallee : Prints (below cx (fuel + 1) ⟨.node (Term.call f callee args span).node, above⟩
      "callee") .fresh [f.glyph] .word := (prints_name hcx f callee).1
    refine hcallee.bind fun d hd => ?_
    refine (callArguments_prints hcx rfl).bind fun e he => ?_
    rw [Term.glyphs, ← List.singleton_append, ← List.append_nil (Parse.listed _)]
    exact .pure (.ofFresh (.list (.cons hd (.cons he (.nil _)))) _)

theorem prints_typed (hcx : cx.attached = []) (t : Typed) (habove : Nesting.Open above)
    (h : t.node.depth ≤ fuel) :
    Prints (tree cx fuel ⟨.node t.node, above⟩) .fresh t.glyphs .word := by
  obtain ⟨x, first, _ | ⟨type, span⟩⟩ := t
  · cases fuel with
    | zero => simp [Typed.node, Name.node, Node.depth] at h
    | succ fuel => exact (prints_name hcx x first).1
  · have hparens := Nesting.parenthesized_of_open
      (n := (Operation.cast (.name x first) type span).explicit) (.inl rfl) habove
    have hcast := (prints_operation hcx (.cast (.name x first) type span)).1 fuel above h
    rw [hparens] at hcast
    exact hcast

end Layout

end MonkeyFormat
