import MonkeyFormat.Proofs.DeclarationSyntax
import MonkeyFormat.Proofs.StatementPrinting

set_option autoImplicit false

/-! # Laying out declarations

Without comments, the layout of a declaration, of an import and of a whole source spells its tokens,
with the access words of each declaration in order. -/

namespace MonkeyFormat

open Parse (nodes listed)

namespace Layout

variable {cx : Context} {fuel : Nat} {above : List (Step × Value)}

/-! ## Attributes -/

theorem spells_accessWord :
    ∀ w ∈ accessTexts, Doc.Spells .fresh (.bare w) [Glyph.of w] .word := by
  simp only [accessTexts, List.forall_mem_cons]
  exact ⟨.text _ _ rfl rfl, .text _ _ rfl rfl, .text _ _ rfl rfl, .text _ _ rfl rfl,
    .text _ _ rfl rfl, by simp⟩

/-- Words with a blank behind each. -/
theorem spells_words {ws : List String} (h : ∀ w ∈ ws, w ∈ accessTexts) :
    Doc.Spells .fresh (.bare (" ".intercalate ws ++ " ")) (ws.map Glyph.of) .fresh := by
  have hblank (s : Doc.Edge) : Doc.Spells s (.bare " ") [] .fresh := .text [] .fresh rfl rfl
  induction ws with
  | nil => exact hblank _
  | cons w ws ih =>
    rw [List.forall_mem_cons] at h
    have hword := (spells_accessWord w h.1).concat (hblank .word)
    cases ws with
    | nil =>
      rw [String.intercalate_singleton]
      exact hword
    | cons w' ws =>
      rw [String.intercalate_cons_cons, String.append_assoc]
      exact hword.concat (ih h.2)

theorem wordsOf_texts (ws : List String) : wordsOf (.list (ws.map .str)) = .ok ws := by
  induction ws with
  | nil => rfl
  | cons w ws ih =>
    rw [wordsOf] at ih
    rw [List.map_cons, wordsOf, List.mapM_cons, ih]
    rfl

/-- Access words are laid out in order. -/
theorem accessText_prints (ws : List AccessWord) :
    ∃ text, accessText (Attrs.access (ws.map AccessWord.text)) = .ok text ∧
      Doc.Spells .fresh (.bare text) (Attrs.wordGlyphs ws) .fresh := by
  cases ws with
  | nil =>
    have hnone : Attrs.wordGlyphs [] = [] := by simp [Attrs.wordGlyphs, Rewriting.sortWords]
    rw [hnone]
    exact ⟨"", rfl, .text [] .fresh rfl rfl⟩
  | cons w ws =>
    have hwords : ∀ v ∈ Rewriting.sortWords ((w :: ws).map AccessWord.text), v ∈ accessTexts :=
      fun v hv => AccessWord.isAccess_of_mem_sorted hv
    refine ⟨_, ?_, spells_words hwords⟩
    change (wordsOf (.list (((w :: ws).map AccessWord.text).map .str)) >>= fun words => _) = _
    rw [wordsOf_texts]
    rfl

/-- An operator that is no sign gets no parentheses. -/
theorem parenthesized_unary {n : Node} (hkind : n.kind = "UnaryExpression") {op : String}
    (hop : n.get "operator" = .str op) (hsign : op ∉ ["!", "~", "-", "+"]) :
    Nesting.parenthesized ⟨.node n, above⟩ = false := by
  have hneeded (parent : Node) (key : Option String) : Nesting.needed n parent key = false := by
    simp only [List.mem_cons, List.not_mem_nil, or_false, not_or] at hsign
    unfold Nesting.needed
    simp [hkind, hop, Nesting.isSign, Value.isStr, hsign]
  unfold Nesting.parenthesized
  split
  · next m parent hfocus _ =>
    cases hfocus
    simp [hkind, hneeded]
  · rfl

/-- What an operator before its operand is laid out as. -/
theorem tree_unary (hcx : cx.attached = []) (op : String) (argument : Value) (span : Span)
    (hsign : op ∉ ["!", "~", "-", "+"]) (fields : Fields) :
    tree cx (fuel + 1) ⟨.node ⟨"UnaryExpression", span, ("operator", .str op) ::
      ("argument", argument) :: fields⟩, above⟩ =
      below cx fuel ⟨.node ⟨"UnaryExpression", span, ("operator", .str op) ::
        ("argument", argument) :: fields⟩, above⟩ "argument" >>= fun d =>
          pure (.list [.bare op, .bare (if Literal.endsWith Text.isLetter op then " " else ""), d])
      := by
  rw [tree_generic hcx fuel "UnaryExpression" "unary_expression" (snake_of_mem (by decide))
    (fun _ _ _ _ => rfl), parenthesized_unary rfl rfl hsign]
  simp only [Bool.false_eq_true, if_false, bind_pure]
  rfl

theorem prints_ident (hcx : cx.attached = []) (x : Name) (span : Span)
    (h : (x.node span).depth ≤ fuel) :
    Prints (tree cx fuel ⟨.node (x.node span), above⟩) .fresh [x.glyph] .word := by
  obtain ⟨fuel, rfl⟩ := exists_fuel h
  exact (prints_name hcx x span).1

theorem prints_symbol (hcx : cx.attached = []) (s : Symbol) (h : s.node.depth ≤ fuel) :
    Prints (tree cx fuel ⟨.node s.node, above⟩) .fresh s.glyphs .word := by
  obtain ⟨fuel, rfl⟩ := exists_fuel h
  rw [Symbol.node, tree_unary hcx ":" _ _ (by decide)]
  refine Prints.bind (below_prints rfl h fun hd => prints_ident hcx s.name s.inner hd)
    fun d hd => ?_
  exact .pure (.list (.cons (.text [Glyph.of ":"] .fresh rfl rfl)
    (.cons (.text [] .fresh rfl rfl) (.one hd))))

/-- Documents for the nodes of a field. -/
theorem nodes_prints {α : Type} {node : α → Node} {glyphs : α → List Glyph} {xs : List α} {n : Node}
    {name : String} {s t : Doc.Edge} (hget : n.get name = nodes (xs.map node))
    (h : n.depth ≤ fuel + 1)
    (hprints : ∀ x ∈ xs, ∀ i, (node x).depth ≤ fuel → Prints (tree cx fuel ⟨.node (node x),
      (.index i, nodes (xs.map node)) :: (.field name, .node n) :: above⟩) s (glyphs x) t) :
    ∃ ds, eachOf (below cx fuel) ⟨.node n, above⟩ name = pure ds ∧ SpellEach s glyphs t xs ds := by
  have hfield : n.get name = .list (xs.map fun x => .node (node x)) := by
    rw [hget, nodes, List.map_map]
    rfl
  refine eachOf_prints hfield fun x hx i => ?_
  rw [hget]
  exact hprints x hx i (Nat.le_of_lt_succ (Nat.lt_of_lt_of_le (depth_element hfield hx) h))

theorem prints_attributes (hcx : cx.attached = []) (ss : List Symbol) (span : Span)
    (h : (⟨"Attributes", span, [("elements", nodes (ss.map Symbol.node))]⟩ : Node).depth ≤ fuel) :
    Prints (tree cx fuel ⟨.node ⟨"Attributes", span, [("elements", nodes (ss.map Symbol.node))]⟩,
      above⟩) .fresh (listed (ss.map Symbol.glyphs)) .fresh := by
  obtain ⟨fuel, rfl⟩ := exists_fuel h
  obtain ⟨ds, hds, hspell⟩ : ∃ ds, eachOf (below cx fuel) ⟨.node ⟨"Attributes", span,
      [("elements", nodes (ss.map Symbol.node))]⟩, above⟩ "elements" = pure ds ∧
      SpellEach .fresh Symbol.glyphs .word ss ds :=
    nodes_prints rfl h fun s _ _ hd => prints_symbol hcx s hd
  rw [tree_node hcx fuel "Attributes" "attributes" (snake_of_mem (by decide))]
  change Prints (eachOf (below cx fuel) _ "elements" >>= fun ds =>
    pure (enclosed "(" (.group (Doc.join commaLine ds) false) ")")) _ _ _
  rw [hds]
  exact .pure (spells_enclosed (.text [Glyph.of "("] .fresh rfl rfl) (.group hspell.commas false)
    (.text [Glyph.of ")"] .fresh rfl rfl))

/-- What stands before a declaration is laid out with its access words in order. -/
theorem prints_attrs (hcx : cx.attached = []) (a : Attrs) {m : Node} (hm : a.node? .blocks = some m)
    (h : m.depth ≤ fuel) : Prints (tree cx fuel ⟨.node m, above⟩) .fresh a.glyphs .fresh := by
  obtain ⟨fuel, rfl⟩ := exists_fuel h
  cases a with
  | none => cases hm
  | words w ws span =>
    cases hm
    obtain ⟨text, htext, hspell⟩ := accessText_prints (w :: ws)
    rw [tree_node hcx fuel "AttributeList" "attribute_list" (snake_of_mem (by decide))]
    change Prints
      (liftM (accessText (Attrs.access ((w :: ws).map AccessWord.text))) >>= fun access =>
      pure (.bare access)) _ _ _
    rw [htext]
    exact .pure hspell
  | symbols ss inner ws span =>
    cases hm
    obtain ⟨text, htext, hspell⟩ := accessText_prints ws
    have hattributes {n : Node} (hn : n.get "attributes" = .node ⟨"Attributes", inner,
        [("elements", nodes (ss.map Symbol.node))]⟩) (hd : n.depth ≤ fuel + 1) :
        Prints (below cx fuel ⟨.node n, above⟩ "attributes") .fresh (listed (ss.map Symbol.glyphs))
          .fresh := below_prints hn hd fun he => prints_attributes hcx ss inner he
    rw [tree_node hcx fuel "AttributeList" "attribute_list" (snake_of_mem (by decide))]
    change Prints (liftM (accessText (Attrs.access (ws.map AccessWord.text))) >>= fun access =>
      below cx fuel _ "attributes" >>= fun d => pure (.list [d, .hardline, .bare access])) _ _ _
    rw [htext]
    refine (hattributes rfl h).bind fun d hd => .pure (.list (.cons hd ?_))
    rw [← List.nil_append (Attrs.wordGlyphs ws)]
    exact .cons (.hardline _) (.one hspell)

/-- A declaration behind what stands before it. -/
theorem withAttrs_prints (hcx : cx.attached = []) (a : Attrs) {n : Node} {body : Doc}
    {gs : List Glyph} {t : Doc.Edge} (hget : n.get "attrs" = Parse.optional (a.node? .blocks))
    (h : n.depth ≤ fuel + 1) (hbody : Doc.Spells .fresh body gs t) :
    Prints (withAttrs (below cx fuel) ⟨.node n, above⟩ n body) .fresh (a.glyphs ++ gs) t := by
  cases hm : a.node? .blocks with
  | none =>
    rw [hm] at hget
    cases a with
    | none =>
      rw [withAttrs, hget]
      exact .pure hbody
    | words w ws span => cases hm
    | symbols ss inner ws span => cases hm
  | some m =>
    rw [hm] at hget
    have hchild : Prints (below cx fuel ⟨.node n, above⟩ "attrs") .fresh a.glyphs .fresh :=
      below_prints hget h fun hd => prints_attrs hcx a hm hd
    rw [withAttrs, hget]
    exact hchild.bind fun d hd => .pure (.list (.cons hd (.one hbody)))

/-! ## Parts of declarations -/

/-- A type behind `as`, behind a word or a closing parenthesis. -/
theorem prints_resultType (hcx : cx.attached = []) (t : ResultType) (h : t.node.depth ≤ fuel) :
    Prints (tree cx fuel ⟨.node t.node, above⟩) .word t.glyphs .word := by
  obtain ⟨fuel, rfl⟩ := exists_fuel h
  rw [ResultType.node, tree_unary hcx " as" _ _ (by decide)]
  refine Prints.bind (below_prints rfl h fun hd => prints_plainType hcx t.type hd) fun d hd => ?_
  exact .pure (.list (.cons (.text [Glyph.of "as"] .word rfl rfl)
    (.cons (.text [] .fresh rfl rfl) (.one hd))))

theorem prints_enumMember (hcx : cx.attached = []) (m : EnumMember) (h : m.node.depth ≤ fuel) :
    Prints (tree cx fuel ⟨.node m.node, above⟩) .fresh m.glyphs .word := by
  obtain ⟨x, first, _ | ⟨t, span⟩⟩ := m
  · exact prints_ident hcx x first h
  · obtain ⟨fuel, rfl⟩ := exists_fuel h
    rw [EnumMember.node, tree_generic_plain hcx fuel "EnumStringMember" "enum_string_member"
      (snake_of_mem (by decide)) (fun _ _ _ _ => rfl) (by decide)]
    refine Prints.bind (below_prints rfl h fun hd => prints_ident hcx x first hd) fun d hd => ?_
    refine Prints.bind (below_prints rfl h fun hd => prints_term hcx t
      ⟨_, rfl, (by decide : "EnumStringMember" ∉ Nesting.operatorKinds)⟩ hd) fun e he => ?_
    exact .pure (spells_assignment hd he)

/-- The members of an enumeration in braces. -/
theorem prints_enumBody (hcx : cx.attached = []) (ms : List EnumMember) (span : Span)
    (h : (⟨"EnumStringBody", span, [("members", nodes (ms.map EnumMember.node))]⟩ : Node).depth ≤
      fuel) :
    Prints (tree cx fuel ⟨.node ⟨"EnumStringBody", span,
      [("members", nodes (ms.map EnumMember.node))]⟩, above⟩) .fresh
      (bracedGlyphs ([Glyph.of ","].intercalate (ms.map EnumMember.glyphs))) .fresh := by
  obtain ⟨fuel, rfl⟩ := exists_fuel h
  obtain ⟨ds, hds, hspell⟩ : ∃ ds, eachOf (below cx fuel) ⟨.node ⟨"EnumStringBody", span,
      [("members", nodes (ms.map EnumMember.node))]⟩, above⟩ "members" = pure ds ∧
      SpellEach .fresh EnumMember.glyphs .word ms ds :=
    nodes_prints rfl h fun m _ _ hd => prints_enumMember hcx m hd
  have hown : own cx ⟨.node ⟨"EnumStringBody", span,
      [("members", nodes (ms.map EnumMember.node))]⟩, above⟩ = [] := by simp [own, hcx]
  rw [tree_generic_plain hcx fuel "EnumStringBody" "enum_string_body" (snake_of_mem (by decide))
    (fun _ _ _ _ => rfl) (by decide)]
  change Prints (enumBody cx _ _ _) _ _ _
  unfold enumBody
  rw [hds, hown]
  cases hspell with
  | nil => exact .pure (.text [Glyph.of "\x7b", Glyph.of "\x7d"] .fresh rfl rfl)
  | cons hd hrest =>
    have hcomma : Doc.Spells .word (.list [.bare ",", .hardline]) [Glyph.of ","] .fresh :=
      .list (.cons (.text [Glyph.of ","] .fresh rfl rfl) (.cons (.hardline _) (.nil _)))
    have hjoin := SpellEach.join hcomma (.cons hd hrest)
    refine .pure (.list (.cons (.text [Glyph.of "\x7b"] .fresh rfl rfl) ?_))
    have hlines : Doc.Spells .fresh (.indent (.list [.hardline, Doc.join (.list [.bare ",",
        .hardline]) _])) _ .word := .indent (.list (.cons (.hardline _) (.one hjoin)))
    exact .cons hlines (.cons (.hardline _) (.one (.text [Glyph.of "\x7d"] .fresh rfl rfl)))

/-- Parameters in parentheses. -/
theorem parameters_prints (hcx : cx.attached = []) (ps : List Typed) {n : Node}
    (hget : n.get "params" = nodes (ps.map Typed.node)) (hkind : n.kind ∉ Nesting.operatorKinds)
    (h : n.depth ≤ fuel + 1) :
    Prints (parameters (below cx fuel) ⟨.node n, above⟩ n) .word (listed (ps.map Typed.glyphs))
      .fresh := by
  obtain ⟨ds, hds, hspell⟩ : ∃ ds, eachOf (below cx fuel) ⟨.node n, above⟩ "params" = pure ds ∧
      SpellEach .fresh Typed.glyphs .word ps ds :=
    nodes_prints hget h fun p _ _ hd => prints_typed hcx p ⟨n, rfl, hkind⟩ hd
  unfold parameters
  rw [hds, hget]
  cases hspell with
  | nil => exact .pure (.text [Glyph.of "(", Glyph.of ")"] .fresh rfl rfl)
  | cons hd hrest => exact .pure (spells_enclosed (.text [Glyph.of "("] .fresh rfl rfl)
      (SpellEach.commas (.cons hd hrest)) (.text [Glyph.of ")"] .fresh rfl rfl))

/-- The type of a function's result, if it has one. -/
theorem resultType_prints (hcx : cx.attached = []) (t : Option ResultType) {n : Node}
    (hget : n.get "returnType" = Parse.optional (t.map ResultType.node)) (h : n.depth ≤ fuel + 2) :
    Prints (below cx (fuel + 1) ⟨.node n, above⟩ "returnType") .fresh
      ((t.map ResultType.glyphs).getD []) .word := by
  cases t with
  | none =>
    rw [below_null hget]
    exact .pure (Doc.Spells.ofFresh (.text [] .fresh rfl rfl) .word)
  | some t =>
    obtain ⟨d, hrun, hd⟩ := below_prints hget h fun hd => prints_resultType hcx t hd
    exact ⟨d, hrun, hd.fromFresh⟩

/-! ## Declarations -/

/-- The declaration's layout spells its tokens, wherever it may stand. -/
def PrintsDecl (cx : Context) (d : Decl) : Prop :=
  ∀ (fuel : Nat) (above : List (Step × Value)), OutOfHeader above →
    (d.node .none).Edged (0 ≤ ·) → (d.node .blocks).depth ≤ fuel →
    Prints (tree cx fuel ⟨.node (d.node .blocks), above⟩) .fresh d.glyphs .fresh

theorem prints_variables (hcx : cx.attached = []) (attrs : Attrs) (isConst : Bool) (v : Variables) :
    PrintsDecl cx (.declares attrs isConst v) := by
  intro fuel above hheader _ h
  obtain ⟨fuel, rfl⟩ := exists_fuel h
  have hout : (Cursor.parent ⟨.node (v.node (keyword isConst) (attrs.node? .blocks)), above⟩).any
      (fun p => p.kind = "ForStatement" && Cursor.key ⟨.node (v.node (keyword isConst)
        (attrs.node? .blocks)), above⟩ == some "init") = false := by
    rw [beq_eq_false_iff_ne.2 (show Cursor.key ⟨.node (v.node (keyword isConst)
      (attrs.node? .blocks)), above⟩ ≠ _ from hheader)]
    simp
  rw [Decl.node, tree_variables hcx]
  refine (variableDeclaration_prints hcx v isConst _ false rfl hout h).bind fun d hd => ?_
  exact withAttrs_prints hcx attrs rfl h hd

/-- A type definition behind its attributes, with whatever its type is laid out as. -/
theorem typedef_prints (hcx : cx.attached = []) (attrs : Attrs) (name : Name) (nameSpan : Span)
    {n : Node} {gs : List Glyph} {t : Doc.Edge} (hkind : n.kind = "TypedefDeclaration")
    (hattrs : n.get "attrs" = Parse.optional (attrs.node? .blocks))
    (hname : n.get "id" = .node (name.node nameSpan))
    (htype : Prints (below cx fuel ⟨.node n, above⟩ "ts") .word gs t)
    (hsemicolon : Doc.Spells t (.bare ";") [Glyph.of ";"] .fresh) (h : n.depth ≤ fuel + 1) :
    Prints (tree cx (fuel + 1) ⟨.node n, above⟩) .fresh
      (attrs.glyphs ++ Glyph.of "typedef" :: name.glyph :: (gs ++ [Glyph.of ";"])) .fresh := by
  obtain ⟨kind, span, fields⟩ := n
  obtain rfl : kind = "TypedefDeclaration" := hkind
  rw [tree_node hcx fuel "TypedefDeclaration" "typedef_declaration" (snake_of_mem (by decide))]
  refine Prints.bind (below_prints hname h fun hd => prints_ident hcx name nameSpan hd)
    fun d hd => ?_
  refine htype.bind fun e he => ?_
  refine withAttrs_prints hcx attrs hattrs h ?_
  have hword : Doc.Spells .fresh (.group (.list [.bare "typedef", .indent .space, d]) false)
      [Glyph.of "typedef", name.glyph] .word :=
    .group (.list (.cons (.text [Glyph.of "typedef"] .word rfl rfl)
      (.cons (.indent (.space _)) (.one hd)))) false
  exact .list (.cons hword (.cons he (.one hsemicolon)))

theorem prints_typedef (hcx : cx.attached = []) (attrs : Attrs) (name : Name) (nameSpan : Span)
    (type : ResultType) (span : Span) :
    PrintsDecl cx (.typeDef attrs name nameSpan type span) := by
  intro fuel above _ _ h
  obtain ⟨fuel, rfl⟩ := exists_fuel h
  exact typedef_prints hcx attrs name nameSpan rfl rfl rfl
    (below_prints rfl h fun hd => prints_resultType hcx type hd)
    (.text [Glyph.of ";"] .fresh rfl rfl) h

theorem prints_enum (hcx : cx.attached = []) (attrs : Attrs) (name : Option (Name × Span))
    (members : List EnumMember) (inner span : Span) :
    PrintsDecl cx (.enumDef attrs name members inner span) := by
  intro fuel above _ _ h
  obtain ⟨fuel, rfl⟩ := exists_fuel h
  have hbody {n : Node} (hn : n.get "body" = .node ⟨"EnumStringBody", inner,
      [("members", nodes (members.map EnumMember.node))]⟩) (hd : n.depth ≤ fuel + 1) :
      Prints (below cx fuel ⟨.node n, above⟩ "body") .fresh
        (bracedGlyphs ([Glyph.of ","].intercalate (members.map EnumMember.glyphs))) .fresh :=
    below_prints hn hd fun he => prints_enumBody hcx members inner he
  rw [Decl.node, tree_node hcx fuel "EnumDeclaration" "enum_declaration" (snake_of_mem (by decide))]
  -- the head is the word alone or with a name behind it
  have hrest {n : Node} {head : Doc} {gs : List Glyph}
      (hattrs : n.get "attrs" = Parse.optional (attrs.node? .blocks))
      (hn : n.get "body" = .node ⟨"EnumStringBody", inner,
        [("members", nodes (members.map EnumMember.node))]⟩) (hd : n.depth ≤ fuel + 1)
      (hhead : Doc.Spells .fresh head gs .word) :
      Prints (withAttrs (below cx fuel) ⟨.node n, above⟩ n head >>= fun head =>
        below cx fuel ⟨.node n, above⟩ "body" >>= fun body =>
          pure (.list [head, .bare " ", body])) .fresh (attrs.glyphs ++ (gs ++
            bracedGlyphs ([Glyph.of ","].intercalate (members.map EnumMember.glyphs)))) .fresh := by
    refine (withAttrs_prints hcx attrs hattrs hd hhead).bind fun d hd' => ?_
    refine (hbody hn hd).bind fun e he => ?_
    rw [← List.append_assoc]
    exact .pure (.list (.cons hd' (.cons (.text [] .fresh rfl rfl) (.one he))))
  cases name with
  | none => exact hrest rfl rfl h (.list (.one (.text [Glyph.of "enum"] .word rfl rfl)))
  | some x =>
    refine Prints.bind (below_prints rfl h fun hd => prints_ident hcx x.1 x.2 hd) fun d hd => ?_
    exact hrest rfl rfl h (.list (.cons (.text [Glyph.of "enum"] .word rfl rfl)
      (.cons (.text [] .fresh rfl rfl) (.one hd))))

/-- The parameters and the result of a function. -/
theorem signature_prints (above : List (Step × Value)) (hcx : cx.attached = [])
    {params : List Typed} {result : Option ResultType} {n : Node}
    (hparams : n.get "params" = nodes (params.map Typed.node))
    (hresult : n.get "returnType" = Parse.optional (result.map ResultType.node))
    (hkind : n.kind ∉ Nesting.operatorKinds) (h : n.depth ≤ fuel + 2) :
    Prints (signature (below cx (fuel + 1)) ⟨.node n, above⟩ n) .word
      (listed (params.map Typed.glyphs) ++ (result.map ResultType.glyphs).getD []) .word := by
  refine (parameters_prints hcx params hparams hkind h).bind fun d hd => ?_
  refine (resultType_prints hcx result hresult h).bind fun e he => ?_
  exact .pure (.group (.list (.cons hd (.one he))) false)

/-- A function behind its attributes, with whatever its signature is laid out as. -/
theorem functionDeclaration_prints (hcx : cx.attached = []) {name : Name} {nameSpan : Span}
    {body : Option (List Stmt × Span)} {n : Node} {gs : List Glyph} {t : Doc.Edge}
    (hsignature : Prints (signature (below cx fuel) ⟨.node n, above⟩ n) .word gs t)
    (hblank : Doc.Spells t (.bare " ") [] .fresh)
    (hsemicolon : Doc.Spells t (.bare ";") [Glyph.of ";"] .fresh)
    (hname : n.get "id" = .node (name.node nameSpan))
    (hbody : n.get "body" =
      Parse.optional (body.map fun b => blockNode (stmtNodes .blocks b.1) b.2))
    (hshape : ∀ b ∈ body, ∀ s ∈ b.1, (s.node .none).Edged (0 ≤ ·)) (h : n.depth ≤ fuel + 1) :
    Prints (functionDeclaration (below cx fuel) ⟨.node n, above⟩ n) .fresh
      (Glyph.of "function" :: name.glyph :: (gs ++ functionBodyGlyphs body)) .fresh := by
  refine hsignature.bind fun sig hsig => ?_
  refine Prints.bind (below_prints hname h fun hd => prints_ident hcx name nameSpan hd)
    fun d hd => ?_
  have hword : Doc.Spells .fresh (.bare "function ") [Glyph.of "function"] .fresh :=
    .text _ _ rfl rfl
  have hfront := Doc.SpellsAll.cons hword (.cons hd (.one hsig))
  rw [hbody]
  cases body with
  | none => exact .pure (.list ((hfront.append (.one hsemicolon)).cast rfl))
  | some b =>
    have hblock : Prints (below cx fuel ⟨.node n, above⟩ "body") .fresh
        (bracedGlyphs (stmtGlyphs b.1)) .fresh :=
      below_prints hbody h fun hd =>
        block_prints hcx (fun s _ => printsStmt hcx s) (hshape b rfl) b.2 hd
    refine hblock.bind fun e he => ?_
    exact .pure (.list ((hfront.append (.cons hblank (.one he))).cast rfl))

theorem prints_function (hcx : cx.attached = []) (attrs : Attrs) (name : Name) (nameSpan : Span)
    (params : List Typed) (result : Option ResultType) (body : Option (List Stmt × Span))
    (span : Span) : PrintsDecl cx (.function attrs name nameSpan params result body span) := by
  intro fuel above _ hshape h
  obtain ⟨fuel, rfl⟩ := exists_fuel h
  have hnameDepth : (name.node nameSpan).depth < fuel + 1 := Nat.lt_of_lt_of_le
    (depth_get (Decl.node .blocks (.function attrs name nameSpan params result body span)) "id") h
  obtain ⟨fuel, rfl⟩ := exists_fuel (Nat.le_of_lt_succ hnameDepth)
  have hbody : ∀ b ∈ body, ∀ s ∈ b.1, (s.node .none).Edged (0 ≤ ·) := by
    rintro b rfl
    exact shaped_block (hshape.optional "body" rfl (by decide) rfl)
  rw [Decl.node, tree_attributed hcx "FunctionDeclaration" "function_declaration"
    (snake_of_mem (by decide)) (fun _ _ _ _ => rfl) (by decide)]
  have hsignature := signature_prints above hcx (n := Decl.node .blocks
    (.function attrs name nameSpan params result body span)) rfl rfl
    (by decide : "FunctionDeclaration" ∉ Nesting.operatorKinds) h
  refine (functionDeclaration_prints hcx hsignature (.text [] .fresh rfl rfl)
    (.text [Glyph.of ";"] .fresh rfl rfl) rfl rfl hbody h).bind fun d hd => ?_
  rw [List.append_assoc] at hd
  exact withAttrs_prints hcx attrs rfl h hd

/-- A declaration as the member of a class. -/
theorem prints_member (hcx : cx.attached = []) {d : Decl} (hd : PrintsDecl cx d)
    (hshape : (d.node .none).Edged (0 ≤ ·)) (h : (memberNode (d.node .blocks)).depth ≤ fuel) :
    Prints (tree cx fuel ⟨.node (memberNode (d.node .blocks)), above⟩) .fresh d.glyphs .fresh := by
  obtain ⟨fuel, rfl⟩ := exists_fuel h
  rw [memberNode, Parse.spanning,
    tree_node hcx fuel "ClassElement" "class_element" (snake_of_mem (by decide))]
  exact below_prints rfl h fun he => hd fuel _ (by decide : some "item" ≠ some "init") hshape he

theorem span_decl (d : Decl) : (d.node .blocks).span = (d.node .none).span := by
  cases d <;> simp only [Decl.node, Variables.node]

/-- The members of a class in braces. -/
theorem prints_classBody (hcx : cx.attached = []) {ds : List Decl} (hds : ∀ d ∈ ds, PrintsDecl cx d)
    (hshape : ∀ d ∈ ds, (d.node .none).Edged (0 ≤ ·)) (span : Span)
    (h : (⟨"ClassBody", span, [("body", nodes (memberNodes .blocks ds))]⟩ : Node).depth ≤ fuel) :
    Prints (tree cx fuel ⟨.node ⟨"ClassBody", span, [("body", nodes (memberNodes .blocks ds))]⟩,
      above⟩) .fresh (bracedGlyphs (memberGlyphs ds)) .fresh := by
  obtain ⟨fuel, rfl⟩ := exists_fuel h
  have hfield :
      (⟨"ClassBody", span, [("body", nodes (memberNodes .blocks ds))]⟩ : Node).get "body" =
      .list (ds.map fun d => .node (memberNode (d.node .blocks))) := by
    change nodes (memberNodes .blocks ds) = _
    rw [memberNodes_eq, nodes, List.map_map]
    rfl
  rw [tree_generic_plain hcx fuel "ClassBody" "class_body" (snake_of_mem (by decide))
    (fun _ _ _ _ => rfl) (by decide), memberGlyphs_eq]
  refine bracedBody_prints hcx hfield (fun d hd i => ?_) fun d hd => ?_
  · have hdepth : (memberNode (d.node .blocks)).depth < _ :=
      @depth_element _ (fun d => memberNode (Decl.node .blocks d)) _ _ _ _ hfield hd
    exact prints_member hcx (hds d hd) (hshape d hd)
      (Nat.le_of_lt_succ (Nat.lt_of_lt_of_le hdepth h))
  · rw [memberNode, Parse.spanning, Node.stop, span_decl]
    exact (hshape d hd).here.2

theorem classDeclaration_eq (child : Child) (c : Cursor) (n : Node) :
    classDeclaration child c n = (do
      let name ← child c "id"
      let base ← optionalPart child c n "superClass" " extends "
      let body ← child c "body"
      pure (.list ([.bare "class ", name] ++ base ++ [.bare " ", body]))) := by
  unfold classDeclaration optionalPart
  cases (n.get "superClass").isNull <;>
    simp only [Bool.false_eq_true, if_false, if_true, pure_bind, bind_assoc]

theorem prints_class (hcx : cx.attached = []) (attrs : Attrs) (name : Name) (nameSpan : Span)
    (base : Option DottedName) {members : List Decl} (inner span : Span)
    (hds : ∀ d ∈ members, PrintsDecl cx d) :
    PrintsDecl cx (.classDef attrs name nameSpan base members inner span) := by
  intro fuel above _ hshape h
  obtain ⟨fuel, rfl⟩ := exists_fuel h
  have hmembers : ∀ d ∈ members, (d.node .none).Edged (0 ≤ ·) := by
    have hall := (hshape.node "body" rfl (by decide) rfl).item "body" rfl (by decide) rfl
    rw [memberNodes_eq] at hall
    intro d hd
    exact (hall _ (List.mem_map_of_mem hd)).node "item" rfl (by decide) rfl
  obtain ⟨ds, hbase, hspell⟩ : ∃ ds, optionalPart (below cx fuel) ⟨.node (Decl.node .blocks
      (.classDef attrs name nameSpan base members inner span)), above⟩ (Decl.node .blocks
      (.classDef attrs name nameSpan base members inner span)) "superClass" " extends " = pure ds ∧
      Doc.SpellsAll .word ds ((base.map fun c => Glyph.of "extends" :: c.glyphs).getD [])
        .word := by
    refine optionalPart_prints rfl h (fun hnone => ?_) fun m hm hd => ?_
    · obtain rfl : base = none := Option.map_eq_none_iff.1 hnone
      exact ⟨rfl, rfl⟩
    · obtain ⟨c, rfl, rfl⟩ := Option.map_eq_some_iff.1 hm
      exact ⟨[Glyph.of "extends"], _, rfl, .text [Glyph.of "extends"] .fresh rfl rfl,
        prints_dottedName hcx c hd⟩
  rw [Decl.node] at hbase ⊢
  rw [tree_attributed hcx "ClassDeclaration" "class_declaration"
    (snake_of_mem (by decide)) (fun _ _ _ _ => rfl) (by decide)]
  change Prints (classDeclaration (below cx fuel) _ _ >>= _) _ _ _
  rw [classDeclaration_eq, hbase]
  refine Prints.bind ?_ fun d hd => withAttrs_prints hcx attrs rfl h hd
  refine Prints.bind (below_prints rfl h fun hd => prints_ident hcx name nameSpan hd)
    fun d hd => ?_
  have hbody {n : Node} (hn : n.get "body" = .node ⟨"ClassBody", inner,
      [("body", nodes (memberNodes .blocks members))]⟩) (hd : n.depth ≤ fuel + 1) :
      Prints (below cx fuel ⟨.node n, above⟩ "body") .fresh (bracedGlyphs (memberGlyphs members))
        .fresh :=
    below_prints hn hd fun he => prints_classBody hcx hds hmembers inner he
  change Prints (below cx fuel _ "body" >>= fun body =>
    pure (.list ([.bare "class ", d] ++ ds ++ [.bare " ", body]))) _ _ _
  refine (hbody rfl h).bind fun e he => ?_
  have hword : Doc.Spells .fresh (.bare "class ") [Glyph.of "class"] .fresh := .text _ _ rfl rfl
  have hfront := (Doc.SpellsAll.cons hword (.one hd)).append hspell
  refine .pure (.list ((hfront.append (.cons (.text [] .fresh rfl rfl) (.one he))).cast ?_))
  simp

/-- Without comments, the layout of a declaration spells its tokens. -/
theorem printsDecl (hcx : cx.attached = []) (d : Decl) : PrintsDecl cx d := by
  induction d using Decl.induct with
  | hclass attrs name nameSpan base members inner span ih =>
    exact prints_class hcx attrs name nameSpan base inner span ih
  | hfunction attrs name nameSpan params result body span =>
    exact prints_function hcx attrs name nameSpan params result body span
  | hdeclares attrs isConst v => exact prints_variables hcx attrs isConst v
  | henum attrs name members inner span => exact prints_enum hcx attrs name members inner span
  | htype attrs name nameSpan type span => exact prints_typedef hcx attrs name nameSpan type span

/-! ## Imports and modules -/

/-- The layout of the import or declaration spells its tokens, wherever it may stand. -/
def PrintsTopLevel (cx : Context) (t : TopLevel) : Prop :=
  ∀ (fuel : Nat) (above : List (Step × Value)), OutOfHeader above →
    (t.node .none).Edged (0 ≤ ·) → (t.node .blocks).depth ≤ fuel →
    Prints (tree cx fuel ⟨.node (t.node .blocks), above⟩) .fresh t.glyphs .fresh

theorem prints_using (hcx : cx.attached = []) (id : DottedName) (shortName : Option (Name × Span))
    (span : Span) : PrintsTopLevel cx (.using id shortName span) := by
  intro fuel above _ _ h
  obtain ⟨fuel, rfl⟩ := exists_fuel h
  rw [TopLevel.node, tree_node hcx fuel "Using" "using" (snake_of_mem (by decide))]
  refine Prints.bind (below_prints rfl h fun hd => prints_dottedName hcx id hd) fun d hd => ?_
  have hword : Doc.Spells .fresh (.bare "using") [Glyph.of "using"] .word := .text _ _ rfl rfl
  have hend : Doc.Spells .word (.bare ";") [Glyph.of ";"] .fresh := .text _ _ rfl rfl
  cases shortName with
  | none =>
    exact .pure (.group (.list (.cons hword (.cons (.space _) (.cons hd (.one hend))))) false)
  | some x =>
    refine Prints.bind (below_prints rfl h fun hd => prints_ident hcx x.1 x.2 hd) fun e he => ?_
    have has : Doc.Spells .fresh (.bare "as") [Glyph.of "as"] .word := .text _ _ rfl rfl
    exact .pure (.group (.list (.cons hword (.cons (.space _) (.cons hd (.cons (.space _)
      (.cons has (.cons (.space _) (.cons he (.one hend))))))))) false)

theorem prints_importModule (hcx : cx.attached = []) (id : DottedName) (span : Span) :
    PrintsTopLevel cx (.importModule id span) := by
  intro fuel above _ _ h
  obtain ⟨fuel, rfl⟩ := exists_fuel h
  rw [TopLevel.node, tree_node hcx fuel "ImportModule" "import_module" (snake_of_mem (by decide))]
  refine Prints.bind (below_prints rfl h fun hd => prints_dottedName hcx id hd) fun d hd => ?_
  exact .pure (.group (.list (.cons (.text [Glyph.of "import"] .word rfl rfl)
    (.cons (.space _) (.cons hd (.one (.text [Glyph.of ";"] .fresh rfl rfl)))))) false)

theorem span_topLevel (t : TopLevel) : (t.node .blocks).span = (t.node .none).span := by
  cases t with
  | decl d => exact span_decl d
  | _ => simp only [TopLevel.node]

/-- Imports and declarations in braces. -/
theorem prints_moduleBody (hcx : cx.attached = []) {ts : List TopLevel}
    (hts : ∀ t ∈ ts, PrintsTopLevel cx t) (hshape : ∀ t ∈ ts, (t.node .none).Edged (0 ≤ ·))
    (span : Span) (h : (blockNode (topLevelNodes .blocks ts) span).depth ≤ fuel) :
    Prints (tree cx fuel ⟨.node (blockNode (topLevelNodes .blocks ts) span), above⟩) .fresh
      (bracedGlyphs (topLevelGlyphs ts)) .fresh := by
  obtain ⟨fuel, rfl⟩ := exists_fuel h
  have hfield : (blockNode (topLevelNodes .blocks ts) span).get "body" =
      .list (ts.map fun t => .node (t.node .blocks)) := by
    change nodes (topLevelNodes .blocks ts) = _
    rw [topLevelNodes_eq, nodes, List.map_map]
    rfl
  rw [blockNode, tree_generic_plain hcx fuel "BlockStatement" "block_statement"
    (snake_of_mem (by decide)) (fun _ _ _ _ => rfl) (by decide), topLevelGlyphs_eq]
  refine bracedBody_prints hcx hfield (fun t ht i => ?_) fun t ht => ?_
  · exact hts t ht fuel _ (by decide : some "body" ≠ some "init") (hshape t ht)
      (Nat.le_of_lt_succ (Nat.lt_of_lt_of_le (depth_element hfield ht) h))
  · rw [Node.stop, span_topLevel]
    exact (hshape t ht).here.2

theorem prints_module (hcx : cx.attached = []) (attrs : Attrs) (name : Name) (nameSpan : Span)
    {body : List TopLevel} (inner span : Span) (hts : ∀ t ∈ body, PrintsTopLevel cx t) :
    PrintsTopLevel cx (.module attrs name nameSpan body inner span) := by
  intro fuel above _ hshape h
  obtain ⟨fuel, rfl⟩ := exists_fuel h
  have hbody : ∀ t ∈ body, (t.node .none).Edged (0 ≤ ·) := by
    have hall := (hshape.node "body" rfl (by decide) rfl).item "body" rfl (by decide) rfl
    rw [topLevelNodes_eq] at hall
    exact fun t ht => hall _ (List.mem_map_of_mem ht)
  rw [TopLevel.node, tree_node hcx fuel "ModuleDeclaration" "module_declaration"
    (snake_of_mem (by decide))]
  refine Prints.bind (below_prints rfl h fun hd => prints_ident hcx name nameSpan hd)
    fun d hd => ?_
  refine Prints.bind (below_prints rfl h fun hd => prints_moduleBody hcx hts hbody inner hd)
    fun e he => ?_
  refine withAttrs_prints hcx attrs rfl h ?_
  have hhead : Doc.Spells .fresh (.group (.list [.bare "module", .space, .indent d, .space]) false)
      [Glyph.of "module", name.glyph] .fresh :=
    .group (.list (.cons (.text [Glyph.of "module"] .word rfl rfl)
      (.cons (.space _) (.cons (.indent hd) (.one (.space _)))))) false
  exact .group (.list (.cons hhead (.one he))) false

/-- Without comments, the layout of an import or a declaration spells its tokens. -/
theorem printsTopLevel (hcx : cx.attached = []) (t : TopLevel) : PrintsTopLevel cx t := by
  induction t using TopLevel.induct with
  | husing id shortName span => exact prints_using hcx id shortName span
  | himport id span => exact prints_importModule hcx id span
  | hdecl d => exact printsDecl hcx d
  | hmodule attrs name nameSpan body inner span ih =>
    exact prints_module hcx attrs name nameSpan inner span ih

/-! ## Whole sources -/

/-- The elements of a source one behind the other. -/
theorem program_prints (hcx : cx.attached = []) {α : Type} {node : α → Node}
    {glyphs : α → List Glyph} {xs : List α} {n : Node}
    (hfield : n.get "body" = .list (xs.map fun x => .node (node x)))
    (h : ∀ x ∈ xs, ∀ i, Prints (tree cx fuel ⟨.node (node x), (.index i, n.get "body") ::
      (.field "body", .node n) :: above⟩) .fresh (glyphs x) .fresh)
    (hstop : ∀ x ∈ xs, 0 ≤ (node x).stop) :
    Prints (program cx (below cx fuel) ⟨.node n, above⟩ n) .fresh (xs.flatMap glyphs) .fresh := by
  obtain ⟨parts, hparts, hspell⟩ := statements_prints hfield h hstop
  have hown : own cx ⟨.node n, above⟩ = [] := by simp [own, hcx]
  unfold program
  rw [hparts, hown, hfield]
  cases xs with
  | nil => exact .pure (.text [] .fresh rfl rfl)
  | cons x xs =>
    have hall := Doc.SpellsAll.cons (.list hspell) (.one (.hardline _))
    rw [List.append_nil] at hall
    exact .pure (.list hall)

/-- Without comments, the layout of a source spells its tokens. -/
theorem prints_outline (hcx : cx.attached = []) (x : Outline) (span : Span)
    (hshape : (x.node .none span).Edged (0 ≤ ·)) (h : (x.node .blocks span).depth ≤ fuel) :
    Prints (tree cx fuel ⟨.node (x.node .blocks span), []⟩) .fresh x.glyphs .fresh := by
  obtain ⟨fuel, rfl⟩ := exists_fuel h
  have hall := hshape.item "body" rfl (by decide) rfl
  have htree := tree_generic_plain hcx fuel "Program" "program" (snake_of_mem (by decide))
    (fun _ _ _ _ => rfl) (by decide) span [("body", nodes (x.nodes .blocks))] []
  have hget {α : Type} (node : α → Node) (xs : List α) (hx : x.nodes .blocks = xs.map node) :
      (x.node .blocks span).get "body" = .list (xs.map fun y => .node (node y)) := by
    change nodes (x.nodes .blocks) = _
    rw [hx, nodes, List.map_map]
    rfl
  have hdepth {α : Type} (node : α → Node) (xs : List α) (hx : x.nodes .blocks = xs.map node)
      {y : α} (hy : y ∈ xs) : (node y).depth ≤ fuel :=
    Nat.le_of_lt_succ (Nat.lt_of_lt_of_le (depth_element (hget node xs hx) hy) h)
  rw [Outline.node] at hget ⊢
  rw [htree]
  cases x with
  | program ts =>
    have hts : ∀ t ∈ ts, (t.node .none).Edged (0 ≤ ·) :=
      fun t ht => hall _ (List.mem_map_of_mem ht)
    refine program_prints hcx (hget (TopLevel.node .blocks) ts rfl) (fun t ht i => ?_)
      fun t ht => ?_
    · exact printsTopLevel hcx t fuel _ (by decide : some "body" ≠ some "init") (hts t ht)
        (hdepth (TopLevel.node .blocks) ts rfl ht)
    · rw [Node.stop, span_topLevel]
      exact (hts t ht).here.2
  | statements ss =>
    have hss : ∀ s ∈ ss, (s.node .none).Edged (0 ≤ ·) :=
      fun s hs => hall _ (List.mem_map_of_mem hs)
    refine program_prints hcx (hget (Stmt.node .blocks) ss rfl) (fun s hs i => ?_) fun s hs => ?_
    · exact printsStmt hcx s fuel _ (by decide : some "body" ≠ some "init") (hss s hs)
        (hdepth (Stmt.node .blocks) ss rfl hs)
    · rw [Node.stop, span_stmt]
      exact (hss s hs).here.2
  | members ds =>
    have hds : ∀ d ∈ ds, (d.node .none).Edged (0 ≤ ·) :=
      fun d hd => (hall _ (List.mem_map_of_mem hd)).node "item" rfl (by decide) rfl
    refine program_prints hcx (hget (fun d => memberNode (Decl.node .blocks d)) ds rfl)
      (fun d hd i => ?_) fun d hd => ?_
    · exact prints_member hcx (printsDecl hcx d) (hds d hd)
        (hdepth (fun d => memberNode (Decl.node .blocks d)) ds rfl hd)
    · rw [memberNode, Parse.spanning, Node.stop, span_decl]
      exact (hds d hd).here.2

end Layout

end MonkeyFormat
