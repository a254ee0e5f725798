import MonkeyFormat.Proofs.Shape
import MonkeyFormat.Proofs.StatementSyntax

set_option autoImplicit false

/-! # Laying out statements

Without comments, a statement whose bodies are blocks is laid out as a document that spells its
tokens. -/

namespace MonkeyFormat

open Parse (nodes handlers)

namespace Layout

variable {cx : Context} {fuel : Nat} {above : List (Step × Value)}

/-! ## Parts -/

theorem liftM_ok {α : Type} (a : α) :
    (liftM (Except.ok a : Except Fault α) : Layout α) = pure a := rfl

/-- A document on lines of its own. -/
theorem spells_lines {d : Doc} {gs : List Glyph} {t : Doc.Edge} (h : Doc.Spells .fresh d gs t) :
    Doc.Spells .fresh (.indent (.list [.hardline, d])) gs t :=
  .indent (.list (.cons (.hardline _) (.one h)))

theorem spells_braced {d : Doc} {gs : List Glyph} {t : Doc.Edge} (h : Doc.Spells .fresh d gs t) :
    Doc.Spells .fresh (braced d) (bracedGlyphs gs) .fresh :=
  .list (.cons (.text [Glyph.of "\x7b"] .fresh rfl rfl)
    (.cons (spells_lines h) (.cons (.hardline _) (.one (.text [Glyph.of "\x7d"] .fresh rfl rfl)))))

/-- Elements between braces. -/
theorem bracedBody_prints (hcx : cx.attached = []) {α : Type} {node : α → Node}
    {glyphs : α → List Glyph} {xs : List α} {n : Node}
    (hfield : n.get "body" = .list (xs.map fun x => .node (node x)))
    (h : ∀ x ∈ xs, ∀ i, Prints (tree cx fuel ⟨.node (node x), (.index i, n.get "body") ::
      (.field "body", .node n) :: above⟩) .fresh (glyphs x) .fresh)
    (hstop : ∀ x ∈ xs, 0 ≤ (node x).stop) :
    Prints (bracedBody cx (below cx fuel) ⟨.node n, above⟩ n) .fresh
      (bracedGlyphs (xs.flatMap glyphs)) .fresh := by
  obtain ⟨parts, hparts, hspell⟩ := statements_prints hfield h hstop
  have hown : own cx ⟨.node n, above⟩ = [] := by simp [own, hcx]
  unfold bracedBody
  rw [hparts, hown, hfield]
  cases xs with
  | nil => exact .pure (.text [Glyph.of "\x7b", Glyph.of "\x7d"] .fresh rfl rfl)
  | cons x xs => exact .pure (spells_braced (.list hspell))

/-- A test, to stand between parentheses. -/
theorem testClause_prints (hcx : cx.attached = []) (t : Term) {n : Node}
    (hget : n.get "test" = .node t.node) (hkind : n.kind ∉ Nesting.operatorKinds)
    (h : n.depth ≤ fuel + 1) :
    Prints (testClause (below cx fuel) ⟨.node n, above⟩) .fresh t.glyphs .word := by
  have hterm : Prints (below cx fuel ⟨.node n, above⟩ "test") .fresh t.glyphs .word :=
    below_prints hget h fun hd => prints_term hcx t ⟨n, rfl, hkind⟩ hd
  refine hterm.bind fun d hd => .pure (.group (.list ?_) false)
  rw [← List.append_nil t.glyphs]
  exact .cons (.indent (.list (.cons (.softline _) (.one hd)))) (.one (.softline _))

theorem clause_block {m : Node} (h : m.kind = "BlockStatement") (d : Doc) (sameLine : Bool) :
    clause (.node m) d sameLine = .ok (.list [.bare " ", d]) := by
  unfold clause
  simp only [Value.isNull, Bool.false_eq_true, if_false, kindOf, h]
  rfl

/-- A block behind a header. -/
theorem Prints.clause {m : Node} (h : m.kind = "BlockStatement") {d : Doc} {sameLine : Bool}
    {f : Doc → Layout Doc} {s t : Doc.Edge} {gs : List Glyph}
    (hf : Prints (f (.list [.bare " ", d])) s gs t) :
    Prints (liftM (clause (.node m) d sameLine) >>= f) s gs t := by
  rw [clause_block h]
  exact hf

theorem spells_spaced {d : Doc} {gs : List Glyph} {t : Doc.Edge} (h : Doc.Spells .fresh d gs t) :
    Doc.Spells .fresh (.list [.bare " ", d]) gs t :=
  .list (.cons (.text [] .fresh rfl rfl) (.one h))

theorem clause_sameLine (m : Node) (d : Doc) :
    clause (.node m) d true = .ok (.list [.bare " ", d]) := by
  unfold clause
  simp only [Value.isNull, Bool.false_eq_true, if_false, kindOf, Bool.or_true]
  rfl

/-- The nearest field above a place is not the first part of a loop's header. -/
def OutOfHeader (above : List (Step × Value)) : Prop :=
  Cursor.key ⟨.null, above⟩ ≠ some "init"

/-- The statement's layout spells its tokens, wherever it may stand. -/
def PrintsStmt (cx : Context) (s : Stmt) : Prop :=
  ∀ (fuel : Nat) (above : List (Step × Value)), OutOfHeader above →
    (s.node .none).Edged (0 ≤ ·) → (s.node .blocks).depth ≤ fuel →
    Prints (tree cx fuel ⟨.node (s.node .blocks), above⟩) .fresh s.glyphs .fresh

theorem kind_wrapBody (n : Node) : (Parentheses.wrapBody n).kind = "BlockStatement" := by
  unfold Parentheses.wrapBody
  split
  · assumption
  · rfl

theorem exists_fuel {n : Node} (h : n.depth ≤ fuel) : ∃ m, fuel = m + 1 := by
  cases fuel with
  | zero =>
    cases n
    simp [Node.depth] at h
  | succ fuel => exact ⟨fuel, rfl⟩

/-! ## Bodies -/

section Bodies

variable {ss : List Stmt} {s : Stmt}

theorem span_stmt (s : Stmt) : (s.node .blocks).span = (s.node .none).span := by
  cases s <;> rfl

theorem stmts_prints (hss : ∀ s ∈ ss, PrintsStmt cx s)
    (hshape : ∀ s ∈ ss, (s.node .none).Edged (0 ≤ ·)) {n : Node} (name : String)
    (hfield : n.get name = nodes (stmtNodes .blocks ss)) (above : List (Step × Value))
      (hname : name ≠ "init")
    (h : n.depth ≤ fuel + 1) :
    (∀ s ∈ ss, ∀ i, Prints (tree cx fuel ⟨.node (s.node .blocks), (.index i, n.get name) ::
      (.field name, .node n) :: above⟩) .fresh s.glyphs .fresh) ∧
    ∀ s ∈ ss, 0 ≤ (s.node .blocks).stop := by
  refine ⟨fun s hs i => ?_, fun s hs => ?_⟩
  · refine hss s hs fuel _ (fun hkey => hname (Option.some.inj hkey)) (hshape s hs) ?_
    rw [stmtNodes_eq, nodes, List.map_map] at hfield
    exact Nat.le_of_lt_succ (Nat.lt_of_lt_of_le (depth_element hfield hs) h)
  · rw [Node.stop, span_stmt]
    exact (hshape s hs).here.2

/-- A block of statements. -/
theorem block_prints (hcx : cx.attached = []) (hss : ∀ s ∈ ss, PrintsStmt cx s)
    (hshape : ∀ s ∈ ss, (s.node .none).Edged (0 ≤ ·)) (span : Span)
    (h : (blockNode (stmtNodes .blocks ss) span).depth ≤ fuel) :
    Prints (tree cx fuel ⟨.node (blockNode (stmtNodes .blocks ss) span), above⟩) .fresh
      (bracedGlyphs (stmtGlyphs ss)) .fresh := by
  obtain ⟨fuel, rfl⟩ := exists_fuel h
  obtain ⟨hprints, hstop⟩ := stmts_prints hss hshape
    (n := blockNode (stmtNodes .blocks ss) span) "body" rfl above (by decide) h
  have hfield : (blockNode (stmtNodes .blocks ss) span).get "body" =
      .list (ss.map fun s => .node (s.node .blocks)) := by
    change nodes (stmtNodes .blocks ss) = _
    rw [stmtNodes_eq, nodes, List.map_map]
    rfl
  have htree :=
    tree_generic_plain hcx fuel "BlockStatement" "block_statement" (snake_of_mem (by decide))
    (fun _ _ _ _ => rfl) (by decide) span [("body", nodes (stmtNodes .blocks ss))] above
  rw [stmtGlyphs_eq]
  rw [blockNode] at *
  rw [htree]
  exact bracedBody_prints hcx hfield hprints hstop

/-- The body of a choice or a loop. -/
theorem body_prints (hcx : cx.attached = []) (hs : PrintsStmt cx s)
    (hshape : (s.node .none).Edged (0 ≤ ·)) {n : Node} (name : String)
    (hget : n.get name = .node (Parentheses.wrapBody (s.node .blocks))) (hname : name ≠ "init")
    (h : n.depth ≤ fuel + 1) :
    Prints (below cx fuel ⟨.node n, above⟩ name) .fresh (bodyGlyphs s.isBlock s.glyphs)
      .fresh := by
  refine below_prints hget h fun hd => ?_
  unfold Parentheses.wrapBody at hd ⊢
  by_cases hblock : (s.node .blocks).kind = "BlockStatement"
  · rw [if_pos hblock] at hd ⊢
    rw [bodyGlyphs, if_pos ((kind_stmt_block _ s).1 hblock)]
    exact hs fuel _ (fun hkey => hname (Option.some.inj hkey)) hshape hd
  · rw [if_neg hblock] at hd ⊢
    rw [bodyGlyphs, if_neg fun h => hblock ((kind_stmt_block _ s).2 h)]
    have hall : ∀ t ∈ [s], PrintsStmt cx t := by simpa using hs
    have hshapes : ∀ t ∈ [s], (t.node .none).Edged (0 ≤ ·) := by simpa using hshape
    rw [← show stmtGlyphs [s] = s.glyphs from List.append_nil _]
    exact block_prints hcx hall hshapes _ hd

/-- The second branch of a choice. -/
theorem alternate_prints (hcx : cx.attached = []) (hs : PrintsStmt cx s)
    (hshape : (s.node .none).Edged (0 ≤ ·)) {n : Node}
    (hget : n.get "alternate" = .node (Rewriting.wrapAlternate (s.node .blocks)))
    (h : n.depth ≤ fuel + 1) :
    Prints (below cx fuel ⟨.node n, above⟩ "alternate") .fresh
      (bodyGlyphs (s.isBlock || s.isChoice) s.glyphs) .fresh := by
  by_cases hchoice : (s.node .blocks).kind = "IfStatement"
  · rw [Rewriting.wrapAlternate, if_pos hchoice] at hget
    rw [(kind_stmt_choice _ s).1 hchoice, Bool.or_true]
    refine below_prints hget h fun hd => ?_
    exact hs fuel _ (by decide : some "alternate" ≠ some "init") hshape hd
  · rw [Rewriting.wrapAlternate, if_neg hchoice] at hget
    rw [Bool.eq_false_iff.2 fun h => hchoice ((kind_stmt_choice _ s).2 h), Bool.or_false]
    exact body_prints hcx hs hshape "alternate" hget (by decide) h

theorem Prints.alternate (n : Node) {d : Doc} {f : Doc → Layout Doc} {s t : Doc.Edge}
    {gs : List Glyph} (hf : Prints (f (.list [.bare " ", d])) s gs t) :
    Prints (liftM (kindOf (.node (Rewriting.wrapAlternate n))) >>= fun kind =>
      liftM (Layout.clause (.node (Rewriting.wrapAlternate n)) d (kind = "IfStatement")) >>= f)
      s gs t := by
  change Prints (liftM (Layout.clause (.node (Rewriting.wrapAlternate n)) d
    ((Rewriting.wrapAlternate n).kind = "IfStatement")) >>= f) s gs t
  by_cases h : n.kind = "IfStatement"
  · rw [Rewriting.wrapAlternate, if_pos h, decide_eq_true h, clause_sameLine]
    exact hf
  · rw [Rewriting.wrapAlternate, if_neg h]
    exact Prints.clause (kind_wrapBody n) hf

end Bodies

/-! ## Choices and loops -/

section Loops

variable {s : Stmt}

theorem prints_whileLoop (hcx : cx.attached = []) (test : Term) (span : Span)
    (hs : PrintsStmt cx s) : PrintsStmt cx (.whileLoop test s span) := by
  intro fuel above _ hshape h
  have hshape' := hshape.node "body" rfl (by decide) rfl
  obtain ⟨fuel, rfl⟩ := exists_fuel h
  rw [Stmt.node,
    tree_generic_plain hcx fuel "WhileStatement" "while_statement" (snake_of_mem (by decide))
    (fun _ _ _ _ => rfl) (by decide)]
  refine Prints.bind (testClause_prints hcx test rfl
    (show "WhileStatement" ∉ Nesting.operatorKinds by decide) h) fun d hd => ?_
  refine Prints.bind (body_prints hcx hs hshape' "body" rfl (by decide) h) fun e he => ?_
  refine Prints.clause (kind_wrapBody _) (.pure (.group (.list (.cast
    (.cons (.text [Glyph.of "while", Glyph.of "("] .fresh rfl rfl)
      (.cons hd (.cons (.text [Glyph.of ")"] .fresh rfl rfl) (.one (spells_spaced he))))) ?_))
    false))
  simp [Stmt.glyphs, testGlyphs]

theorem prints_doLoop (hcx : cx.attached = []) (test : Term) (span : Span)
    (hs : PrintsStmt cx s) : PrintsStmt cx (.doLoop s test span) := by
  intro fuel above _ hshape h
  have hshape' := hshape.node "body" rfl (by decide) rfl
  obtain ⟨fuel, rfl⟩ := exists_fuel h
  rw [Stmt.node, tree_generic_plain hcx fuel "DoWhileStatement" "do_while_statement"
    (snake_of_mem (by decide)) (fun _ _ _ _ => rfl) (by decide)]
  refine Prints.bind (body_prints hcx hs hshape' "body" rfl (by decide) h) fun e he => ?_
  refine Prints.clause (kind_wrapBody _) ?_
  refine Prints.bind (testClause_prints hcx test rfl
    (show "DoWhileStatement" ∉ Nesting.operatorKinds by decide) h) fun d hd => ?_
  have hblock : isBlock (.node (Parentheses.wrapBody (s.node .blocks))) = true :=
    decide_eq_true (kind_wrapBody _)
  change Prints (pure (.list [_, if isBlock (.node (Parentheses.wrapBody (s.node .blocks)))
    then _ else _, _, _, _])) _ _ _
  rw [hblock]
  have hhead : Doc.Spells .fresh (.group (.list [.bare "do", .list [.bare " ", e]]) false)
      (Glyph.of "do" :: bodyGlyphs s.isBlock s.glyphs) .fresh :=
    .group (.list (.cons (.text [Glyph.of "do"] .word rfl rfl)
      (.one (.list (.cons (.text [] .fresh rfl rfl) (.one he)))))) false
  refine .pure (.list (.cast (.cons hhead (.cons (.text [] .fresh rfl rfl)
    (.cons (.text [Glyph.of "while", Glyph.of "("] .fresh rfl rfl)
      (.cons hd (.one (.text [Glyph.of ")", Glyph.of ";"] .fresh rfl rfl)))))) ?_))
  simp [Stmt.glyphs, testGlyphs]

/-- The head of a choice, with its first branch. -/
theorem spells_ifHead {test : Term} {c : Stmt} {d e : Doc}
    (hd : Doc.Spells .fresh d test.glyphs .word)
    (he : Doc.Spells .fresh e (bodyGlyphs c.isBlock c.glyphs) .fresh) :
    Doc.Spells .fresh (.group (.list [.bare "if (", d, .bare ")", .list [.bare " ", e]]) false)
      (Glyph.of "if" :: (testGlyphs test ++ bodyGlyphs c.isBlock c.glyphs)) .fresh := by
  refine .group (.list (.cast (.cons (.text [Glyph.of "if", Glyph.of "("] .fresh rfl rfl)
    (.cons hd (.cons (.text [Glyph.of ")"] .fresh rfl rfl) (.one (spells_spaced he))))) ?_)) false
  simp [testGlyphs]

theorem prints_ifThen (hcx : cx.attached = []) (test : Term) (span : Span)
    (hs : PrintsStmt cx s) : PrintsStmt cx (.ifThen test s span) := by
  intro fuel above _ hshape h
  have hshape' := hshape.node "consequent" rfl (by decide) rfl
  obtain ⟨fuel, rfl⟩ := exists_fuel h
  rw [Stmt.node, tree_generic_plain hcx fuel "IfStatement" "if_statement"
    (snake_of_mem (by decide)) (fun _ _ _ _ => rfl) (by decide)]
  refine Prints.bind (testClause_prints hcx test rfl
    (show "IfStatement" ∉ Nesting.operatorKinds by decide) h) fun d hd => ?_
  refine Prints.bind (body_prints hcx hs hshape' "consequent" rfl (by decide) h) fun e he => ?_
  exact Prints.clause (kind_wrapBody _) (.pure (.list (.one (spells_ifHead hd he))))

theorem prints_ifElse (hcx : cx.attached = []) (test : Term) (span : Span) {a : Stmt}
    (hs : PrintsStmt cx s) (ha : PrintsStmt cx a) : PrintsStmt cx (.ifElse test s a span) := by
  intro fuel above _ hshape h
  have hshape' := hshape.node "consequent" rfl (by decide) rfl
  have hshape'' := hshape.optional "alternate" rfl (by decide) rfl
  obtain ⟨fuel, rfl⟩ := exists_fuel h
  rw [Stmt.node, tree_generic_plain hcx fuel "IfStatement" "if_statement"
    (snake_of_mem (by decide)) (fun _ _ _ _ => rfl) (by decide)]
  refine Prints.bind (testClause_prints hcx test rfl
    (show "IfStatement" ∉ Nesting.operatorKinds by decide) h) fun d hd => ?_
  refine Prints.bind (body_prints hcx hs hshape' "consequent" rfl (by decide) h) fun e he => ?_
  refine Prints.clause (kind_wrapBody _) ?_
  refine Prints.bind (alternate_prints hcx ha hshape'' rfl h) fun k hk => ?_
  refine Prints.alternate (a.node .blocks) ?_
  have hblock : isBlock (.node (Parentheses.wrapBody (s.node .blocks))) = true :=
    decide_eq_true (kind_wrapBody _)
  change Prints (pure (.list [_, if isBlock (.node (Parentheses.wrapBody (s.node .blocks)))
    then _ else _, _])) _ _ _
  rw [hblock]
  have helse : Doc.Spells .fresh (.list [.bare "else", .group (.list [.bare " ", k]) false])
      (Glyph.of "else" :: bodyGlyphs (a.isBlock || a.isChoice) a.glyphs) .fresh :=
    .list (.cons (.text [Glyph.of "else"] .word rfl rfl)
      (.one (.group (.list (.cons (.text [] .fresh rfl rfl) (.one hk))) false)))
  refine .pure (.list (.cast (.cons (spells_ifHead hd he)
    (.cons (.text [] .fresh rfl rfl) (.one helse))) ?_))
  simp [Stmt.glyphs]

end Loops

/-! ## Variables -/

theorem staysBehindOperator_term (t : Term) : staysBehindOperator (.node t.node) = true := by
  cases t <;> rfl

theorem assignment_term (t : Term) (left right : Doc) :
    assignment left " =" (.node t.node) right =
      .group (.list [.group left false, .bare " =", .bare " ", right]) false := by
  rw [assignment, staysBehindOperator_term]
  rfl

theorem spells_assignment {gs : List Glyph} {s : Doc.Edge} {t : Term} {d e : Doc}
    (hd : Doc.Spells .fresh d gs s) (he : Doc.Spells .fresh e t.glyphs .word) :
    Doc.Spells .fresh (assignment d " =" (.node t.node) e) (gs ++ Glyph.of "=" :: t.glyphs)
      .word := by
  have hsign : Doc.Spells s (.bare " =") [Glyph.of "="] .operator := by
    cases s <;> exact .text [Glyph.of "="] .operator rfl rfl
  rw [assignment_term]
  exact .group (.list (.cons (.group hd false) (.cons hsign
    (.cons (.text [] .fresh rfl rfl) (.one he))))) false

theorem prints_declarator (hcx : cx.attached = []) (d : Declarator) (kind : String)
    (h : (d.node kind).depth ≤ fuel) :
    Prints (tree cx fuel ⟨.node (d.node kind), above⟩) .fresh d.glyphs .word := by
  obtain ⟨fuel, rfl⟩ := exists_fuel h
  obtain ⟨id, init, span⟩ := d
  rw [Declarator.node, tree_generic_plain hcx fuel "VariableDeclarator" "variable_declarator"
    (snake_of_mem (by decide)) (fun _ _ _ _ => rfl) (by decide)]
  have hopen (name : String) (n : Node) (hn : n.kind = "VariableDeclarator") :
      Nesting.Open ((.field name, .node n) :: above) := ⟨n, rfl, by rw [hn]; decide⟩
  refine Prints.bind (below_prints rfl h fun hd => prints_typed hcx id (hopen _ _ rfl) hd)
    fun d hd => ?_
  cases init with
  | none =>
    change Prints (pure d) .fresh (id.glyphs ++ []) .word
    rw [List.append_nil]
    exact .pure hd
  | some t =>
    refine Prints.bind (below_prints rfl h fun hd => prints_term hcx t (hopen _ _ rfl) hd)
      fun e he => ?_
    exact .pure (spells_assignment hd he)

theorem anyInit_eq_ok (ns : List Node) : ∃ b, anyInit (ns.map .node) = .ok b := by
  induction ns with
  | nil => exact ⟨false, rfl⟩
  | cons n ns ih =>
    rw [List.map_cons, anyInit]
    split
    · exact ih
    · exact ⟨true, rfl⟩

section Declared

variable {α : Type} {node : α → Node} {glyphs : α → List Glyph} {t : Doc.Edge}

/-- Declared variables behind the first. -/
theorem spells_more {break_ : Doc} (hcomma : Doc.Spells t (.bare ",") [Glyph.of ","] .fresh)
    (hbreak : Doc.Spells .fresh break_ [] .fresh) {xs : List α} {docs : List Doc}
    (h : SpellEach .fresh glyphs t xs docs) :
    Doc.SpellsAll t (docs.map fun d => .list [.bare ",", break_, d])
      (xs.flatMap fun x => Glyph.of "," :: glyphs x) t := by
  induction h with
  | nil => exact .nil _
  | cons hd _ ih =>
    refine .cons (.list ?_) ih
    have hone := Doc.SpellsAll.cons hbreak (.one hd)
    exact .cons hcomma hone

/-- Declared variables by the generic rule; in the header of a loop there is no semicolon. -/
theorem declared_prints {x : α} {xs : List α} {n : Node} (isConst : Bool)
    (hkind : n.get "kind" = .str (keyword isConst))
    (hfield : n.get "declarations" = .list ((x :: xs).map fun x => .node (node x)))
    (heach : ∀ y ∈ x :: xs, ∀ i, Prints (tree cx fuel ⟨.node (node y), (.index i,
      n.get "declarations") :: (.field "declarations", .node n) :: above⟩) .fresh (glyphs y) t)
    (hcomma : Doc.Spells t (.bare ",") [Glyph.of ","] .fresh)
    (hsemicolon : Doc.Spells t (.bare ";") [Glyph.of ";"] .fresh) (inHeader : Bool)
    (hheader : (Cursor.parent ⟨.node n, above⟩).any (fun p =>
      p.kind = "ForStatement" && Cursor.key ⟨.node n, above⟩ == some "init") = inHeader) :
    Prints (variableDeclaration (below cx fuel) ⟨.node n, above⟩ n) .fresh
      (Glyph.of (keyword isConst) :: [Glyph.of ","].intercalate ((x :: xs).map glyphs) ++
        if inHeader then [] else [Glyph.of ";"]) (if inHeader then t else .fresh) := by
  obtain ⟨docs, hdocs, hspell⟩ := eachOf_prints hfield heach
  obtain ⟨hasValue, hany⟩ := anyInit_eq_ok ((x :: xs).map node)
  have hbreak : Doc.Spells .fresh (if hasValue then Doc.hardline else .space) [] .fresh := by
    cases hasValue with
    | false => exact .space _
    | true => exact .hardline _
  have hword : fieldOr n "kind" "var" = .bare (keyword isConst) := by
    unfold fieldOr
    rw [hkind]
    cases isConst <;> rfl
  have hkeyword :
      Doc.Spells .fresh (.bare (keyword isConst)) [Glyph.of (keyword isConst)] .word := by
    cases isConst with
    | false => exact .text [Glyph.of "var"] .word rfl rfl
    | true => exact .text [Glyph.of "const"] .word rfl rfl
  have hrule : variableDeclaration (below cx fuel) ⟨.node n, above⟩ n = pure (.group (.list
      ([.bare (keyword isConst), .bare " ", docs.headD (.bare ""),
        .indent (.list ((docs.drop 1).map fun d => .list
          [.bare ",", if hasValue then Doc.hardline else .space, d]))] ++
        if inHeader then [] else [.bare ";"])) false) := by
    have helements : (Value.list ((x :: xs).map fun x => .node (node x))).elements = .ok _ := rfl
    rw [List.map_map, Function.comp_def] at hany
    unfold variableDeclaration
    rw [hfield, helements, hdocs, hword, ← hheader]
    simp only [liftM_ok, pure_bind, hany]
    cases Cursor.parent ⟨.node n, above⟩ <;> rfl
  rw [hrule]
  cases hspell with
  | cons hd hds =>
    refine .pure (.group (.list ?_) false)
    rw [List.map_cons, Parse.intercalate_cons, List.flatMap_map]
    have hblank : Doc.Spells .word (.bare " ") [] .fresh := .text [] .fresh rfl rfl
    have hfront := Doc.SpellsAll.cons hkeyword (.cons hblank
      (.cons hd (.one (.indent (.list (spells_more hcomma hbreak hds))))))
    cases inHeader with
    | true => exact hfront.append (.nil _)
    | false => exact hfront.append (.one hsemicolon)

end Declared

/-- A declaration of variables by its generic rule; in the header of a loop it has no semicolon. -/
theorem variableDeclaration_prints (hcx : cx.attached = []) (v : Variables) (isConst : Bool)
    (attrs : Option Node) (inHeader : Bool) {n : Node}
    (hn : n = v.node (keyword isConst) attrs)
    (hheader : (Cursor.parent ⟨.node n, above⟩).any (fun p =>
      p.kind = "ForStatement" && Cursor.key ⟨.node n, above⟩ == some "init") = inHeader)
    (h : n.depth ≤ fuel + 1) :
    Prints (variableDeclaration (below cx fuel) ⟨.node n, above⟩ n) .fresh
      (v.glyphs (keyword isConst) ++ if inHeader then [] else [Glyph.of ";"])
      (if inHeader then .word else .fresh) := by
  subst hn
  have hfield : (v.node (keyword isConst) attrs).get "declarations" =
      .list ((v.first :: v.more).map fun d => .node (d.node (keyword isConst))) := by
    change nodes ((v.first :: v.more).map (Declarator.node (keyword isConst))) = _
    rw [nodes, List.map_map]
    rfl
  exact declared_prints isConst rfl hfield (fun d hd i => prints_declarator hcx d (keyword isConst)
    (Nat.le_of_lt_succ (Nat.lt_of_lt_of_le (depth_element hfield hd) h)))
    (.text [Glyph.of ","] .fresh rfl rfl) (.text [Glyph.of ";"] .fresh rfl rfl) inHeader hheader

/-- A declaration that the generic layout knows is laid out by the generic rule, behind its
attributes. -/
theorem tree_attributed (hcx : cx.attached = []) (kind rule : String) (hrule : snake kind = rule)
    (hmonkey : ∀ cx child c n, monkeyRule cx child c n rule = attributed cx child c n)
    (hkind : kind ∉ nestingKinds) (span : Span) (fields : Fields) :
    tree cx (fuel + 1) ⟨.node ⟨kind, span, fields⟩, above⟩ =
      genericRule cx (below cx fuel) ⟨.node ⟨kind, span, fields⟩, above⟩ ⟨kind, span, fields⟩ rule
        >>= withAttrs (below cx fuel) ⟨.node ⟨kind, span, fields⟩, above⟩ ⟨kind, span, fields⟩ := by
  have hparens := parenthesized_of_kind (n := ⟨kind, span, fields⟩) hkind above
  rw [tree_node hcx fuel kind rule hrule, hmonkey, attributed, generic]
  simp only [hparens, Bool.false_eq_true, if_false, bind_pure, hrule]

theorem tree_variables (hcx : cx.attached = []) (v : Variables) (kind : String)
    (attrs : Option Node) :
    tree cx (fuel + 1) ⟨.node (v.node kind attrs), above⟩ =
      variableDeclaration (below cx fuel) ⟨.node (v.node kind attrs), above⟩ (v.node kind attrs)
        >>= withAttrs (below cx fuel) ⟨.node (v.node kind attrs), above⟩ (v.node kind attrs) :=
  tree_attributed hcx "VariableDeclaration" "variable_declaration" (snake_of_mem (by decide))
    (fun _ _ _ _ => rfl) (by decide) v.span _

theorem prints_declares (hcx : cx.attached = []) (isConst : Bool) (v : Variables) :
    PrintsStmt cx (.declares isConst v) := by
  intro fuel above hheader _ h
  obtain ⟨fuel, rfl⟩ := exists_fuel h
  have hout : (Cursor.parent ⟨.node (v.node (keyword isConst) none), above⟩).any (fun p =>
      p.kind = "ForStatement" &&
        Cursor.key ⟨.node (v.node (keyword isConst) none), above⟩ == some "init") = false := by
    rw [beq_eq_false_iff_ne.2 (show Cursor.key ⟨.node (v.node (keyword isConst) none), above⟩ ≠ _
      from hheader)]
    simp
  rw [Stmt.node, tree_variables hcx]
  refine (variableDeclaration_prints hcx v isConst none false rfl hout h).bind fun d hd => ?_
  exact .pure hd

/-! ## Loops with a header -/

/-- An expression that may be absent. -/
theorem option_prints (hcx : cx.attached = []) (t : Option Term) (name : String) {n : Node}
    (hget : n.get name = Parse.optional (t.map Term.node)) (hkind : n.kind ∉ Nesting.operatorKinds)
    (h : n.depth ≤ fuel + 2) :
    Prints (below cx (fuel + 1) ⟨.node n, above⟩ name) .fresh (optionGlyphs t) .word := by
  cases t with
  | none =>
    rw [below_null hget]
    exact .pure (Doc.Spells.ofFresh (.text [] .fresh rfl rfl) .word)
  | some t => exact below_prints hget h fun hd => prints_term hcx t ⟨n, rfl, hkind⟩ hd

theorem header_prints (hcx : cx.attached = []) (i : Header) {n : Node}
    (hget : n.get "init" = Parse.optional i.node?) (hkind : n.kind = "ForStatement")
    (h : n.depth ≤ fuel + 2) :
    Prints (below cx (fuel + 1) ⟨.node n, above⟩ "init") .fresh i.glyphs .word := by
  cases i with
  | none =>
    rw [below_null hget]
    exact .pure (Doc.Spells.ofFresh (.text [] .fresh rfl rfl) .word)
  | term t =>
    refine below_prints hget h fun hd => prints_term hcx t ⟨n, rfl, ?_⟩ hd
    rw [hkind]
    decide
  | declares v =>
    refine below_prints hget h fun hd => ?_
    have hheader : (Cursor.parent ⟨.node (v.node "var" none), (.field "init", .node n) ::
        above⟩).any (fun p => p.kind = "ForStatement" &&
          Cursor.key ⟨.node (v.node "var" none), (.field "init", .node n) :: above⟩ ==
            some "init") = true := by
      change (decide (n.kind = "ForStatement") && true) = true
      rw [hkind]
      rfl
    rw [tree_variables hcx]
    refine (variableDeclaration_prints hcx v false none true rfl hheader hd).bind fun d hd => ?_
    change Doc.Spells .fresh d (v.glyphs "var" ++ []) .word at hd
    rw [List.append_nil] at hd
    exact .pure hd

theorem prints_forLoop (hcx : cx.attached = []) (init : Header) (test update : Option Term)
    (span : Span) {s : Stmt} (hs : PrintsStmt cx s) :
    PrintsStmt cx (.forLoop init test update s span) := by
  intro fuel above _ hshape h
  have hshape' := hshape.node "body" rfl (by decide) rfl
  obtain ⟨fuel, rfl⟩ := exists_fuel h
  have hbodyDepth : (Parentheses.wrapBody (s.node .blocks)).depth < fuel + 1 :=
    Nat.lt_of_lt_of_le (depth_get (Stmt.node .blocks (.forLoop init test update s span)) "body") h
  obtain ⟨fuel, rfl⟩ := exists_fuel (Nat.le_of_lt_succ hbodyDepth)
  have hkind : "ForStatement" ∉ Nesting.operatorKinds := by decide
  rw [Stmt.node, tree_generic_plain hcx (fuel + 1) "ForStatement" "for_statement"
    (snake_of_mem (by decide)) (fun _ _ _ _ => rfl) (by decide)]
  refine Prints.bind (body_prints hcx hs hshape' "body" rfl (by decide) h) fun e he => ?_
  refine Prints.clause (kind_wrapBody _) ?_
  split
  · next hnull =>
    simp only [Bool.and_eq_true] at hnull
    obtain ⟨⟨hinit, htest⟩, hupdate⟩ := hnull
    have hinit' : init.glyphs = [] := by
      cases init with
      | none => rfl
      | term t => cases hinit
      | declares v => cases hinit
    have htest' : optionGlyphs test = [] := by
      cases test with
      | none => rfl
      | some t => cases htest
    have hupdate' : optionGlyphs update = [] := by
      cases update with
      | none => rfl
      | some t => cases hupdate
    refine .pure (.list (.cast (.cons (.text [Glyph.of "for", Glyph.of "(", Glyph.of ";",
      Glyph.of ";", Glyph.of ")"] .fresh rfl rfl) (.one (spells_spaced he))) ?_))
    simp [Stmt.glyphs, hinit', htest', hupdate']
  · refine Prints.bind (header_prints hcx init rfl rfl h) fun d hd => ?_
    refine Prints.bind (option_prints hcx test "test" rfl hkind h) fun d' hd' => ?_
    refine Prints.bind (option_prints hcx update "update" rfl hkind h) fun d'' hd'' => ?_
    have hparts : Doc.Spells .fresh (.indent (.list [.softline, d, .bare ";", .space, d', .bare ";",
        .space, d''])) (init.glyphs ++ Glyph.of ";" :: (optionGlyphs test ++
          Glyph.of ";" :: optionGlyphs update)) .word :=
      .indent (.list (.cast (.cons (.softline _) (.cons hd
        (.cons (.text [Glyph.of ";"] .fresh rfl rfl) (.cons (.space _) (.cons hd'
          (.cons (.text [Glyph.of ";"] .fresh rfl rfl) (.cons (.space _) (.one hd'')))))))) rfl))
    refine .pure (.list (.cast (.cons (.text [Glyph.of "for", Glyph.of "("] .fresh rfl rfl)
      (.cons (.group (.list (.cons hparts (.one (.softline _)))) false)
        (.cons (.text [Glyph.of ")"] .fresh rfl rfl) (.one (spells_spaced he))))) ?_))
    simp [Stmt.glyphs]

/-! ## Cases -/

/-- The case's layout spells its tokens. -/
def PrintsCase (cx : Context) (c : Case) : Prop :=
  ∀ (fuel : Nat) (above : List (Step × Value)), (c.node .none).Edged (0 ≤ ·) →
    (c.node .blocks).depth ≤ fuel →
    Prints (tree cx fuel ⟨.node (c.node .blocks), above⟩) .fresh c.glyphs .fresh

theorem prints_instanceOfCase (hcx : cx.attached = []) (c : DottedName) (span : Span)
    (h : (⟨"InstanceOfCase", span, [("id", .node c.node)]⟩ : Node).depth ≤ fuel) :
    Prints (tree cx fuel ⟨.node ⟨"InstanceOfCase", span, [("id", .node c.node)]⟩, above⟩) .fresh
      (Glyph.of "instanceof" :: c.glyphs) .word := by
  obtain ⟨fuel, rfl⟩ := exists_fuel h
  rw [tree_node hcx fuel "InstanceOfCase" "instance_of_case" (snake_of_mem (by decide))]
  refine Prints.bind (below_prints rfl h fun hd => prints_dottedName hcx c hd) fun d hd => ?_
  exact .pure (.list (.cons (.text [Glyph.of "instanceof"] .fresh rfl rfl) (.one hd)))

/-- The label of a case. -/
def labelDocs (child : Child) (c : Cursor) (n : Node) : Layout (List Doc) :=
  if (n.get "test").isNull then pure [Doc.bare "default:"]
  else do
    let d ← child c "test"
    pure [Doc.bare "case ", d, .bare ":"]

theorem labelDocs_prints (hcx : cx.attached = []) (l : Label) {n : Node}
    (hget : n.get "test" = Parse.optional l.node?) (hkind : n.kind = "SwitchCase")
    (h : n.depth ≤ fuel + 1) :
    ∃ ds, labelDocs (below cx fuel) ⟨.node n, above⟩ n = pure ds ∧
      Doc.SpellsAll .fresh ds l.glyphs .fresh := by
  have hopen : Nesting.Open ((.field "test", .node n) :: above) := ⟨n, rfl, by rw [hkind]; decide⟩
  unfold labelDocs
  rw [hget]
  cases l with
  | default => exact ⟨_, rfl, .one (.text [Glyph.of "default", Glyph.of ":"] .fresh rfl rfl)⟩
  | value t =>
    have hterm : Prints (below cx fuel ⟨.node n, above⟩ "test") .fresh t.glyphs .word :=
      below_prints hget h fun hd => prints_term hcx t hopen hd
    obtain ⟨d, hrun, hd⟩ := hterm
    refine ⟨[.bare "case ", d, .bare ":"], ?_, ?_⟩
    · rw [hrun]
      rfl
    · exact .cons (.text [Glyph.of "case"] .fresh rfl rfl)
        (.cons hd (.one (.text [Glyph.of ":"] .fresh rfl rfl)))
  | instanceOf c span =>
    have hclass : Prints (below cx fuel ⟨.node n, above⟩ "test") .fresh
        (Glyph.of "instanceof" :: c.glyphs) .word :=
      below_prints hget h fun hd => prints_instanceOfCase hcx c span hd
    obtain ⟨d, hrun, hd⟩ := hclass
    refine ⟨[.bare "case ", d, .bare ":"], ?_, ?_⟩
    · rw [hrun]
      rfl
    · exact .cons (.text [Glyph.of "case"] .fresh rfl rfl)
        (.cons hd (.one (.text [Glyph.of ":"] .fresh rfl rfl)))

/-- A case behind its label. A sole block stays on the line of the label. -/
def labelled (cx : Context) (child : Child) (c : Cursor) (n : Node) (label : List Doc) :
    Layout Doc := do
  let consequent := n.get "consequent"
  let count ← consequent.count
  let soleBlock ← if count = 1 then do
      let first ← consequent.child (.index 0)
      pure ((← kindOf first) == "BlockStatement")
    else pure false
  if soleBlock then
    let e ← (c.field "consequent").down (.index 0)
    let d ← child e none
    pure (.list (label ++ [.bare " ", d]))
  else if consequent.truthy then
    let parts ← statements cx child c n "consequent"
    pure (.list (label ++ [.indent (.list [.hardline, .list parts])]))
  else pure (.list label)

theorem switchCase_eq (child : Child) (c : Cursor) (n : Node) :
    switchCase cx child c n = labelDocs child c n >>= labelled cx child c n := by
  unfold switchCase labelDocs
  cases (n.get "test").isNull with
  | true => rfl
  | false =>
    simp only [Bool.false_eq_true, if_false, bind_assoc]
    rfl

theorem prints_case (hcx : cx.attached = []) (label : Label) {ss : List Stmt} (span : Span)
    (hss : ∀ s ∈ ss, PrintsStmt cx s) : PrintsCase cx ⟨label, ss, span⟩ := by
  intro fuel above hshape h
  obtain ⟨fuel, rfl⟩ := exists_fuel h
  have hstmts : ∀ s ∈ ss, (s.node .none).Edged (0 ≤ ·) := by
    have hall := hshape.item "consequent" rfl (by decide) rfl
    rw [stmtNodes_eq] at hall
    exact fun s hs => hall _ (List.mem_map_of_mem hs)
  obtain ⟨ds, hlabel, hspell⟩ : ∃ ds, labelDocs (below cx fuel)
      ⟨.node (Case.node .blocks ⟨label, ss, span⟩), above⟩ (Case.node .blocks ⟨label, ss, span⟩) =
        pure ds ∧ Doc.SpellsAll .fresh ds label.glyphs .fresh :=
    labelDocs_prints hcx label rfl rfl h
  obtain ⟨hprints, hstop⟩ := stmts_prints hss hstmts (n := Case.node .blocks ⟨label, ss, span⟩)
    "consequent" rfl above (by decide) h
  have hfield : (Case.node .blocks ⟨label, ss, span⟩).get "consequent" =
      .list (ss.map fun s => .node (s.node .blocks)) := by
    change nodes (stmtNodes .blocks ss) = _
    rw [stmtNodes_eq, nodes, List.map_map]
    rfl
  obtain ⟨parts, hparts, hparts'⟩ := statements_prints hfield hprints hstop
  rw [Case.node] at hlabel hparts hprints ⊢
  rw [tree_generic_plain hcx fuel "SwitchCase" "switch_case" (snake_of_mem (by decide))
    (fun _ _ _ _ => rfl) (by decide)]
  change Prints (switchCase cx _ _ _) _ _ _
  rw [switchCase_eq, hlabel, pure_bind]
  have hlines : Doc.SpellsAll .fresh (ds ++ [.indent (.list [.hardline, .list parts])])
      (Case.glyphs ⟨label, ss, span⟩) .fresh := by
    rw [Case.glyphs, stmtGlyphs_eq]
    exact hspell.append (.one (spells_lines (.list hparts')))
  rcases ss with _ | ⟨s, _ | ⟨s', ss⟩⟩
  · change Prints (pure (.list ds)) _ (label.glyphs ++ []) _
    rw [List.append_nil]
    exact .pure (.list hspell)
  · have hchild := hprints s List.mem_cons_self 0
    change Prints (if (s.node .blocks).kind == "BlockStatement" then
        tree cx fuel _ >>= fun d => pure (.list (ds ++ [.bare " ", d]))
      else statements cx _ _ _ "consequent" >>= fun parts =>
        pure (.list (ds ++ [.indent (.list [.hardline, .list parts])]))) _ _ _
    split
    · refine hchild.bind fun d hd => .pure (.list ?_)
      rw [Case.glyphs, show stmtGlyphs [s] = s.glyphs from List.append_nil _]
      exact hspell.append (.cons (.text [] .fresh rfl rfl) (.one hd))
    · rw [hparts]
      exact .pure (.list hlines)
  · change Prints (statements cx _ _ _ "consequent" >>= fun parts =>
      pure (.list (ds ++ [.indent (.list [.hardline, .list parts])]))) _ _ _
    rw [hparts]
    exact .pure (.list hlines)

theorem prints_switch (hcx : cx.attached = []) (discriminant : Term) {cs : List Case} (span : Span)
    (hcs : ∀ c ∈ cs, PrintsCase cx c) : PrintsStmt cx (.switch discriminant cs span) := by
  intro fuel above _ hshape h
  obtain ⟨fuel, rfl⟩ := exists_fuel h
  have hfield : (Stmt.node .blocks (.switch discriminant cs span)).get "cases" =
      .list (cs.map fun c => .node (c.node .blocks)) := by
    change nodes (caseNodes .blocks cs) = _
    rw [caseNodes_eq, nodes, List.map_map]
    rfl
  have hcases : ∀ c ∈ cs, (c.node .none).Edged (0 ≤ ·) := by
    have hall := hshape.item "cases" rfl (by decide) rfl
    rw [caseNodes_eq] at hall
    exact fun c hc => hall _ (List.mem_map_of_mem hc)
  have hstatements : ∃ parts, statements cx (below cx fuel)
      ⟨.node (Stmt.node .blocks (.switch discriminant cs span)), above⟩
      (Stmt.node .blocks (.switch discriminant cs span)) "cases" = pure parts ∧
      Doc.SpellsAll .fresh parts (cs.flatMap Case.glyphs) .fresh := by
    refine statements_prints hfield (fun c hc i => ?_) fun c hc => ?_
    · exact hcs c hc fuel _ (hcases c hc)
        (Nat.le_of_lt_succ (Nat.lt_of_lt_of_le (depth_element hfield hc) h))
    · cases c
      exact (hcases _ hc).here.2
  obtain ⟨parts, hparts, hspell⟩ := hstatements
  have hown : own cx ⟨.node (Stmt.node .blocks (.switch discriminant cs span)), above⟩ = [] := by
    simp [own, hcx]
  rw [Stmt.node] at hparts hown ⊢
  rw [tree_generic_plain hcx fuel "SwitchStatement" "switch_statement" (snake_of_mem (by decide))
    (fun _ _ _ _ => rfl) (by decide)]
  refine Prints.bind (below_prints rfl h fun hd => prints_term hcx discriminant
    ⟨_, rfl, (by decide : "SwitchStatement" ∉ Nesting.operatorKinds)⟩ hd) fun d hd => ?_
  have hhead : Doc.Spells .fresh (enclosed "switch (" d ")")
      (Glyph.of "switch" :: testGlyphs discriminant) .fresh :=
    spells_enclosed (.text [Glyph.of "switch", Glyph.of "("] .fresh rfl rfl) hd
      (.text [Glyph.of ")"] .fresh rfl rfl)
  rw [Stmt.glyphs, bracedGlyphs, caseGlyphs_eq, hown, hparts]
  cases cs with
  | nil =>
    exact .pure (.list (.cons hhead (.cons (.text [Glyph.of "\x7b"] .fresh rfl rfl)
      (.cons (.hardline _) (.one (.text [Glyph.of "\x7d"] .fresh rfl rfl))))))
  | cons c cs =>
    exact .pure (.list (.cons hhead (.cons (.text [Glyph.of "\x7b"] .fresh rfl rfl)
      (.cons (spells_lines (.list hspell)) (.cons (.hardline _)
        (.one (.text [Glyph.of "\x7d"] .fresh rfl rfl)))))))

/-! ## Handlers -/

/-- The handler's layout spells its tokens. -/
def PrintsHandler (cx : Context) (k : Handler) : Prop :=
  ∀ (fuel : Nat) (above : List (Step × Value)), (k.node .none).Edged (0 ≤ ·) →
    (k.node .blocks).depth ≤ fuel →
    Prints (tree cx fuel ⟨.node (k.node .blocks), above⟩) .fresh k.glyphs .fresh

theorem shaped_block {ss : List Stmt} {span : Span}
    (h : (blockNode (stmtNodes .none ss) span).Edged (0 ≤ ·)) :
    ∀ s ∈ ss, (s.node .none).Edged (0 ≤ ·) := by
  have hall := h.item "body" rfl (by decide) rfl
  rw [stmtNodes_eq] at hall
  exact fun s hs => hall _ (List.mem_map_of_mem hs)

theorem prints_param_instanceOf (hcx : cx.attached = []) (x : Name) (first : Span) (c : DottedName)
    (span : Span) (habove : Nesting.Open above)
    (h : (Operation.test (.name x first) c span).node.depth ≤ fuel) :
    Prints (tree cx fuel ⟨.node (Operation.test (.name x first) c span).node, above⟩) .fresh
      (x.glyph :: Glyph.of "instanceof" :: c.glyphs) .word := by
  have hparens := Nesting.parenthesized_of_open
    (n := (Operation.test (.name x first) c span).explicit) (.inl rfl) habove
  have htest := (prints_operation hcx (.test (.name x first) c span)).1 fuel above h
  rw [hparens] at htest
  exact htest

theorem prints_handler (hcx : cx.attached = []) (param : Param) {ss : List Stmt} (inner span : Span)
    (hss : ∀ s ∈ ss, PrintsStmt cx s) : PrintsHandler cx ⟨param, ss, inner, span⟩ := by
  intro fuel above hshape h
  obtain ⟨fuel, rfl⟩ := exists_fuel h
  have hstmts := shaped_block (hshape.node "body" rfl (by decide) rfl)
  have hbody {c : Cursor}
      (hc : c = ⟨.node (Handler.node .blocks ⟨param, ss, inner, span⟩), above⟩) :
      Prints (below cx fuel c "body") .fresh (bracedGlyphs (stmtGlyphs ss)) .fresh := by
    rw [hc]
    exact below_prints rfl h fun hd => block_prints hcx hss hstmts inner hd
  have hopen : Nesting.Open ((.field "param", .node (Handler.node .blocks
      ⟨param, ss, inner, span⟩)) :: above) := ⟨_, rfl, (by decide : "CatchClause" ∉ _)⟩
  rw [Handler.node,
    tree_generic_plain hcx fuel "CatchClause" "catch_clause" (snake_of_mem (by decide))
    (fun _ _ _ _ => rfl) (by decide)]
  have hcaught {d e : Doc} {gs : List Glyph} (hd : Doc.Spells .fresh d gs .word)
      (he : Doc.Spells .fresh e (bracedGlyphs (stmtGlyphs ss)) .fresh) :
      Doc.Spells .fresh (.list [.bare "catch (", d, .bare ") ", e])
        (Glyph.of "catch" :: Glyph.of "(" :: (gs ++ Glyph.of ")" ::
          bracedGlyphs (stmtGlyphs ss))) .fresh :=
    .list (.cast (.cons (.text [Glyph.of "catch", Glyph.of "("] .fresh rfl rfl)
      (.cons hd (.cons (.text [Glyph.of ")"] .fresh rfl rfl) (.one he)))) rfl)
  cases param with
  | none =>
    refine Prints.bind (hbody rfl) fun d hd => ?_
    exact .pure (.list (.cons (.text [Glyph.of "catch"] .fresh rfl rfl) (.one hd)))
  | name x inner =>
    refine Prints.bind (below_prints rfl h fun hd => prints_term hcx (.name x inner) hopen hd)
      fun d hd => ?_
    refine Prints.bind (hbody rfl) fun e he => ?_
    exact .pure (hcaught hd he)
  | instanceOf x first c inner =>
    refine Prints.bind (below_prints rfl h fun hd => prints_param_instanceOf hcx x first c inner
      hopen hd) fun d hd => ?_
    refine Prints.bind (hbody rfl) fun e he => ?_
    have hall := hcaught hd he
    rw [Handler.glyphs, Param.glyphs]
    exact .pure (by simpa using hall)

theorem shaped_handlers {k : Handler} {ks : List Handler} {n : Node}
    (hn : n.kind = "TryStatement")
    (hget : n.get "handler" = Parse.optional (handlers (k.node .none :: handlerNodes .none ks)))
    (h : n.Edged (0 ≤ ·)) : ∀ j ∈ k :: ks, (j.node .none).Edged (0 ≤ ·) := by
  have hknown : fieldTypes? n.kind = some [("block", .node), ("handler", .optional),
      ("finalizer", .optional)] := by
    rw [hn]
    rfl
  cases ks with
  | nil =>
    have hone := h.optional "handler" hknown (by decide) hget
    simpa using hone
  | cons k' ks =>
    have hclauses := h.optional "handler" hknown (by decide) hget
    have hall := hclauses.item "catches" rfl (by decide) rfl
    have hnodes : k.node .none :: handlerNodes .none (k' :: ks) =
        (k :: k' :: ks).map (Handler.node .none) := by
      rw [handlerNodes_eq, List.map_cons, List.map_cons, List.map_cons]
    intro j hj
    refine hall (j.node .none) ?_
    change j.node .none ∈ k.node .none :: handlerNodes .none (k' :: ks)
    rw [hnodes]
    exact List.mem_map_of_mem hj

theorem intercalate_nil (gss : List (List Glyph)) :
    ([] : List Glyph).intercalate gss = gss.flatten := by
  induction gss with
  | nil => rfl
  | cons gs gss ih =>
    cases gss with
    | nil => simp
    | cons hs gss =>
      rw [List.intercalate_cons_cons, ih, List.append_nil]
      rfl

/-- Several handlers, with blanks between them. -/
theorem clauses_prints (hcx : cx.attached = []) {k : Handler} {ks : List Handler}
    (hks : ∀ j ∈ k :: ks, PrintsHandler cx j)
    (hshape : ∀ j ∈ k :: ks, (j.node .none).Edged (0 ≤ ·)) (span : Span)
    (h : (⟨"CatchClauses", span, [("catches", nodes ((k :: ks).map (Handler.node .blocks)))]⟩ :
      Node).depth ≤ fuel) :
    Prints (tree cx fuel ⟨.node ⟨"CatchClauses", span,
      [("catches", nodes ((k :: ks).map (Handler.node .blocks)))]⟩, above⟩) .fresh
      ((k :: ks).flatMap Handler.glyphs) .fresh := by
  obtain ⟨fuel, rfl⟩ := exists_fuel h
  have hfield :
      (⟨"CatchClauses", span, [("catches", nodes ((k :: ks).map (Handler.node .blocks)))]⟩ :
      Node).get "catches" = .list ((k :: ks).map fun j => .node (j.node .blocks)) := by
    change nodes ((k :: ks).map (Handler.node .blocks)) = _
    rw [nodes, List.map_map]
    rfl
  obtain ⟨docs, hdocs, hspell⟩ : ∃ docs, eachOf (below cx fuel) ⟨.node ⟨"CatchClauses", span,
      [("catches", nodes ((k :: ks).map (Handler.node .blocks)))]⟩, above⟩ "catches" = pure docs ∧
      SpellEach .fresh Handler.glyphs .fresh (k :: ks) docs :=
    eachOf_prints hfield fun j hj _ => hks j hj fuel _ (hshape j hj)
      (Nat.le_of_lt_succ (Nat.lt_of_lt_of_le (depth_element hfield hj) h))
  rw [tree_node hcx fuel "CatchClauses" "catch_clauses" (snake_of_mem (by decide))]
  change Prints (eachOf (below cx fuel) _ "catches" >>= fun ds =>
    pure (Doc.join (.bare " ") ds)) _ _ _
  rw [hdocs, List.flatMap_def, ← intercalate_nil]
  cases hspell with
  | cons hd hds => exact .pure (SpellEach.join (.text [] .fresh rfl rfl) (.cons hd hds))

/-- One handler, or several. -/
theorem prints_handlers (hcx : cx.attached = []) {hs : List Handler}
    (hhs : ∀ j ∈ hs, PrintsHandler cx j) (hshape : ∀ j ∈ hs, (j.node .none).Edged (0 ≤ ·))
    {m : Node} (hm : handlers (handlerNodes .blocks hs) = some m) (h : m.depth ≤ fuel) :
    Prints (tree cx fuel ⟨.node m, above⟩) .fresh (handlerGlyphs hs) .fresh := by
  rw [handlerGlyphs_eq]
  rw [handlerNodes_eq] at hm
  match hs, hm with
  | [k], rfl =>
    rw [List.flatMap_cons, List.flatMap_nil, List.append_nil]
    exact hhs k List.mem_cons_self fuel above (hshape k List.mem_cons_self) h
  | k :: k' :: ks, rfl => exact clauses_prints hcx hhs hshape _ h

/-- A part behind a word, if there is one. -/
def optionalPart (child : Child) (c : Cursor) (n : Node) (name word : String) :
    Layout (List Doc) :=
  if (n.get name).isNull then pure []
  else do
    let d ← child c name
    pure [Doc.bare word, d]

/-- What the field holds is laid out behind the word. -/
theorem optionalPart_prints {part : Option Node} {n : Node} {name word : String}
    {gs : List Glyph} {s t : Doc.Edge} (hget : n.get name = Parse.optional part)
    (h : n.depth ≤ fuel + 1) (hnone : part = none → gs = [] ∧ s = t)
    (hsome : ∀ m, part = some m → m.depth ≤ fuel → ∃ hs hs', gs = hs ++ hs' ∧
      Doc.Spells s (.bare word) hs .fresh ∧
      Prints (tree cx fuel ⟨.node m, (.field name, .node n) :: above⟩) .fresh hs' t) :
    ∃ ds, optionalPart (below cx fuel) ⟨.node n, above⟩ n name word = pure ds ∧
      Doc.SpellsAll s ds gs t := by
  unfold optionalPart
  rw [hget]
  cases part with
  | none =>
    obtain ⟨rfl, rfl⟩ := hnone rfl
    exact ⟨[], rfl, .nil _⟩
  | some m =>
    have hdepth : m.depth < n.depth := by
      have hfield := depth_get n name
      rwa [hget] at hfield
    obtain ⟨hs, hs', rfl, hword, hprints⟩ := hsome m rfl (by omega)
    have hchild : Prints (below cx fuel ⟨.node n, above⟩ name) .fresh hs' t :=
      below_prints hget h fun _ => hprints
    obtain ⟨d, hrun, hd⟩ := hchild
    refine ⟨[.bare word, d], ?_, .cons hword (.one hd)⟩
    rw [hrun]
    rfl

theorem tryStatement_eq (child : Child) (c : Cursor) (n : Node) :
    tryStatement child c n = (do
      let block ← child c "block"
      let handler ← optionalPart child c n "handler" " "
      let finalizer ← optionalPart child c n "finalizer" " finally "
      pure (.list ([.bare "try ", block] ++ handler ++ finalizer))) := by
  unfold tryStatement optionalPart
  cases (n.get "handler").isNull <;> cases (n.get "finalizer").isNull <;>
    simp only [Bool.false_eq_true, if_false, if_true, pure_bind, bind_assoc]

/-- A guarded block with handlers and a last block. -/
theorem prints_try (hcx : cx.attached = []) {ss : List Stmt} (inner : Span) (hs : List Handler)
    (last : Option (List Stmt × Span)) (span : Span) (hss : ∀ s ∈ ss, PrintsStmt cx s)
    (hhs : ∀ k ∈ hs, PrintsHandler cx k) (hlast : ∀ b ∈ last, ∀ s ∈ b.1, PrintsStmt cx s)
    (hshape : (tryNode (blockNode (stmtNodes .none ss) inner) (handlers (handlerNodes .none hs))
      (last.map fun b => blockNode (stmtNodes .none b.1) b.2) span).Edged (0 ≤ ·))
    (h : (tryNode (blockNode (stmtNodes .blocks ss) inner) (handlers (handlerNodes .blocks hs))
      (last.map fun b => blockNode (stmtNodes .blocks b.1) b.2) span).depth ≤ fuel) :
    Prints (tree cx fuel ⟨.node (tryNode (blockNode (stmtNodes .blocks ss) inner)
      (handlers (handlerNodes .blocks hs))
      (last.map fun b => blockNode (stmtNodes .blocks b.1) b.2) span), above⟩) .fresh
      (Glyph.of "try" :: (bracedGlyphs (stmtGlyphs ss) ++ (handlerGlyphs hs ++ finalGlyphs last)))
      .fresh := by
  obtain ⟨fuel, rfl⟩ := exists_fuel h
  have hblock := shaped_block (hshape.node "block" rfl (by decide) rfl)
  have hhandlers : ∀ k ∈ hs, (k.node .none).Edged (0 ≤ ·) := by
    cases hs with
    | nil => simp
    | cons k ks => exact shaped_handlers rfl rfl hshape
  have hfinal : ∀ b ∈ last, ∀ s ∈ b.1, (s.node .none).Edged (0 ≤ ·) := by
    rintro b rfl
    exact shaped_block (hshape.optional "finalizer" rfl (by decide) rfl)
  generalize hn :
    tryNode (blockNode (stmtNodes .blocks ss) inner) (handlers (handlerNodes .blocks hs))
    (last.map fun b => blockNode (stmtNodes .blocks b.1) b.2) span = n at h ⊢
  obtain ⟨ds, hds, hspell⟩ : ∃ ds, optionalPart (below cx fuel) ⟨.node n, above⟩ n "handler" " " =
      pure ds ∧ Doc.SpellsAll .fresh ds (handlerGlyphs hs) .fresh := by
    refine optionalPart_prints (by rw [← hn]; rfl) h (fun hnone => ?_) fun m hm hd =>
      ⟨[], _, rfl, .text [] .fresh rfl rfl, prints_handlers hcx hhs hhandlers hm hd⟩
    cases hs with
    | nil => exact ⟨rfl, rfl⟩
    | cons k ks => cases ks <;> cases hnone
  obtain ⟨es, hes, hspell'⟩ : ∃ es, optionalPart (below cx fuel) ⟨.node n, above⟩ n "finalizer"
      " finally " = pure es ∧ Doc.SpellsAll .fresh es (finalGlyphs last) .fresh := by
    refine optionalPart_prints (by rw [← hn]; rfl) h (fun hnone => ?_) fun m hm hd => ?_
    · cases last with
      | none => exact ⟨rfl, rfl⟩
      | some b => cases hnone
    · obtain ⟨b, rfl, rfl⟩ := Option.map_eq_some_iff.1 hm
      exact ⟨[Glyph.of "finally"], _, rfl, .text [Glyph.of "finally"] .fresh rfl rfl,
        block_prints hcx (hlast b rfl) (hfinal b rfl) b.2 hd⟩
  have hguarded : Prints (below cx fuel ⟨.node n, above⟩ "block") .fresh
      (bracedGlyphs (stmtGlyphs ss)) .fresh :=
    below_prints (by rw [← hn]; rfl) h fun hd => block_prints hcx hss hblock inner hd
  have htree :
      tree cx (fuel + 1) ⟨.node n, above⟩ = tryStatement (below cx fuel) ⟨.node n, above⟩ n := by
    rw [← hn]
    exact tree_generic_plain hcx fuel "TryStatement" "try_statement" (snake_of_mem (by decide))
      (fun _ _ _ _ => rfl) (by decide) span _ above
  rw [htree, tryStatement_eq]
  refine hguarded.bind fun d hd => ?_
  rw [hds, hes]
  have hword : Doc.Spells .fresh (.bare "try ") [Glyph.of "try"] .fresh := .text _ _ rfl rfl
  have hfront := Doc.SpellsAll.cons hword (.one hd)
  exact .pure (.list (((hfront.append hspell).append hspell').cast (by simp)))

/-! ## All statements -/

theorem prints_returns (hcx : cx.attached = []) (argument : Option Term) (span : Span) :
    PrintsStmt cx (.returns argument span) := by
  intro fuel above _ _ h
  obtain ⟨fuel, rfl⟩ := exists_fuel h
  rw [Stmt.node, tree_generic_plain hcx fuel "ReturnStatement" "return_statement"
    (snake_of_mem (by decide)) (fun _ _ _ _ => rfl) (by decide)]
  cases argument with
  | none => exact .pure (.text [Glyph.of "return", Glyph.of ";"] .fresh rfl rfl)
  | some t =>
    refine Prints.bind (below_prints rfl h fun hd => prints_term hcx t
      ⟨_, rfl, (by decide : "ReturnStatement" ∉ Nesting.operatorKinds)⟩ hd) fun d hd => ?_
    exact .pure (.list (.cons (.text [Glyph.of "return"] .fresh rfl rfl)
      (.cons hd (.one (.text [Glyph.of ";"] .fresh rfl rfl)))))

theorem prints_throws (hcx : cx.attached = []) (argument : Term) (span : Span) :
    PrintsStmt cx (.throws argument span) := by
  intro fuel above _ _ h
  obtain ⟨fuel, rfl⟩ := exists_fuel h
  rw [Stmt.node, tree_generic_plain hcx fuel "ThrowStatement" "throw_statement"
    (snake_of_mem (by decide)) (fun _ _ _ _ => rfl) (by decide)]
  refine Prints.bind (below_prints rfl h fun hd => prints_term hcx argument
    ⟨_, rfl, (by decide : "ThrowStatement" ∉ Nesting.operatorKinds)⟩ hd) fun d hd => ?_
  exact .pure (.list (.cons (.text [Glyph.of "throw"] .fresh rfl rfl)
    (.cons hd (.one (.text [Glyph.of ";"] .fresh rfl rfl)))))

theorem prints_expression (hcx : cx.attached = []) (t : Term) (span : Span) :
    PrintsStmt cx (.expression t span) := by
  intro fuel above _ _ h
  obtain ⟨fuel, rfl⟩ := exists_fuel h
  rw [Stmt.node, tree_generic_plain hcx fuel "ExpressionStatement" "expression_statement"
    (snake_of_mem (by decide)) (fun _ _ _ _ => rfl) (by decide)]
  refine Prints.bind (below_prints rfl h fun hd => prints_term hcx t
    ⟨_, rfl, (by decide : "ExpressionStatement" ∉ Nesting.operatorKinds)⟩ hd) fun d hd => ?_
  exact .pure (.list (.cons hd (.one (.text [Glyph.of ";"] .fresh rfl rfl))))

theorem printsStmt_steps (hcx : cx.attached = []) :
    Stmt.Steps (PrintsStmt cx) (PrintsCase cx) (PrintsHandler cx) where
  block ss span hss := by
    intro fuel above _ hshape h
    exact block_prints hcx hss (shaped_block hshape) span h
  ifThen test c span hc := prints_ifThen hcx test span hc
  ifElse test c a span hc ha := prints_ifElse hcx test span hc ha
  whileLoop test s span hs := prints_whileLoop hcx test span hs
  doLoop s test span hs := prints_doLoop hcx test span hs
  forLoop init test update s span hs := prints_forLoop hcx init test update span hs
  switch discriminant cs span hcs := prints_switch hcx discriminant span hcs
  tryCatch ss inner k ks span hss hks := by
    intro fuel above _ hshape h
    have htry : Prints (tree cx fuel ⟨_, above⟩) .fresh _ .fresh :=
      prints_try hcx inner (k :: ks) none span hss hks (by simp) hshape h
    rw [show finalGlyphs none = [] from rfl, List.append_nil] at htry
    exact htry
  tryFinally ss inner last lastSpan span hss hlast := by
    intro fuel above _ hshape h
    exact prints_try hcx inner [] (some (last, lastSpan)) span hss (by simp) (by simpa using hlast)
      hshape h
  tryBoth ss inner k ks last lastSpan span hss hks hlast := by
    intro fuel above _ hshape h
    exact prints_try hcx inner (k :: ks) (some (last, lastSpan)) span hss hks
      (by simpa using hlast) hshape h
  returns argument span := prints_returns hcx argument span
  throws argument span := prints_throws hcx argument span
  breaks span := by
    intro fuel above _ _ h
    obtain ⟨fuel, rfl⟩ := exists_fuel h
    rw [Stmt.node, tree_generic_plain hcx fuel "BreakStatement" "break_statement"
      (snake_of_mem (by decide)) (fun _ _ _ _ => rfl) (by decide)]
    exact .pure (.text [Glyph.of "break", Glyph.of ";"] .fresh rfl rfl)
  continues span := by
    intro fuel above _ _ h
    obtain ⟨fuel, rfl⟩ := exists_fuel h
    rw [Stmt.node, tree_generic_plain hcx fuel "ContinueStatement" "continue_statement"
      (snake_of_mem (by decide)) (fun _ _ _ _ => rfl) (by decide)]
    exact .pure (.text [Glyph.of "continue", Glyph.of ";"] .fresh rfl rfl)
  expression t span := prints_expression hcx t span
  declares isConst v := prints_declares hcx isConst v
  case label ss span hss := prints_case hcx label span hss
  handler param ss inner span hss := prints_handler hcx param inner span hss

/-- Without comments, the layout of a statement spells its tokens. -/
theorem printsStmt (hcx : cx.attached = []) (s : Stmt) : PrintsStmt cx s :=
  s.induct (printsStmt_steps hcx)

end Layout

end MonkeyFormat
