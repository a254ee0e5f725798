import MonkeyFormat.Proofs.StatementSyntax

set_option autoImplicit false

/-! # Reading statements

The grammar reads the tokens that a statement is laid out as, in which all bodies are in braces, as
that statement with its bodies made blocks. -/

namespace MonkeyFormat

namespace Parse

variable {fuel fuel' : Nat} {next : Glyph → Prop}

/-! ## Parts -/

theorem unspanned_optional (n : Option Node) :
    (optional n).unspanned = optional (n.map Node.unspanned) := by
  cases n <;> rfl

theorem closes_paren : Glyph.of ")" ∈ closers := by decide

theorem closes_semicolon : Glyph.of ";" ∈ closers := by decide

theorem closes_colon : Glyph.of ":" ∈ closers := by decide

/-- The tokens that may follow an identifier with its type in a declaration. -/
theorem endsTyped_of_mem : ∀ g ∈ [Glyph.of ",", Glyph.of ";", Glyph.of ")", Glyph.of "=",
    Glyph.of "\x7b"], EndsTyped g := by
  unfold EndsTyped EndsType
  decide

/-- A condition in parentheses. -/
theorem reads_parenTest (t : Term) (hlen : (testGlyphs t).length ≤ fuel) :
    Reads (parenTest (fuel + 1)) (testGlyphs t) next t.node.unspanned := by
  rw [testGlyphs, List.length_cons, List.length_append] at hlen
  refine Takes.expect rfl (by decide) fun _ _ => ?_
  refine (reads_term t (by omega)).bind (fun n hn => ?_) fun _ _ => closes_paren
  exact Takes.expect rfl (by decide) fun _ _ => Takes.pure hn

/-- The tokens behind a variable of a declaration. -/
def EndsVariable (g : Glyph) : Prop := g = Glyph.of "," ∨ g = Glyph.of ";"

theorem EndsVariable.closes {g : Glyph} (h : EndsVariable g) : g ∈ closers := by
  rcases h with rfl | rfl <;> decide

theorem EndsVariable.endsTyped {g : Glyph} (h : EndsVariable g) :
    EndsTyped g ∧ g.kind ≠ .assign := by
  rcases h with rfl | rfl <;> exact ⟨endsTyped_of_mem _ (by decide), by decide⟩

theorem takes_atText_assign {β : Type} {f : Bool → Parse β} {goal : β → Prop} {hs : List Glyph}
    (hf : Takes (f true) (Glyph.of "=" :: hs) next goal) :
    Takes (atText .assign "=" >>= f) (Glyph.of "=" :: hs) next goal := by
  refine (takes_atText .assign "=" true).look ?_ fun _ _ => rfl
  rintro _ rfl
  exact hf

theorem takes_atText_assign_not {β : Type} {f : Bool → Parse β} {goal : β → Prop}
    {gs : List Glyph} (hnext : ∀ g, next g → (gs.headD g).kind ≠ .assign)
    (hf : Takes (f false) gs next goal) : Takes (atText .assign "=" >>= f) gs next goal := by
  refine (takes_atText .assign "=" false).look ?_ fun g hg => by
    simp only [hnext g hg, decide_false, Bool.false_and]
  rintro _ rfl
  exact hf

/-- A variable is read as what its identifier is read as, with its value. -/
theorem reads_declaratorOf {id : Node} {gs : List Glyph} {ends : Glyph → Prop} (kind : String)
    (init : Option Term) (span : Span)
    (hid : Reads (typedIdentifier (types (fuel + 1))) gs ends id.unspanned)
    (hends : ∀ g, EndsVariable g ∨ g = Glyph.of "=" → ends g)
    (hlen : ((init.map fun t => Glyph.of "=" :: t.glyphs).getD []).length ≤ fuel) :
    Reads (declarator (fuel + 1) kind) (gs ++ (init.map fun t => Glyph.of "=" :: t.glyphs).getD [])
      EndsVariable (Node.unspanned ⟨"VariableDeclarator", span, [("id", .node id),
        ("init", optional (init.map Term.node)), ("kind", .str kind)]⟩) := by
  cases init with
  | none =>
    refine hid.bind (fun n hn => ?_) fun g hg => hends g (.inl hg)
    refine takes_atText_assign_not (fun _ hg => hg.endsTyped.2) (reads_finish ?_)
    simp only [fieldsUnspanned, Value.unspanned, unspanned_optional, hn]
    rfl
  | some t =>
    have hshort : t.glyphs.length + 1 ≤ fuel := hlen
    refine hid.bind (fun n hn => ?_) fun _ _ => hends _ (.inr rfl)
    refine takes_atText_assign (Takes.advance (by decide) fun _ _ => ?_)
    have hterm : Takes (some <$> expression (fuel + 1)) t.glyphs EndsVariable fun r =>
        r.map Node.unspanned = some t.node.unspanned :=
      Takes.map ((reads_term t (by omega)).weaken (fun _ hg => hg.closes) fun _ h => h)
        fun _ h => congrArg some h
    refine hterm.last (fun r hr => reads_finish ?_) fun _ hg => hg
    simp only [fieldsUnspanned, Value.unspanned, unspanned_optional, hn, hr]
    rfl

theorem reads_declarator (d : Declarator) (kind : String) (hlen : d.glyphs.length ≤ fuel) :
    Reads (declarator (fuel + 1) kind) d.glyphs EndsVariable (d.node kind).unspanned := by
  rw [Declarator.glyphs, List.length_append] at hlen
  refine reads_declaratorOf kind d.init d.span (reads_typed d.id (by omega)) ?_ (by omega)
  rintro g (hg | rfl)
  · exact hg.endsTyped.1
  · exact endsTyped_of_mem (Glyph.of "=") (by decide)

/-- The node of a declaration of variables. -/
def declaredNode (isConst : Bool) (attrs : Option Node) (declarators : List Node) (span : Span) :
    Node :=
  ⟨"VariableDeclaration", span, [("attrs", optional attrs), ("declarations", nodes declarators),
    ("kind", .str (keyword isConst))]⟩

section Declared

variable {α : Type} {node : α → Node} {glyphs : α → List Glyph} {x : α} {xs : List α}
  {attrs target : Option Node}

/-- The tokens of declared variables, behind their attributes, are read as their declaration. -/
theorem reads_declared (isConst : Bool) (first span : Span)
    (hattrs : attrs.map Node.unspanned = target.map Node.unspanned)
    (hitem : ∀ y ∈ x :: xs, Reads (declarator (fuel + 1) (keyword isConst)) (glyphs y) EndsVariable
      (node y).unspanned) (hcount : xs.length ≤ fuel) :
    Reads (variableList (fuel + 1) first attrs)
      (Glyph.of (keyword isConst) :: [Glyph.of ","].intercalate ((x :: xs).map glyphs))
      (fun g => g = Glyph.of ";")
      (declaredNode isConst target ((x :: xs).map node) span).unspanned := by
  have hword : (Glyph.of (keyword isConst)).kind ≠ .endOfInput := by cases isConst <;> decide
  refine Takes.advance hword fun t ht => ?_
  rw [show t.text = keyword isConst from congrArg Glyph.text ht]
  dsimp only
  have hends (g : Glyph) (hg : g = Glyph.of ";") : EndsVariable g ∧ g.kind ≠ .comma := by
    subst hg
    exact ⟨.inr rfl, by decide⟩
  refine (takes_commas hitem (.inl rfl) hends (by omega)).last (fun ns hns => reads_finish ?_)
    fun _ hg => hg
  simp only [fieldsUnspanned, unspanned_optional, unspanned_nodes, hattrs, hns]
  rw [declaredNode, Node.unspanned]
  simp only [fieldsUnspanned, unspanned_optional, unspanned_nodes, List.map_map]
  rfl

/-- The tokens of declared variables with a semicolon are read as their declaration. -/
theorem reads_declaredStatement (isConst : Bool) (first span : Span)
    (hattrs : attrs.map Node.unspanned = target.map Node.unspanned)
    (hitem : ∀ y ∈ x :: xs, Reads (declarator (fuel + 1) (keyword isConst)) (glyphs y) EndsVariable
      (node y).unspanned) (hcount : xs.length ≤ fuel) :
    Reads (variablesStatement (fuel + 1) first attrs)
      (Glyph.of (keyword isConst) :: [Glyph.of ","].intercalate ((x :: xs).map glyphs) ++
        [Glyph.of ";"]) next (declaredNode isConst target ((x :: xs).map node) span).unspanned := by
  refine (reads_declared isConst first span hattrs hitem hcount).bind (fun n hn => ?_)
    fun _ _ => rfl
  refine Takes.expect rfl (by decide) fun _ _ => reads_finish ?_
  have hfields : fieldsUnspanned n.fields =
      (declaredNode isConst target ((x :: xs).map node) span).unspanned.fields := by
    rw [← hn]
    cases n
    rfl
  rw [hfields]
  rfl

end Declared

/-- Each variable of a declaration is read. -/
theorem reads_declarators (v : Variables) (isConst : Bool)
    (hlen : (v.glyphs (keyword isConst)).length ≤ fuel) :
    (∀ d ∈ v.first :: v.more, Reads (declarator (fuel + 1) (keyword isConst)) d.glyphs EndsVariable
      (d.node (keyword isConst)).unspanned) ∧ v.more.length ≤ fuel := by
  have hcount := length_intercalate ((v.first :: v.more).map Declarator.glyphs) (Glyph.of ",")
  rw [Variables.glyphs, List.length_cons] at hlen
  rw [List.length_map, List.length_cons] at hcount
  refine ⟨fun d hd => reads_declarator d _ ?_, by omega⟩
  have hle := length_le_of_mem_intercalate (Glyph.of ",")
    (List.mem_map_of_mem (f := Declarator.glyphs) hd)
  omega

/-- The tokens of a declaration of variables, behind its attributes, are read as that. -/
theorem reads_variableList (v : Variables) (isConst : Bool) (first : Span) {attrs : Option Node}
    {target : Option Node} (hattrs : attrs.map Node.unspanned = target.map Node.unspanned)
    (hlen : (v.glyphs (keyword isConst)).length ≤ fuel) :
    Reads (variableList (fuel + 1) first attrs) (v.glyphs (keyword isConst))
      (fun g => g = Glyph.of ";") (v.node (keyword isConst) target).unspanned :=
  have hitems := reads_declarators v isConst hlen
  reads_declared isConst first v.span hattrs hitems.1 hitems.2

theorem reads_variablesStatement (v : Variables) (isConst : Bool) (first : Span)
    {attrs : Option Node} {target : Option Node}
    (hattrs : attrs.map Node.unspanned = target.map Node.unspanned)
    (hlen : (v.glyphs (keyword isConst)).length ≤ fuel) :
    Reads (variablesStatement (fuel + 1) first attrs)
      (v.glyphs (keyword isConst) ++ [Glyph.of ";"]) next
      (v.node (keyword isConst) target).unspanned :=
  have hitems := reads_declarators v isConst hlen
  reads_declaredStatement isConst first v.span hattrs hitems.1 hitems.2

/-- A single expression where several may stand. -/
theorem reads_sequence (t : Term) (hlen : t.glyphs.length ≤ fuel) :
    Reads (sequence (fuel + 1)) t.glyphs (fun g => g ∈ closers ∧ g.kind ≠ .comma)
      t.node.unspanned :=
  (reads_term t hlen).last
    (fun _ hn => Takes.nextIs_not (fun _ hg => hg.2) (Takes.pure hn)) fun _ hg => hg.1

/-! ## Bodies -/

/-- The kinds of token that a statement may start with. -/
def statementStarts : List TokenKind :=
  [.leftBrace, .ifWord, .whileWord, .doWord, .forWord, .switch, .tryWord, .returnWord, .throwWord,
    .breakWord, .continueWord, .var, .const, .ident]

theorem headD_stmt (s : Stmt) (g : Glyph) : (s.glyphs.headD g).kind ∈ statementStarts := by
  cases s with
  | expression t span =>
    rw [Stmt.glyphs, headD_append, t.headD_glyphs]
    decide
  | declares isConst v =>
    cases isConst <;> exact List.elem_iff.1 rfl
  | _ => exact List.elem_iff.1 rfl

theorem length_stmt_pos (s : Stmt) : 0 < s.glyphs.length := by
  cases s <;> simp [Stmt.glyphs, bracedGlyphs, Variables.glyphs]

/-- May the token follow a statement without becoming part of it? -/
def EndsStatement (g : Glyph) : Prop :=
  g.kind ≠ .elseWord ∧ g.kind ≠ .catchWord ∧ g.kind ≠ .finallyWord

theorem endsStatement_of_start {g : Glyph} (h : g.kind ∈ statementStarts) : EndsStatement g := by
  have hall : ∀ k ∈ statementStarts, k ≠ .elseWord ∧ k ≠ .catchWord ∧ k ≠ .finallyWord := by
    decide
  exact hall _ h

theorem endsStatement_brace : EndsStatement (Glyph.of "\x7d") := by
  unfold EndsStatement
  decide

/-- The grammar reads the tokens of the statement as that statement with its bodies made blocks. A
block ends with its brace, whatever follows. -/
def ReadsStmt (s : Stmt) : Prop :=
  ∀ fuel, s.glyphs.length ≤ fuel → Reads (statement (fuel + 1)) s.glyphs
    (fun g => s.isBlock = true ∨ EndsStatement g) (s.node .settled).unspanned

theorem length_le_flatMap {α : Type} {glyphs : α → List Glyph} {x : α} {xs : List α}
    (h : x ∈ xs) : (glyphs x).length ≤ (xs.flatMap glyphs).length := by
  obtain ⟨as, bs, rfl⟩ := List.append_of_mem h
  simp only [List.flatMap_append, List.flatMap_cons, List.length_append]
  omega

theorem length_flatMap {α : Type} {glyphs : α → List Glyph} (xs : List α)
    (h : ∀ x ∈ xs, 0 < (glyphs x).length) : xs.length ≤ (xs.flatMap glyphs).length := by
  induction xs with
  | nil => exact Nat.le_refl _
  | cons x xs ih =>
    rw [List.forall_mem_cons] at h
    have hrest := ih h.2
    have hfirst := h.1
    rw [List.flatMap_cons, List.length_append, List.length_cons]
    omega

theorem reads_block {ss : List Stmt} (hss : ∀ s ∈ ss, ReadsStmt s)
    (hlen : (stmtGlyphs ss).length ≤ fuel) (hfuel : (stmtGlyphs ss).length < fuel') (span : Span) :
    Reads (block fuel' (statement (fuel + 1))) (bracedGlyphs (stmtGlyphs ss)) next
      (blockNode (stmtNodes .settled ss) span).unspanned := by
  rw [stmtGlyphs_eq] at hlen hfuel ⊢
  have hcount := length_flatMap ss fun s _ => length_stmt_pos s
  have hitem : ∀ s ∈ ss, Reads (statement (fuel + 1)) s.glyphs EndsStatement
      (s.node .settled).unspanned := fun s hs =>
    (hss s hs fuel (Nat.le_trans (length_le_flatMap hs) hlen)).weaken (fun _ hg => .inr hg)
      fun _ hn => hn
  have hstart (s : Stmt) (g : Glyph) : (((s.glyphs).headD g).kind ≠ .rightBrace ∧
      ((s.glyphs).headD g).kind ≠ .endOfInput) ∧ EndsStatement (s.glyphs.headD g) := by
    have hkinds : ∀ k ∈ statementStarts, k ≠ .rightBrace ∧ k ≠ .endOfInput := by decide
    exact ⟨hkinds _ (headD_stmt s g), endsStatement_of_start (headD_stmt s g)⟩
  refine Takes.expect rfl (by decide) fun _ _ => ?_
  refine (takes_bodyUntilBrace hitem (fun s _ g => hstart s g) endsStatement_brace (by omega)).last
    (fun ns hns => reads_finish ?_) fun _ hg => hg
  simp only [fieldsUnspanned, unspanned_nodes, hns]
  rw [blockNode, Node.unspanned, stmtNodes_eq]
  simp only [fieldsUnspanned, unspanned_nodes, List.map_map]
  rfl

theorem statement_block (fuel : Nat) {gs : List Glyph} {target : Node}
    (h : Reads (block (fuel + 1) (statement fuel)) (bracedGlyphs gs) next target) :
    Reads (statement (fuel + 1)) (bracedGlyphs gs) next target :=
  Takes.peek fun t ht => by
    rw [show t.kind = .leftBrace from congrArg Glyph.kind ht]
    exact h

theorem ReadsStmt.wrapped {s : Stmt} (h : ReadsStmt s) (hblock : s.isBlock = false)
    (hlen : (bracedGlyphs s.glyphs).length ≤ fuel) :
    Reads (statement (fuel + 1)) (bracedGlyphs s.glyphs) next
      (Parentheses.wrapBody (s.node .settled)).unspanned := by
  have hkind : (s.node .settled).kind ≠ "BlockStatement" := by
    rw [Ne, kind_stmt_block, hblock]
    decide
  have hglyphs : stmtGlyphs [s] = s.glyphs := List.append_nil _
  rw [bracedGlyphs, List.length_cons, List.length_append] at hlen
  obtain ⟨fuel, rfl⟩ : ∃ m, fuel = m + 1 := ⟨fuel - 1, by omega⟩
  refine statement_block (fuel + 1) ?_
  rw [Parentheses.wrapBody, if_neg hkind, ← hglyphs]
  refine reads_block ?_ ?_ ?_ _
  · simpa using h
  · rw [hglyphs]
    omega
  · rw [hglyphs]
    omega

/-- The body of a choice or a loop, in braces. -/
theorem ReadsStmt.body {s : Stmt} (h : ReadsStmt s)
    (hlen : (bodyGlyphs s.isBlock s.glyphs).length ≤ fuel) :
    Reads (statement (fuel + 1)) (bodyGlyphs s.isBlock s.glyphs) next
      (Parentheses.wrapBody (s.node .settled)).unspanned := by
  cases hblock : s.isBlock with
  | true =>
    rw [hblock] at hlen
    rw [Parentheses.wrapBody, if_pos ((kind_stmt_block _ s).2 hblock)]
    exact (h fuel hlen).weaken (fun _ _ => .inl hblock) fun _ hn => hn
  | false =>
    rw [hblock] at hlen
    exact h.wrapped hblock hlen

/-- The second branch of a choice, in braces unless it is a choice itself. -/
theorem ReadsStmt.alternate {s : Stmt} (h : ReadsStmt s)
    (hlen : (bodyGlyphs (s.isBlock || s.isChoice) s.glyphs).length ≤ fuel) :
    Reads (statement (fuel + 1)) (bodyGlyphs (s.isBlock || s.isChoice) s.glyphs) EndsStatement
      (Rewriting.wrapAlternate (s.node .settled)).unspanned := by
  cases hchoice : s.isChoice with
  | true =>
    rw [hchoice, Bool.or_true] at hlen
    rw [Rewriting.wrapAlternate, if_pos ((kind_stmt_choice _ s).2 hchoice), Bool.or_true]
    exact (h fuel hlen).weaken (fun _ hg => .inr hg) fun _ hn => hn
  | false =>
    have hkind : (s.node .settled).kind ≠ "IfStatement" := by
      rw [Ne, kind_stmt_choice, hchoice]
      decide
    rw [hchoice, Bool.or_false] at hlen
    rw [Rewriting.wrapAlternate, if_neg hkind, Bool.or_false]
    exact h.body hlen

/-! ## Choices and loops -/

section Bodies

variable {s : Stmt}

theorem reads_ifThen (test : Term) (span : Span) (hs : ReadsStmt s) :
    ReadsStmt (.ifThen test s span) := by
  intro fuel hlen
  rw [Stmt.glyphs, List.length_cons, List.length_append] at hlen
  obtain ⟨fuel, rfl⟩ : ∃ m, fuel = m + 1 := ⟨fuel - 1, by omega⟩
  refine Takes.peek fun t ht => ?_
  rw [show t.kind = .ifWord from congrArg Glyph.kind ht]
  refine Takes.advance (by decide) fun _ _ => ?_
  have htest : Reads (parenTest (fuel + 2)) _ (fun _ => True) _ := reads_parenTest test (by omega)
  have hbody : Reads (statement (fuel + 1)) _ (fun _ => True) _ := hs.body (by omega)
  refine htest.bind (fun n hn => ?_) fun _ _ => trivial
  refine hbody.last (fun c hc => ?_) fun _ _ => trivial
  refine Takes.skip_none (fun g hg => ?_) (reads_finish ?_)
  · rcases hg with hg | hg
    · cases hg
    · exact hg.1
  · simp only [fieldsUnspanned, Value.unspanned, hn, hc]
    rfl

theorem reads_ifElse (test : Term) (span : Span) {a : Stmt} (hs : ReadsStmt s)
    (ha : ReadsStmt a) : ReadsStmt (.ifElse test s a span) := by
  intro fuel hlen
  rw [Stmt.glyphs, List.length_cons, List.length_append, List.length_append,
    List.length_cons] at hlen
  obtain ⟨fuel, rfl⟩ : ∃ m, fuel = m + 1 := ⟨fuel - 1, by omega⟩
  refine Takes.peek fun t ht => ?_
  rw [show t.kind = .ifWord from congrArg Glyph.kind ht]
  refine Takes.advance (by decide) fun _ _ => ?_
  have htest : Reads (parenTest (fuel + 2)) _ (fun _ => True) _ := reads_parenTest test (by omega)
  have hbody : Reads (statement (fuel + 1)) _ (fun _ => True) _ := hs.body (by omega)
  have helse : Takes (some <$> statement (fuel + 1)) _ EndsStatement fun r =>
      r.map Node.unspanned = some (Rewriting.wrapAlternate (a.node .settled)).unspanned :=
    Takes.map (ha.alternate (by omega)) fun _ h => congrArg some h
  refine htest.bind (fun n hn => ?_) fun _ _ => trivial
  refine hbody.bind (fun c hc => ?_) fun _ _ => trivial
  refine Takes.skip rfl (by decide) ?_
  refine helse.last (fun r hr => reads_finish ?_) fun g hg => ?_
  · simp only [fieldsUnspanned, Value.unspanned, unspanned_optional, hn, hc, hr]
    rfl
  · rcases hg with hg | hg
    · cases hg
    · exact hg

theorem reads_whileLoop (test : Term) (span : Span) (hs : ReadsStmt s) :
    ReadsStmt (.whileLoop test s span) := by
  intro fuel hlen
  rw [Stmt.glyphs, List.length_cons, List.length_append] at hlen
  obtain ⟨fuel, rfl⟩ : ∃ m, fuel = m + 1 := ⟨fuel - 1, by omega⟩
  refine Takes.peek fun t ht => ?_
  rw [show t.kind = .whileWord from congrArg Glyph.kind ht]
  refine Takes.advance (by decide) fun _ _ => ?_
  have htest : Reads (parenTest (fuel + 2)) _ (fun _ => True) _ := reads_parenTest test (by omega)
  have hbody : Reads (statement (fuel + 1)) _ (fun _ => True) _ := hs.body (by omega)
  refine htest.bind (fun n hn => ?_) fun _ _ => trivial
  refine hbody.last (fun c hc => reads_finish ?_) fun _ _ => trivial
  simp only [fieldsUnspanned, Value.unspanned, hn, hc]
  rfl

theorem reads_doLoop (test : Term) (span : Span) (hs : ReadsStmt s) :
    ReadsStmt (.doLoop s test span) := by
  intro fuel hlen
  rw [Stmt.glyphs, List.length_cons, List.length_append, List.length_cons,
    List.length_append] at hlen
  obtain ⟨fuel, rfl⟩ : ∃ m, fuel = m + 1 := ⟨fuel - 1, by omega⟩
  refine Takes.peek fun t ht => ?_
  rw [show t.kind = .doWord from congrArg Glyph.kind ht]
  refine Takes.advance (by decide) fun _ _ => ?_
  have htest : Reads (parenTest (fuel + 2)) _ (fun _ => True) _ := reads_parenTest test (by omega)
  have hbody : Reads (statement (fuel + 1)) _ (fun _ => True) _ := hs.body (by omega)
  refine hbody.bind (fun c hc => ?_) fun _ _ => trivial
  refine Takes.expect rfl (by decide) fun _ _ => ?_
  refine htest.bind (fun n hn => ?_) fun _ _ => trivial
  refine Takes.expect rfl (by decide) fun _ _ => reads_finish ?_
  simp only [fieldsUnspanned, Value.unspanned, hn, hc]
  rfl

end Bodies

/-! ## Loops with a header -/

section Headers

variable {goal : Node → Prop} {hs : List Glyph} {jp : Option Node → Parse Node}

/-- The first part of a header, up to its semicolon. -/
theorem Takes.header (h : Header) (hlen : h.glyphs.length ≤ fuel)
    (hjp : ∀ r, r.map Node.unspanned = h.node?.map Node.unspanned →
      Takes (jp r) (Glyph.of ";" :: hs) next goal) :
    Takes (current >>= fun t =>
      if t.kind = .var then some <$> variableList (fuel + 1) t.span none >>= jp
      else if t.kind = .semicolon then Pure.pure none >>= jp
      else some <$> sequence (fuel + 1) >>= jp) (h.glyphs ++ Glyph.of ";" :: hs) next goal := by
  refine (takes_current (· = (h.glyphs ++ Glyph.of ";" :: hs).headD (Glyph.of ";"))).look
    (fun t ht => ?_) fun g _ => ?_
  · have hkind : t.kind = ((h.glyphs ++ Glyph.of ";" :: hs).headD (Glyph.of ";")).kind :=
      congrArg Glyph.kind ht
    cases h with
    | none =>
      rw [show t.kind = .semicolon from hkind]
      exact hjp none rfl
    | term e =>
      have hident : t.kind = .ident := by
        rw [hkind, headD_append]
        exact e.headD_glyphs _
      have hsequence : Takes (some <$> sequence (fuel + 1)) e.glyphs (fun g => g = Glyph.of ";")
          fun r => r.map Node.unspanned = some e.node.unspanned :=
        Takes.map ((reads_sequence e hlen).weaken (by rintro _ rfl; decide) fun _ hn => hn)
          fun _ hn => congrArg some hn
      rw [hident]
      exact hsequence.bind hjp fun _ _ => rfl
    | declares v =>
      have hvariables : Takes (some <$> variableList (fuel + 1) t.span none) (v.glyphs "var")
          (fun g => g = Glyph.of ";")
          fun r => r.map Node.unspanned = some (v.node "var" none).unspanned :=
        Takes.map (reads_variableList v false t.span
          (show (none : Option Node).map Node.unspanned = Option.map Node.unspanned none from rfl)
          hlen) fun _ hn => congrArg some hn
      rw [show t.kind = .var from hkind]
      exact hvariables.bind hjp fun _ _ => rfl
  · rw [headD_append, headD_append]
    rfl

/-- An expression that may be absent, up to a closing token. -/
theorem Takes.optionTerm {last : Glyph} {m : Parse Node} (close : TokenKind) (t : Option Term)
    (hlast : last.kind = close) (hident : close ≠ .ident)
    (hm : ∀ e, t = some e → Reads m e.glyphs (fun g => g = last) e.node.unspanned)
    (hjp : ∀ r, r.map Node.unspanned = (t.map Term.node).map Node.unspanned →
      Takes (jp r) (last :: hs) next goal) :
    Takes (Parse.nextIs close >>= fun b =>
      if b = true then Pure.pure none >>= jp else some <$> m >>= jp)
      (optionGlyphs t ++ last :: hs) next goal := by
  cases t with
  | none => exact Takes.nextIs hlast (hjp none rfl)
  | some e =>
    have hsome : Takes (some <$> m) e.glyphs (fun g => g = last)
        fun r => r.map Node.unspanned = some e.node.unspanned :=
      Takes.map (hm e rfl) fun _ hn => congrArg some hn
    refine Takes.nextIs_not (fun g _ => ?_) (hsome.bind hjp fun _ _ => rfl)
    change ((e.glyphs ++ last :: hs).headD g).kind ≠ close
    rw [headD_append, e.headD_glyphs]
    exact hident.symm

end Headers

theorem reads_forLoop (init : Header) (test update : Option Term) (span : Span) {s : Stmt}
    (hs : ReadsStmt s) : ReadsStmt (.forLoop init test update s span) := by
  intro fuel hlen
  simp only [Stmt.glyphs, List.length_cons, List.length_append] at hlen
  obtain ⟨fuel, rfl⟩ : ∃ m, fuel = m + 1 := ⟨fuel - 1, by omega⟩
  have hlength (t : Option Term) (e : Term) (h : t = some e) :
      e.glyphs.length = (optionGlyphs t).length := by
    rw [h]
    rfl
  have hbody : Reads (statement (fuel + 1)) _ (fun _ => True) _ := hs.body (by omega)
  refine Takes.peek fun t ht => ?_
  rw [show t.kind = .forWord from congrArg Glyph.kind ht]
  refine Takes.advance (by decide) fun _ _ => ?_
  refine Takes.expect rfl (by decide) fun _ _ => ?_
  refine Takes.header init (by omega) fun i hi => ?_
  refine Takes.expect rfl (by decide) fun _ _ => ?_
  refine Takes.optionTerm .semicolon test rfl (by decide) (fun e he => ?_) fun c hc => ?_
  · refine (reads_term e ?_).weaken (by rintro _ rfl; exact closes_semicolon) fun _ hn => hn
    rw [hlength test e he]
    omega
  refine Takes.expect rfl (by decide) fun _ _ => ?_
  refine Takes.optionTerm .rightParen update rfl (by decide) (fun e he => ?_) fun u hu => ?_
  · refine (reads_sequence e ?_).weaken (by rintro _ rfl; decide) fun _ hn => hn
    rw [hlength update e he]
    omega
  refine Takes.expect rfl (by decide) fun _ _ => ?_
  refine hbody.last (fun n hn => reads_finish ?_) fun _ _ => trivial
  simp only [fieldsUnspanned, Value.unspanned, unspanned_optional, hi, hc, hu, hn]
  rw [Stmt.node, Node.unspanned]
  simp only [fieldsUnspanned, Value.unspanned, unspanned_optional]
  rfl

/-! ## Cases -/

/-- The kinds of token that end a case. -/
def caseEnds : List TokenKind := [.case, .default, .rightBrace, .endOfInput]

/-- The grammar reads the tokens of the case as that case with bodies made blocks. -/
def ReadsCase (c : Case) : Prop :=
  ∀ fuel fuel', c.glyphs.length ≤ fuel → c.glyphs.length < fuel' →
    Reads (switchCase fuel' (statement (fuel + 1))) c.glyphs (fun g => g.kind ∈ caseEnds)
      (c.node .settled).unspanned

theorem endsStatement_of_caseEnds {g : Glyph} (h : g.kind ∈ caseEnds) : EndsStatement g := by
  have hall : ∀ k ∈ caseEnds, k ≠ .elseWord ∧ k ≠ .catchWord ∧ k ≠ .finallyWord := by decide
  exact hall _ h

/-- A case behind what it compares with. -/
theorem reads_case_rest {ss : List Stmt} (hss : ∀ s ∈ ss, ReadsStmt s) (label : Label)
    (first span : Span) {r : Option Node}
    (hr : r.map Node.unspanned = label.node?.map Node.unspanned)
    (hlen : (stmtGlyphs ss).length ≤ fuel) (hfuel : (stmtGlyphs ss).length < fuel') :
    Reads (do
      let _ ← expect .colon "':' after case label"
      let ns ← many fuel' (atAny [.case, .default, .rightBrace, .endOfInput]) (statement (fuel + 1))
      finish "SwitchCase" first [("test", optional r), ("consequent", nodes ns)])
      (Glyph.of ":" :: stmtGlyphs ss) (fun g => g.kind ∈ caseEnds)
      (Case.node .settled ⟨label, ss, span⟩).unspanned := by
  rw [stmtGlyphs_eq] at hlen hfuel ⊢
  have hcount := length_flatMap ss fun s _ => length_stmt_pos s
  have hitem : ∀ s ∈ ss, Reads (statement (fuel + 1)) s.glyphs EndsStatement
      (s.node .settled).unspanned := fun s hs =>
    (hss s hs fuel (Nat.le_trans (length_le_flatMap hs) hlen)).weaken (fun _ hg => .inr hg)
      fun _ hn => hn
  have hgo : Takes (atAny caseEnds) [] (fun g => g.kind ∈ statementStarts) (· = false) := by
    have hkinds : ∀ k ∈ statementStarts, caseEnds.contains k = false := by decide
    exact (takes_atAny _ _).weaken (fun g hg => hkinds _ hg) fun _ h => h
  have hend : Takes (atAny caseEnds) [] (fun g => g.kind ∈ caseEnds) (· = true) :=
    (takes_atAny _ _).weaken (fun g hg => List.elem_iff.2 hg) fun _ h => h
  refine Takes.expect rfl (by decide) fun _ _ => ?_
  refine (takes_many hgo hend hitem (fun s _ g => headD_stmt s g) ?_ (by omega)).last
    (fun ns hns => reads_finish ?_) fun _ hg => hg
  · rintro g (hg | hg)
    · exact endsStatement_of_start hg
    · exact endsStatement_of_caseEnds hg
  · simp only [fieldsUnspanned, unspanned_optional, unspanned_nodes, hns, hr]
    rw [Case.node, Node.unspanned, stmtNodes_eq]
    simp only [fieldsUnspanned, unspanned_optional, unspanned_nodes, List.map_map]
    rfl

theorem reads_case (label : Label) {ss : List Stmt} (span : Span) (hss : ∀ s ∈ ss, ReadsStmt s) :
    ReadsCase ⟨label, ss, span⟩ := by
  intro fuel fuel' hlen hfuel
  rw [Case.glyphs, List.length_append] at hlen hfuel
  rw [Case.glyphs]
  have hrest (first : Span) {r : Option Node}
      (hr : r.map Node.unspanned = label.node?.map Node.unspanned) :=
    reads_case_rest hss label first span hr (by omega : (stmtGlyphs ss).length ≤ fuel)
      (by omega : (stmtGlyphs ss).length < fuel')
  cases label with
  | default =>
    refine Takes.peek fun t ht => ?_
    rw [show t.kind = .default from congrArg Glyph.kind ht]
    exact Takes.advance (by decide) fun _ _ => hrest t.span rfl
  | value e =>
    rw [Label.glyphs, List.length_cons, List.length_append] at hfuel
    obtain ⟨fuel', rfl⟩ : ∃ m, fuel' = m + 1 := ⟨fuel' - 1, by omega⟩
    have hterm : Takes (some <$> caseTest (fuel' + 1)) e.glyphs (fun g => g = Glyph.of ":")
        fun r => r.map Node.unspanned = some e.node.unspanned := by
      refine Takes.map ?_ fun _ hn => congrArg some hn
      refine (takes_accept_none .instanceOf).look ?_ fun g _ => ?_
      · rintro _ rfl
        exact (reads_term e (by omega)).weaken (by rintro _ rfl; exact closes_colon) fun _ hn => hn
      · rw [e.headD_glyphs]
        decide
    rw [Label.glyphs, List.cons_append, List.append_assoc]
    refine Takes.peek fun t ht => ?_
    rw [show t.kind = .case from congrArg Glyph.kind ht]
    refine Takes.advance (by decide) fun _ _ => ?_
    exact hterm.bind (fun r hr => hrest t.span hr) fun _ _ => rfl
  | instanceOf c inner =>
    rw [Label.glyphs, List.length_cons, List.length_cons, List.length_append] at hfuel
    have htest : Reads (caseTest fuel') (Glyph.of "instanceof" :: c.glyphs)
        (fun g => g = Glyph.of ":")
        (.bare "InstanceOfCase" [("id", .node c.node.unspanned)]) := by
      have haccept : Takes (accept .instanceOf) [Glyph.of "instanceof"] (fun _ => True) _ :=
        takes_accept rfl (by decide)
      refine haccept.bind ?_ fun _ _ => trivial
      rintro _ ⟨t, rfl, _⟩
      refine (reads_scopedName c (by omega)).last (fun n hn => reads_finish ?_) ?_
      · simp only [fieldsUnspanned, Value.unspanned, hn]
      · rintro _ rfl
        decide
    have hclass : Takes (some <$> caseTest fuel') (Glyph.of "instanceof" :: c.glyphs)
        (fun g => g = Glyph.of ":")
        fun r => r.map Node.unspanned = (Label.instanceOf c inner).node?.map Node.unspanned :=
      Takes.map htest fun _ hn => congrArg some hn
    rw [Label.glyphs, List.cons_append, List.cons_append, List.append_assoc, ← List.cons_append]
    refine Takes.peek fun t ht => ?_
    rw [show t.kind = .case from congrArg Glyph.kind ht]
    refine Takes.advance (by decide) fun _ _ => ?_
    exact hclass.bind (fun r hr => hrest t.span hr) fun _ _ => rfl

theorem headD_case (c : Case) (g : Glyph) :
    (c.glyphs.headD g).kind ∈ [TokenKind.case, .default] := by
  obtain ⟨label, ss, span⟩ := c
  cases label <;> exact List.elem_iff.1 rfl

theorem length_case_pos (c : Case) : 0 < c.glyphs.length := by
  obtain ⟨label, ss, span⟩ := c
  cases label <;> simp [Case.glyphs, Label.glyphs]

theorem reads_switch (discriminant : Term) {cs : List Case} (span : Span)
    (hcs : ∀ c ∈ cs, ReadsCase c) : ReadsStmt (.switch discriminant cs span) := by
  intro fuel hlen
  rw [Stmt.glyphs, List.length_cons, List.length_append, bracedGlyphs, List.length_cons,
    List.length_append, caseGlyphs_eq] at hlen
  rw [Stmt.glyphs, bracedGlyphs, caseGlyphs_eq]
  obtain ⟨fuel, rfl⟩ : ∃ m, fuel = m + 1 := ⟨fuel - 1, by omega⟩
  have hcount := length_flatMap cs fun c _ => length_case_pos c
  have htest : Reads (parenTest (fuel + 2)) _ (fun _ => True) _ :=
    reads_parenTest discriminant (by omega)
  have hitem (c : Case) (hc : c ∈ cs) : Reads (switchCase (fuel + 2) (statement (fuel + 1)))
      c.glyphs (fun g => g.kind ∈ caseEnds) (c.node .settled).unspanned := by
    have hle : c.glyphs.length ≤ (cs.flatMap Case.glyphs).length := length_le_flatMap hc
    exact hcs c hc fuel (fuel + 2) (by omega) (by omega)
  have hkinds : ∀ k ∈ [TokenKind.case, .default], k ≠ .rightBrace ∧ k ∈ caseEnds := by decide
  have hgo : Takes (nextIs .rightBrace) [] (fun g => g.kind ∈ [TokenKind.case, .default])
      (· = false) :=
    (takes_nextIs _ _).weaken (fun g hg => decide_eq_false (hkinds _ hg).1) fun _ h => h
  have hend : Takes (nextIs .rightBrace) [] (fun g => g = Glyph.of "\x7d") (· = true) :=
    (takes_nextIs _ _).weaken (by rintro _ rfl; rfl) fun _ h => h
  refine Takes.peek fun t ht => ?_
  rw [show t.kind = .switch from congrArg Glyph.kind ht]
  refine Takes.advance (by decide) fun _ _ => ?_
  refine htest.bind (fun n hn => ?_) fun _ _ => trivial
  refine Takes.expect rfl (by decide) fun _ _ => ?_
  refine (takes_many hgo hend hitem (fun c _ g => headD_case c g) ?_ (by omega)).bind
    (fun ns hns => ?_) fun _ _ => rfl
  · rintro g (hg | rfl)
    · exact (hkinds _ hg).2
    · decide
  refine Takes.expect rfl (by decide) fun _ _ => reads_finish ?_
  simp only [fieldsUnspanned, Value.unspanned, unspanned_nodes, hns, hn]
  rw [Stmt.node, Node.unspanned, caseNodes_eq]
  simp only [fieldsUnspanned, Value.unspanned, unspanned_nodes, List.map_map]
  rfl

/-! ## Handlers -/

/-- The grammar reads the tokens of the handler as that handler with bodies made blocks. -/
def ReadsHandler (h : Handler) : Prop :=
  ∀ fuel fuel', h.glyphs.length ≤ fuel → h.glyphs.length < fuel' →
    Reads (catchClause fuel' (statement (fuel + 1))) h.glyphs (fun _ => True)
      (h.node .settled).unspanned

theorem reads_catchParam_name (x : Name) (fuel : Nat) :
    Reads (catchParam fuel) [x.glyph] (fun g => g = Glyph.of ")") (x.node {}) := by
  refine (reads_identifier x).last (fun n hn => ?_) fun _ hg => hg
  refine Takes.skip_none ?_ (Takes.pure hn)
  rintro _ rfl
  decide

theorem reads_catchParam_instanceOf (x : Name) (c : DottedName) (h : c.glyphs.length ≤ fuel)
    (first span : Span) :
    Reads (catchParam fuel) (x.glyph :: Glyph.of "instanceof" :: c.glyphs)
      (fun g => g = Glyph.of ")") (Operation.test (.name x first) c span).node.unspanned := by
  have hname : Reads identifier [x.glyph] (fun _ => True) _ := reads_identifier x
  refine hname.bind (fun n hn => ?_) fun _ _ => trivial
  refine Takes.skip rfl (by decide) ?_
  refine (reads_scopedName c h).last (fun m hm => reads_finish ?_) ?_
  · simp only [fieldsUnspanned, Value.unspanned, hn, hm]
    rfl
  · rintro _ rfl
    decide

theorem reads_handler (param : Param) {ss : List Stmt} (inner span : Span)
    (hss : ∀ s ∈ ss, ReadsStmt s) : ReadsHandler ⟨param, ss, inner, span⟩ := by
  intro fuel fuel' hlen hfuel
  rw [Handler.glyphs, List.length_cons, List.length_append, bracedGlyphs, List.length_cons,
    List.length_append] at hlen hfuel
  have hblock : Reads (block fuel' (statement (fuel + 1))) _ (fun _ => True) _ :=
    reads_block hss (by omega) (by omega) inner
  -- what stands behind the parameter is the same for all of them
  have hrest (first : Span) {r : Option Node}
      (hr : r.map Node.unspanned = param.node?.map Node.unspanned) :
      Reads (do
        let body ← block fuel' (statement (fuel + 1))
        finish "CatchClause" first [("param", optional r), ("body", .node body)])
        (bracedGlyphs (stmtGlyphs ss)) (fun _ => True)
        (Handler.node .settled ⟨param, ss, inner, span⟩).unspanned := by
    refine hblock.last (fun n hn => reads_finish ?_) fun _ hg => hg
    simp only [fieldsUnspanned, Value.unspanned, unspanned_optional, hn, hr]
    rw [Handler.node, Node.unspanned]
    simp only [fieldsUnspanned, Value.unspanned, unspanned_optional]
    rfl
  rw [Handler.glyphs]
  refine Takes.advance (by decide) fun t _ => ?_
  cases param with
  | none => exact Takes.skip_none (fun _ _ => show TokenKind.leftBrace ≠ _ by decide) (hrest _ rfl)
  | name x inner =>
    refine Takes.skip rfl (by decide) ?_
    refine (reads_catchParam_name x fuel').bind (fun n hn => ?_) fun _ _ => rfl
    exact Takes.expect rfl (by decide) fun _ _ => hrest t.span (congrArg some hn)
  | instanceOf x first c inner =>
    rw [Param.glyphs, List.length_cons, List.length_append, List.length_cons,
      List.length_cons] at hfuel
    have hparam := reads_catchParam_instanceOf x c (by omega : c.glyphs.length ≤ fuel') first inner
    rw [Param.glyphs, List.cons_append, List.append_assoc]
    refine Takes.skip rfl (by decide) ?_
    refine hparam.bind (fun n hn => ?_) fun _ _ => rfl
    exact Takes.expect rfl (by decide) fun _ _ => hrest t.span (congrArg some hn)

/-- The handlers as one node depend on theirs without spans only. -/
theorem unspanned_handlers {ns ms : List Node}
    (h : ns.map Node.unspanned = ms.map Node.unspanned) :
    (handlers ns).map Node.unspanned = (handlers ms).map Node.unspanned := by
  match ns, ms, h with
  | [], [], _ => rfl
  | [n], [m], h => exact congrArg some (List.cons.inj h).1
  | n :: n' :: ns, m :: m' :: ms, h =>
    simp only [handlers, Option.map_some, spanning, Node.unspanned, fieldsUnspanned,
      unspanned_nodes, h]
  | [n], m :: m' :: ms, h => simp at h
  | n :: n' :: ns, [m], h => simp at h

theorem headD_handler (h : Handler) (g : Glyph) : h.glyphs.headD g = Glyph.of "catch" := by
  cases h
  rfl

theorem length_handler_pos (h : Handler) : 0 < h.glyphs.length := by
  cases h
  exact Nat.succ_pos _

theorem takes_catches {hs : List Handler} (hhs : ∀ h ∈ hs, ReadsHandler h)
    (hlen : (handlerGlyphs hs).length ≤ fuel) (hfuel : (handlerGlyphs hs).length < fuel') :
    Takes (many fuel' (do pure !(← nextIs .catchWord)) (catchClause fuel' (statement (fuel + 1))))
      (handlerGlyphs hs) (fun g => g.kind ≠ .catchWord)
      fun ns => ns.map Node.unspanned = (handlerNodes .settled hs).map Node.unspanned := by
  rw [handlerGlyphs_eq] at hlen hfuel ⊢
  have hcount := length_flatMap hs fun h _ => length_handler_pos h
  have hitem (h : Handler) (hh : h ∈ hs) : Reads (catchClause fuel' (statement (fuel + 1)))
      h.glyphs (fun _ => True) (h.node .settled).unspanned := by
    have hle : h.glyphs.length ≤ (hs.flatMap Handler.glyphs).length := length_le_flatMap hh
    exact hhs h hh fuel fuel' (by omega) (by omega)
  have hgo : Takes (do pure !(← nextIs .catchWord)) [] (fun g => g = Glyph.of "catch")
      (· = false) := by
    refine (takes_nextIs .catchWord true).look ?_ fun g hg => ?_
    · rintro _ rfl
      exact Takes.pure rfl
    · rw [List.headD_nil, hg]
      rfl
  have hend : Takes (do pure !(← nextIs .catchWord)) [] (fun g => g.kind ≠ .catchWord)
      (· = true) := by
    refine (takes_nextIs .catchWord false).look ?_ fun g hg => decide_eq_false hg
    rintro _ rfl
    exact Takes.pure rfl
  refine (takes_many hgo hend hitem (fun h _ g => headD_handler h g) (fun _ _ => trivial)
    (by omega)).weaken (fun _ hg => hg) fun ns hns => ?_
  rw [hns, handlerNodes_eq, List.map_map]
  rfl

/-- The node of a final block, if there is one. -/
def finalNode (last : Option (List Stmt × Span)) : Option Node :=
  last.map fun b => blockNode (stmtNodes .settled b.1) b.2

theorem takes_final {last : Option (List Stmt × Span)} (hlast : ∀ b ∈ last, ∀ s ∈ b.1, ReadsStmt s)
    (hlen : (finalGlyphs last).length ≤ fuel) (hfuel : (finalGlyphs last).length < fuel')
    {jp : Option Node → Parse Node} {goal : Node → Prop}
    (hjp : ∀ r, r.map Node.unspanned = (finalNode last).map Node.unspanned →
      Takes (jp r) [] EndsStatement goal) :
    Takes (skip .finallyWord >>= fun b =>
      if b = true then some <$> block fuel' (statement (fuel + 1)) >>= jp else pure none >>= jp)
      (finalGlyphs last) EndsStatement goal := by
  cases last with
  | none => exact Takes.skip_none (fun _ hg => hg.2.2) (hjp none rfl)
  | some b =>
    have hlength : (finalGlyphs (some b)).length = (stmtGlyphs b.1).length + 3 := by
      simp [finalGlyphs, bracedGlyphs]
    have hblock : Takes (some <$> block fuel' (statement (fuel + 1)))
        (bracedGlyphs (stmtGlyphs b.1)) EndsStatement
        fun r => r.map Node.unspanned = (finalNode (some b)).map Node.unspanned :=
      Takes.map (reads_block (hlast b rfl) (by omega) (by omega) b.2)
        fun _ hn => congrArg some hn
    exact Takes.skip rfl (by decide) (hblock.last hjp fun _ hg => hg)

theorem isNone_of_unspanned {r q : Option Node}
    (h : r.map Node.unspanned = q.map Node.unspanned) : r.isNone = q.isNone := by
  simpa using congrArg Option.isNone h

theorem isNone_try {hs : List Handler} {last : Option (List Stmt × Span)}
    (h : hs ≠ [] ∨ last.isSome = true) :
    ((handlers (handlerNodes .settled hs)).isNone && (finalNode last).isNone) = false := by
  cases hs with
  | nil =>
    obtain ⟨b, rfl⟩ := Option.isSome_iff_exists.1 (h.resolve_left fun hnil => hnil rfl)
    exact Bool.and_false _
  | cons k ks => cases ks <;> rfl

/-- A guarded block with handlers or a final block. -/
theorem reads_try {ss : List Stmt} (hs : List Handler) (last : Option (List Stmt × Span))
    (hss : ∀ s ∈ ss, ReadsStmt s) (hhs : ∀ h ∈ hs, ReadsHandler h)
    (hlast : ∀ b ∈ last, ∀ s ∈ b.1, ReadsStmt s) (hsome : hs ≠ [] ∨ last.isSome = true)
    (inner span : Span)
    (hlen : (Glyph.of "try" :: (bracedGlyphs (stmtGlyphs ss) ++ (handlerGlyphs hs ++
      finalGlyphs last))).length ≤ fuel) :
    Reads (statement (fuel + 1)) (Glyph.of "try" :: (bracedGlyphs (stmtGlyphs ss) ++
      (handlerGlyphs hs ++ finalGlyphs last))) EndsStatement
      (tryNode (blockNode (stmtNodes .settled ss) inner) (handlers (handlerNodes .settled hs))
        (finalNode last) span).unspanned := by
  simp only [List.length_cons, List.length_append, bracedGlyphs] at hlen
  obtain ⟨fuel, rfl⟩ : ∃ m, fuel = m + 1 := ⟨fuel - 1, by omega⟩
  have hblock : Reads (block (fuel + 2) (statement (fuel + 1))) _ (fun _ => True) _ :=
    reads_block hss (by omega) (by omega) inner
  have hcatches := takes_catches hhs (by omega : _ ≤ fuel) (by omega : _ < fuel + 2)
  refine Takes.peek fun t ht => ?_
  rw [show t.kind = .tryWord from congrArg Glyph.kind ht]
  refine Takes.advance (by decide) fun _ _ => ?_
  refine hblock.bind (fun n hn => ?_) fun _ _ => trivial
  refine hcatches.bind (fun ns hns => ?_) fun g hg => ?_
  · have hhandlers := unspanned_handlers hns
    refine takes_final hlast (by omega) (by omega) fun r hr => ?_
    have hfound : ((handlers ns).isNone && r.isNone) = false := by
      rw [isNone_of_unspanned hhandlers, isNone_of_unspanned hr]
      exact isNone_try hsome
    dsimp only
    rw [hfound]
    refine reads_finish ?_
    simp only [fieldsUnspanned, Value.unspanned, unspanned_optional, hn, hhandlers, hr]
    rw [tryNode, Node.unspanned]
    simp only [fieldsUnspanned, Value.unspanned, unspanned_optional]
    rfl
  · cases last with
    | none => exact hg.2.1
    | some b => exact show TokenKind.finallyWord ≠ _ by decide

/-! ## All statements -/

theorem reads_returns (argument : Option Term) (span : Span) :
    ReadsStmt (.returns argument span) := by
  intro fuel hlen
  simp only [Stmt.glyphs, List.length_cons, List.length_append] at hlen
  refine Takes.peek fun t ht => ?_
  rw [show t.kind = .returnWord from congrArg Glyph.kind ht]
  refine Takes.advance (by decide) fun _ _ => ?_
  refine Takes.optionTerm .semicolon argument rfl (by decide) ?_ fun r hr => ?_
  · rintro e rfl
    refine (reads_term e ?_).weaken (by rintro _ rfl; exact closes_semicolon) fun _ hn => hn
    change e.glyphs.length + _ + 1 ≤ fuel at hlen
    omega
  refine Takes.expect rfl (by decide) fun _ _ => reads_finish ?_
  simp only [fieldsUnspanned, unspanned_optional, hr]
  rw [Stmt.node, Node.unspanned]
  simp only [fieldsUnspanned, unspanned_optional]
  rfl

theorem reads_throws (argument : Term) (span : Span) : ReadsStmt (.throws argument span) := by
  intro fuel hlen
  simp only [Stmt.glyphs, List.length_cons, List.length_append] at hlen
  refine Takes.peek fun t ht => ?_
  rw [show t.kind = .throwWord from congrArg Glyph.kind ht]
  refine Takes.advance (by decide) fun _ _ => ?_
  refine (reads_term argument (by omega)).bind (fun n hn => ?_) fun _ _ => closes_semicolon
  refine Takes.expect rfl (by decide) fun _ _ => reads_finish ?_
  simp only [fieldsUnspanned, Value.unspanned, hn]
  rfl

theorem reads_jump {word : String} {kind : String}
    (hkind : (Glyph.of word).kind = .breakWord ∧ kind = "BreakStatement" ∨
      (Glyph.of word).kind = .continueWord ∧ kind = "ContinueStatement") :
    Reads jump [Glyph.of word, Glyph.of ";"] next (.bare kind []) := by
  refine Takes.advance ?_ fun t ht => Takes.expect rfl (by decide) fun _ _ => reads_finish ?_
  · rcases hkind with ⟨h, _⟩ | ⟨h, _⟩ <;> rw [h] <;> decide
  · rcases hkind with ⟨h, rfl⟩ | ⟨h, rfl⟩
    · rw [if_pos (show t.kind = .breakWord from (congrArg Glyph.kind ht).trans h)]
      rfl
    · have hcontinue : t.kind = .continueWord := (congrArg Glyph.kind ht).trans h
      rw [hcontinue, if_neg (by decide)]
      rfl

theorem reads_expressionStmt (e : Term) (span : Span) : ReadsStmt (.expression e span) := by
  intro fuel hlen
  rw [Stmt.glyphs, List.length_append, List.length_singleton] at hlen
  have hstart (g : Glyph) : ((Stmt.expression e span).glyphs.headD g).kind = .ident := by
    rw [Stmt.glyphs, headD_append]
    exact e.headD_glyphs _
  refine (takes_current fun g => g.kind = .ident).look (fun t ht => ?_) fun g _ => hstart g
  rw [show t.kind = .ident from ht]
  refine (takes_current fun _ => True).look (fun _ _ => ?_) fun _ _ => trivial
  refine (reads_term e (by omega)).bind (fun n hn => ?_) fun _ _ => closes_semicolon
  refine Takes.expect rfl (by decide) fun _ _ => reads_finish ?_
  simp only [fieldsUnspanned, Value.unspanned, hn]
  rfl

theorem reads_declares (isConst : Bool) (v : Variables) : ReadsStmt (.declares isConst v) := by
  intro fuel hlen
  rw [Stmt.glyphs, List.length_append] at hlen
  have hread (first : Span) : Reads (variablesStatement (fuel + 1) first none)
      (v.glyphs (keyword isConst) ++ [Glyph.of ";"])
      (fun g => (Stmt.declares isConst v).isBlock = true ∨ EndsStatement g) _ :=
    reads_variablesStatement v isConst first
      (show (none : Option Node).map Node.unspanned = Option.map Node.unspanned none from rfl)
      (by omega)
  refine Takes.peek fun t ht => ?_
  cases isConst with
  | false =>
    rw [show t.kind = .var from congrArg Glyph.kind ht]
    exact hread t.span
  | true =>
    rw [show t.kind = .const from congrArg Glyph.kind ht]
    exact hread t.span

theorem readsStmt_steps : Stmt.Steps ReadsStmt ReadsCase ReadsHandler where
  block ss span hss := by
    intro fuel hlen
    rw [Stmt.glyphs, bracedGlyphs, List.length_cons, List.length_append] at hlen
    obtain ⟨fuel, rfl⟩ : ∃ m, fuel = m + 1 := ⟨fuel - 1, by omega⟩
    exact statement_block (fuel + 1) (reads_block hss (by omega) (by omega) span)
  ifThen test c span hc := reads_ifThen test span hc
  ifElse test c a span hc ha := reads_ifElse test span hc ha
  whileLoop test s span hs := reads_whileLoop test span hs
  doLoop s test span hs := reads_doLoop test span hs
  forLoop init test update s span hs := reads_forLoop init test update span hs
  switch discriminant cs span hcs := reads_switch discriminant span hcs
  tryCatch ss inner h hs span hss hhs := by
    intro fuel hlen
    have hglyphs : handlerGlyphs (h :: hs) ++ finalGlyphs none = h.glyphs ++ handlerGlyphs hs :=
      List.append_nil _
    have htry : Reads (statement (fuel + 1)) _ EndsStatement _ :=
      reads_try (h :: hs) none hss hhs (by simp) (.inl (by simp)) inner span
        (by rw [hglyphs]; exact hlen)
    rw [hglyphs] at htry
    exact htry.weaken (fun _ hg => hg.resolve_left (by simp [Stmt.isBlock])) fun _ hn => hn
  tryFinally ss inner last lastSpan span hss hlast := by
    intro fuel hlen
    have htry : Reads (statement (fuel + 1)) _ EndsStatement _ :=
      reads_try [] (some (last, lastSpan)) hss (by simp) (by simpa using hlast) (.inr rfl) inner
        span hlen
    exact htry.weaken (fun _ hg => hg.resolve_left (by simp [Stmt.isBlock])) fun _ hn => hn
  tryBoth ss inner h hs last lastSpan span hss hhs hlast := by
    intro fuel hlen
    have htry : Reads (statement (fuel + 1)) _ EndsStatement _ :=
      reads_try (h :: hs) (some (last, lastSpan)) hss hhs (by simpa using hlast) (.inr rfl) inner
        span hlen
    exact htry.weaken (fun _ hg => hg.resolve_left (by simp [Stmt.isBlock])) fun _ hn => hn
  returns argument span := reads_returns argument span
  throws argument span := reads_throws argument span
  breaks span := by
    intro fuel hlen
    refine Takes.peek fun t ht => ?_
    rw [show t.kind = .breakWord from congrArg Glyph.kind ht]
    exact reads_jump (.inl ⟨rfl, rfl⟩)
  continues span := by
    intro fuel hlen
    refine Takes.peek fun t ht => ?_
    rw [show t.kind = .continueWord from congrArg Glyph.kind ht]
    exact reads_jump (.inr ⟨rfl, rfl⟩)
  expression t span := reads_expressionStmt t span
  declares isConst v := reads_declares isConst v
  case label ss span hss := reads_case label span hss
  handler param ss inner span hss := reads_handler param inner span hss

/-- The grammar reads the tokens of a statement as that statement with its bodies made blocks. -/
theorem readsStmt (s : Stmt) : ReadsStmt s := s.induct readsStmt_steps

end Parse

end MonkeyFormat
