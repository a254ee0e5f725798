import MonkeyFormat.Proofs.Terms

set_option autoImplicit false

/-! # Statements over simple expressions

The statements of the language whose expressions are identifiers and calls of identifiers on
identifiers: the nodes that they are read as, and the tokens that their layout spells. What may be
rewritten on the way (bodies that become blocks, access words that are put in order) is a parameter
of the nodes. -/

namespace MonkeyFormat

open Parse (optional nodes handlers)

/-! ## Variables -/

/-- One of the variables of a declaration. -/
structure Declarator where
  id : Typed
  init : Option Term
  span : Span

namespace Declarator

/-- The node of a variable that is declared by the given keyword. -/
def node (keyword : String) (d : Declarator) : Node :=
  ⟨"VariableDeclarator", d.span,
    [("id", .node d.id.node), ("init", optional (d.init.map Term.node)),
    ("kind", .str keyword)]⟩

/-- The tokens of a variable. -/
def glyphs (d : Declarator) : List Glyph :=
  d.id.glyphs ++ (d.init.map fun t => Glyph.of "=" :: t.glyphs).getD []

end Declarator

/-- A declaration of one or more variables. -/
structure Variables where
  first : Declarator
  more : List Declarator
  span : Span

namespace Variables

/-- The node of a declaration by the given keyword, with its attributes. -/
def node (v : Variables) (keyword : String) (attrs : Option Node) : Node :=
  ⟨"VariableDeclaration", v.span, [("attrs", optional attrs),
    ("declarations", nodes ((v.first :: v.more).map (Declarator.node keyword))),
    ("kind", .str keyword)]⟩

/-- The tokens of a declaration, without the semicolon. -/
def glyphs (v : Variables) (keyword : String) : List Glyph :=
  Glyph.of keyword :: [Glyph.of ","].intercalate ((v.first :: v.more).map Declarator.glyphs)

end Variables

/-- The keyword of variables, or that of constants. -/
def keyword (isConst : Bool) : String := if isConst then "const" else "var"

/-- What the header of a loop starts with. -/
inductive Header where
  | none
  | term (t : Term)
  | declares (v : Variables)

namespace Header

/-- The node of a header's first part. -/
def node? : Header → Option Node
  | .none => Option.none
  | .term t => some t.node
  | .declares v => some (v.node "var" Option.none)

/-- The tokens of a header's first part. -/
def glyphs : Header → List Glyph
  | .none => []
  | .term t => t.glyphs
  | .declares v => v.glyphs "var"

end Header

/-! ## Cases and handlers -/

/-- What a case compares with. -/
inductive Label where
  | default
  | value (t : Term)
  | instanceOf (c : DottedName) (span : Span)

namespace Label

/-- The node of a label. -/
def node? : Label → Option Node
  | .default => none
  | .value t => some t.node
  | .instanceOf c span => some ⟨"InstanceOfCase", span, [("id", .node c.node)]⟩

/-- The tokens of a label. -/
def glyphs : Label → List Glyph
  | .default => [Glyph.of "default", Glyph.of ":"]
  | .value t => Glyph.of "case" :: (t.glyphs ++ [Glyph.of ":"])
  | .instanceOf c _ => Glyph.of "case" :: Glyph.of "instanceof" :: (c.glyphs ++ [Glyph.of ":"])

end Label

/-- What a handler catches. -/
inductive Param where
  | none
  | name (x : Name) (span : Span)
  | instanceOf (x : Name) (first : Span) (c : DottedName) (span : Span)

namespace Param

/-- The node of what a handler catches. -/
def node? : Param → Option Node
  | .none => Option.none
  | .name x span => some (x.node span)
  | .instanceOf x first c span => some (Operation.test (.name x first) c span).node

/-- The tokens of what a handler catches. -/
def glyphs : Param → List Glyph
  | .none => []
  | .name x _ => [Glyph.of "(", x.glyph, Glyph.of ")"]
  | .instanceOf x _ c _ =>
    Glyph.of "(" :: ((x.glyph :: Glyph.of "instanceof" :: c.glyphs) ++ [Glyph.of ")"])

end Param

/-! ## Statements -/

mutual

/-- A statement. -/
inductive Stmt where
  | block (body : List Stmt) (span : Span)
  | ifThen (test : Term) (consequent : Stmt) (span : Span)
  | ifElse (test : Term) (consequent alternate : Stmt) (span : Span)
  | whileLoop (test : Term) (body : Stmt) (span : Span)
  | doLoop (body : Stmt) (test : Term) (span : Span)
  | forLoop (init : Header) (test update : Option Term) (body : Stmt) (span : Span)
  | switch (discriminant : Term) (cases : List Case) (span : Span)
  | tryCatch (body : List Stmt) (inner : Span) (first : Handler) (more : List Handler) (span : Span)
  | tryFinally (body : List Stmt) (inner : Span) (last : List Stmt) (lastSpan : Span) (span : Span)
  | tryBoth (body : List Stmt) (inner : Span) (first : Handler) (more : List Handler)
    (last : List Stmt) (lastSpan : Span) (span : Span)
  | returns (argument : Option Term) (span : Span)
  | throws (argument : Term) (span : Span)
  | breaks (span : Span)
  | continues (span : Span)
  | expression (t : Term) (span : Span)
  | declares (isConst : Bool) (v : Variables)

/-- A case of a switch. -/
inductive Case where
  | mk (label : Label) (body : List Stmt) (span : Span)

/-- A handler of a try statement. -/
inductive Handler where
  | mk (param : Param) (body : List Stmt) (inner span : Span)

end

/-- The node of a block. -/
def blockNode (ns : List Node) (span : Span) :
    Node := ⟨"BlockStatement", span, [("body", nodes ns)]⟩

/-- The node of a try statement. -/
def tryNode (body : Node) (handler finalizer : Option Node) (span : Span) : Node :=
  ⟨"TryStatement", span, [("block", .node body), ("handler", optional handler),
    ("finalizer", optional finalizer)]⟩

/-- What may be done to a tree on the way: to the bodies of choices and loops, to second branches,
and to access words. -/
structure Rewriting where
  body : Node → Node
  alternate : Node → Node
  words : List String → List String

namespace Rewriting

/-- Nothing is done. -/
def none : Rewriting := ⟨id, id, id⟩

/-- A second branch as a block, unless it is a choice itself. -/
def wrapAlternate (n : Node) : Node :=
  if n.kind = "IfStatement" then n else Parentheses.wrapBody n

/-- Bodies and second branches become blocks. -/
def blocks : Rewriting := ⟨Parentheses.wrapBody, wrapAlternate, id⟩

/-- Access words in alphabetical order, each once. -/
def sortWords (ws : List String) : List String := ws.eraseDups.mergeSort fun a b => decide (a ≤ b)

/-- Bodies and second branches become blocks, and access words are sorted. -/
def settled : Rewriting := ⟨Parentheses.wrapBody, wrapAlternate, sortWords⟩

end Rewriting

section Nodes

variable (r : Rewriting)

mutual

/-- The node of a statement. -/
def Stmt.node : Stmt → Node
  | .block ss span => blockNode (stmtNodes ss) span
  | .ifThen test c span => ⟨"IfStatement", span, [("test", .node test.node),
      ("consequent", .node (r.body c.node)), ("alternate", .null)]⟩
  | .ifElse test c a span => ⟨"IfStatement", span, [("test", .node test.node),
      ("consequent", .node (r.body c.node)), ("alternate", .node (r.alternate a.node))]⟩
  | .whileLoop test s span => ⟨"WhileStatement", span, [("test", .node test.node),
      ("body", .node (r.body s.node))]⟩
  | .doLoop s test span => ⟨"DoWhileStatement", span, [("body", .node (r.body s.node)),
      ("test", .node test.node)]⟩
  | .forLoop init test update s span => ⟨"ForStatement", span, [("init", optional init.node?),
      ("test", optional (test.map Term.node)), ("update", optional (update.map Term.node)),
      ("body", .node (r.body s.node))]⟩
  | .switch discriminant cs span => ⟨"SwitchStatement", span,
      [("discriminant", .node discriminant.node), ("cases", nodes (caseNodes cs))]⟩
  | .tryCatch ss inner h hs span => tryNode (blockNode (stmtNodes ss) inner)
      (handlers (h.node :: handlerNodes hs)) none span
  | .tryFinally ss inner last lastSpan span => tryNode (blockNode (stmtNodes ss) inner) none
      (some (blockNode (stmtNodes last) lastSpan)) span
  | .tryBoth ss inner h hs last lastSpan span => tryNode (blockNode (stmtNodes ss) inner)
      (handlers (h.node :: handlerNodes hs)) (some (blockNode (stmtNodes last) lastSpan)) span
  | .returns argument span =>
    ⟨"ReturnStatement", span, [("argument", optional (argument.map Term.node))]⟩
  | .throws argument span => ⟨"ThrowStatement", span, [("argument", .node argument.node)]⟩
  | .breaks span => ⟨"BreakStatement", span, []⟩
  | .continues span => ⟨"ContinueStatement", span, []⟩
  | .expression t span => ⟨"ExpressionStatement", span, [("expression", .node t.node)]⟩
  | .declares isConst v => v.node (keyword isConst) none

/-- The node of a case. -/
def Case.node : Case → Node
  | ⟨label, ss, span⟩ => ⟨"SwitchCase", span, [("test", optional label.node?),
      ("consequent", nodes (stmtNodes ss))]⟩

/-- The node of a handler. -/
def Handler.node : Handler → Node
  | ⟨param, ss, inner, span⟩ => ⟨"CatchClause", span, [("param", optional param.node?),
      ("body", .node (blockNode (stmtNodes ss) inner))]⟩

/-- The nodes of several statements. -/
def stmtNodes : List Stmt → List Node
  | [] => []
  | s :: ss => s.node :: stmtNodes ss

/-- The nodes of several cases. -/
def caseNodes : List Case → List Node
  | [] => []
  | c :: cs => c.node :: caseNodes cs

/-- The nodes of several handlers. -/
def handlerNodes : List Handler → List Node
  | [] => []
  | h :: hs => h.node :: handlerNodes hs

end

theorem stmtNodes_eq (ss : List Stmt) : stmtNodes r ss = ss.map (Stmt.node r) := by
  induction ss with
  | nil => rfl
  | cons s ss ih => rw [stmtNodes, ih, List.map_cons]

theorem caseNodes_eq (cs : List Case) : caseNodes r cs = cs.map (Case.node r) := by
  induction cs with
  | nil => rfl
  | cons c cs ih => rw [caseNodes, ih, List.map_cons]

theorem handlerNodes_eq (hs : List Handler) : handlerNodes r hs = hs.map (Handler.node r) := by
  induction hs with
  | nil => rfl
  | cons h hs ih => rw [handlerNodes, ih, List.map_cons]

end Nodes

/-! ## Tokens -/

/-- Is the statement a block? -/
def Stmt.isBlock : Stmt → Bool
  | .block _ _ => true
  | _ => false

/-- Is the statement a choice? -/
def Stmt.isChoice : Stmt → Bool
  | .ifThen _ _ _ => true
  | .ifElse _ _ _ _ => true
  | _ => false

theorem kind_stmt_block (r : Rewriting) (s : Stmt) :
    (s.node r).kind = "BlockStatement" ↔ s.isBlock = true := by
  cases s <;> simp [Stmt.node, Stmt.isBlock, blockNode, tryNode, Variables.node]

theorem kind_stmt_choice (r : Rewriting) (s : Stmt) :
    (s.node r).kind = "IfStatement" ↔ s.isChoice = true := by
  cases s <;> simp [Stmt.node, Stmt.isChoice, blockNode, tryNode, Variables.node]

/-- Tokens in braces. -/
def bracedGlyphs (gs : List Glyph) : List Glyph :=
  Glyph.of "\x7b" :: (gs ++ [Glyph.of "\x7d"])

/-- Tokens in braces, unless they have some. -/
def bodyGlyphs (done : Bool) (gs : List Glyph) : List Glyph := if done then gs else bracedGlyphs gs

/-- A condition in parentheses. -/
def testGlyphs (t : Term) : List Glyph := Glyph.of "(" :: (t.glyphs ++ [Glyph.of ")"])

/-- The tokens of an expression that may be absent. -/
def optionGlyphs (t : Option Term) : List Glyph := (t.map Term.glyphs).getD []

mutual

/-- The tokens that a statement is laid out as: bodies are in braces. -/
def Stmt.glyphs : Stmt → List Glyph
  | .block ss _ => bracedGlyphs (stmtGlyphs ss)
  | .ifThen test c _ => Glyph.of "if" :: (testGlyphs test ++ bodyGlyphs c.isBlock c.glyphs)
  | .ifElse test c a _ => Glyph.of "if" :: (testGlyphs test ++ (bodyGlyphs c.isBlock c.glyphs ++
      Glyph.of "else" :: bodyGlyphs (a.isBlock || a.isChoice) a.glyphs))
  | .whileLoop test s _ => Glyph.of "while" :: (testGlyphs test ++ bodyGlyphs s.isBlock s.glyphs)
  | .doLoop s test _ => Glyph.of "do" :: (bodyGlyphs s.isBlock s.glyphs ++
      Glyph.of "while" :: (testGlyphs test ++ [Glyph.of ";"]))
  | .forLoop init test update s _ => Glyph.of "for" :: Glyph.of "(" :: (init.glyphs ++
      Glyph.of ";" :: (optionGlyphs test ++ Glyph.of ";" :: (optionGlyphs update ++
      Glyph.of ")" :: bodyGlyphs s.isBlock s.glyphs)))
  | .switch discriminant cs _ => Glyph.of "switch" :: (testGlyphs discriminant ++
      bracedGlyphs (caseGlyphs cs))
  | .tryCatch ss _ h hs _ => Glyph.of "try" :: (bracedGlyphs (stmtGlyphs ss) ++
      (h.glyphs ++ handlerGlyphs hs))
  | .tryFinally ss _ last _ _ => Glyph.of "try" :: (bracedGlyphs (stmtGlyphs ss) ++
      Glyph.of "finally" :: bracedGlyphs (stmtGlyphs last))
  | .tryBoth ss _ h hs last _ _ => Glyph.of "try" :: (bracedGlyphs (stmtGlyphs ss) ++
      ((h.glyphs ++ handlerGlyphs hs) ++ Glyph.of "finally" :: bracedGlyphs (stmtGlyphs last)))
  | .returns argument _ => Glyph.of "return" :: (optionGlyphs argument ++ [Glyph.of ";"])
  | .throws argument _ => Glyph.of "throw" :: (argument.glyphs ++ [Glyph.of ";"])
  | .breaks _ => [Glyph.of "break", Glyph.of ";"]
  | .continues _ => [Glyph.of "continue", Glyph.of ";"]
  | .expression t _ => t.glyphs ++ [Glyph.of ";"]
  | .declares isConst v => v.glyphs (keyword isConst) ++ [Glyph.of ";"]

/-- The tokens of a case. -/
def Case.glyphs : Case → List Glyph
  | ⟨label, ss, _⟩ => label.glyphs ++ stmtGlyphs ss

/-- The tokens of a handler. -/
def Handler.glyphs : Handler → List Glyph
  | ⟨param, ss, _, _⟩ => Glyph.of "catch" :: (param.glyphs ++ bracedGlyphs (stmtGlyphs ss))

/-- The tokens of several statements. -/
def stmtGlyphs : List Stmt → List Glyph
  | [] => []
  | s :: ss => s.glyphs ++ stmtGlyphs ss

/-- The tokens of several cases. -/
def caseGlyphs : List Case → List Glyph
  | [] => []
  | c :: cs => c.glyphs ++ caseGlyphs cs

/-- The tokens of several handlers. -/
def handlerGlyphs : List Handler → List Glyph
  | [] => []
  | h :: hs => h.glyphs ++ handlerGlyphs hs

end

theorem stmtGlyphs_eq (ss : List Stmt) : stmtGlyphs ss = ss.flatMap Stmt.glyphs := by
  induction ss with
  | nil => rfl
  | cons s ss ih => rw [stmtGlyphs, ih, List.flatMap_cons]

theorem caseGlyphs_eq (cs : List Case) : caseGlyphs cs = cs.flatMap Case.glyphs := by
  induction cs with
  | nil => rfl
  | cons c cs ih => rw [caseGlyphs, ih, List.flatMap_cons]

theorem handlerGlyphs_eq (hs : List Handler) : handlerGlyphs hs = hs.flatMap Handler.glyphs := by
  induction hs with
  | nil => rfl
  | cons h hs ih => rw [handlerGlyphs, ih, List.flatMap_cons]

/-- The tokens of a final block, if there is one. -/
def finalGlyphs (last : Option (List Stmt × Span)) : List Glyph :=
  (last.map fun b => Glyph.of "finally" :: bracedGlyphs (stmtGlyphs b.1)).getD []

/-! ## Induction -/

section Induction

variable {P : Stmt → Prop} {Q : Case → Prop} {R : Handler → Prop}

/-- What has to be shown of each form of statement, of cases and of handlers, for it to hold of
all of them. -/
structure Stmt.Steps (P : Stmt → Prop) (Q : Case → Prop) (R : Handler → Prop) : Prop where
  block : ∀ ss span, (∀ s ∈ ss, P s) → P (.block ss span)
  ifThen : ∀ test c span, P c → P (.ifThen test c span)
  ifElse : ∀ test c a span, P c → P a → P (.ifElse test c a span)
  whileLoop : ∀ test s span, P s → P (.whileLoop test s span)
  doLoop : ∀ s test span, P s → P (.doLoop s test span)
  forLoop : ∀ init test update s span, P s → P (.forLoop init test update s span)
  switch : ∀ discriminant cs span, (∀ c ∈ cs, Q c) → P (.switch discriminant cs span)
  tryCatch : ∀ ss inner h hs span, (∀ s ∈ ss, P s) → (∀ k ∈ h :: hs, R k) →
    P (.tryCatch ss inner h hs span)
  tryFinally : ∀ ss inner last lastSpan span, (∀ s ∈ ss, P s) → (∀ s ∈ last, P s) →
    P (.tryFinally ss inner last lastSpan span)
  tryBoth : ∀ ss inner h hs last lastSpan span, (∀ s ∈ ss, P s) → (∀ k ∈ h :: hs, R k) →
    (∀ s ∈ last, P s) → P (.tryBoth ss inner h hs last lastSpan span)
  returns : ∀ argument span, P (.returns argument span)
  throws : ∀ argument span, P (.throws argument span)
  breaks : ∀ span, P (.breaks span)
  continues : ∀ span, P (.continues span)
  expression : ∀ t span, P (.expression t span)
  declares : ∀ isConst v, P (.declares isConst v)
  case : ∀ label ss span, (∀ s ∈ ss, P s) → Q ⟨label, ss, span⟩
  handler : ∀ param ss inner span, (∀ s ∈ ss, P s) → R ⟨param, ss, inner, span⟩

mutual

/-- Induction over statements. -/
theorem Stmt.induct (h : Stmt.Steps P Q R) : ∀ s, P s
  | .block ss span => h.block ss span (stmts_induct h ss)
  | .ifThen test c span => h.ifThen test c span (c.induct h)
  | .ifElse test c a span => h.ifElse test c a span (c.induct h) (a.induct h)
  | .whileLoop test s span => h.whileLoop test s span (s.induct h)
  | .doLoop s test span => h.doLoop s test span (s.induct h)
  | .forLoop init test update s span => h.forLoop init test update s span (s.induct h)
  | .switch discriminant cs span => h.switch discriminant cs span (cases_induct h cs)
  | .tryCatch ss inner k ks span => h.tryCatch ss inner k ks span (stmts_induct h ss)
      (List.forall_mem_cons.2 ⟨k.induct h, handlers_induct h ks⟩)
  | .tryFinally ss inner last lastSpan span => h.tryFinally ss inner last lastSpan span
      (stmts_induct h ss) (stmts_induct h last)
  | .tryBoth ss inner k ks last lastSpan span => h.tryBoth ss inner k ks last lastSpan span
      (stmts_induct h ss) (List.forall_mem_cons.2 ⟨k.induct h, handlers_induct h ks⟩)
      (stmts_induct h last)
  | .returns argument span => h.returns argument span
  | .throws argument span => h.throws argument span
  | .breaks span => h.breaks span
  | .continues span => h.continues span
  | .expression t span => h.expression t span
  | .declares isConst v => h.declares isConst v

theorem Case.induct (h : Stmt.Steps P Q R) : ∀ c, Q c
  | ⟨label, ss, span⟩ => h.case label ss span (stmts_induct h ss)

theorem Handler.induct (h : Stmt.Steps P Q R) : ∀ k, R k
  | ⟨param, ss, inner, span⟩ => h.handler param ss inner span (stmts_induct h ss)

theorem stmts_induct (h : Stmt.Steps P Q R) : ∀ ss : List Stmt, ∀ s ∈ ss, P s
  | [] => by simp
  | s :: ss => List.forall_mem_cons.2 ⟨s.induct h, stmts_induct h ss⟩

theorem cases_induct (h : Stmt.Steps P Q R) : ∀ cs : List Case, ∀ c ∈ cs, Q c
  | [] => by simp
  | c :: cs => List.forall_mem_cons.2 ⟨c.induct h, cases_induct h cs⟩

theorem handlers_induct (h : Stmt.Steps P Q R) : ∀ ks : List Handler, ∀ k ∈ ks, R k
  | [] => by simp
  | k :: ks => List.forall_mem_cons.2 ⟨k.induct h, handlers_induct h ks⟩

end

end Induction

end MonkeyFormat
