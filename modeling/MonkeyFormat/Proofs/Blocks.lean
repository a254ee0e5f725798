import MonkeyFormat.Proofs.DeclarationSyntax

set_option autoImplicit false

/-! # Making blocks explicit

Over statements and declarations the pass that makes parentheses explicit puts in none; it makes
blocks of the bodies of choices and loops and does nothing else. -/

namespace MonkeyFormat

open Parse (nodes handlers)

namespace Parentheses

/-! ## Below a node that wraps none of its children -/

/-- The pass in a value that holds children. -/
def madeValue : Value → Value
  | .node n => .node (made n)
  | .list vs => .list (explicitItems vs).result
  | v => v

@[simp] theorem madeValue_node (n : Node) : madeValue (.node n) = .node (made n) := rfl

@[simp] theorem madeValue_null : madeValue .null = .null := rfl

@[simp] theorem madeValue_nodes (ns : List Node) : madeValue (nodes ns) = nodes (ns.map made) := by
  rw [nodes, madeValue, explicitItems_nodes, nodes]

@[simp] theorem madeValue_optional (n : Option Node) :
    madeValue (Parse.optional n) = Parse.optional (n.map made) := by
  cases n <;> rfl

theorem explicitValue_of_parent {parent : Node} (h : parent.kind ∉ wrappingKinds) (key : String)
    (v : Value) : (explicitValue parent key v).result = madeValue v := by
  cases v with
  | node n => rw [explicitValue_node, madeUnder_of_parent h, madeValue]
  | _ => simp only [explicitValue, madeValue]

theorem explicitFields_of_parent {parent : Node} (h : parent.kind ∉ wrappingKinds)
    (keys : List String) (fs : Fields) : (explicitFields parent keys fs).result =
      fs.map fun f => (f.1, if keys.contains f.1 then madeValue f.2 else f.2) := by
  induction fs with
  | nil => rfl
  | cons f fs ih => rw [explicitFields_cons, ih, explicitValue_of_parent h, List.map_cons]

/-- The pass below a node of a kind that wraps none of its children and has no bodies. -/
theorem made_fields {kind : String} {keys : List String} (hbody : bodyFields kind = [])
    (hkeys : childFields? kind = some keys) (hkind : kind ∉ wrappingKinds) (span : Span)
    (fs : Fields) : made ⟨kind, span, fs⟩ =
      ⟨kind, span, fs.map fun f => (f.1, if keys.contains f.1 then madeValue f.2 else f.2)⟩ := by
  rw [made_eq hbody, childKeys_eq hkeys, explicitFields_of_parent hkind]

/-- The same with the bodies that become blocks. -/
theorem made_bodies {kind : String} {keys : List String} (hkeys : childFields? kind = some keys)
    (hkind : kind ∉ wrappingKinds) (span : Span) (fs : Fields) : made ⟨kind, span, fs⟩ =
      (blockBodies ⟨⟨kind, span, fs.map fun f =>
        (f.1, if keys.contains f.1 then madeValue f.2 else f.2)⟩, false, 0⟩).result := by
  have hfields := explicitFields_of_parent
    (show (⟨kind, span, fs⟩ : Node).kind ∉ wrappingKinds from hkind) keys fs
  simp only [made, explicit, childKeys_eq hkeys, hfields, blockBodies]

/-! ## Bodies -/

theorem made_ifStatement (span : Span) (test c : Node) (a : Option Node) :
    made ⟨"IfStatement", span, [("test", .node test), ("consequent", .node c),
      ("alternate", Parse.optional a)]⟩ = ⟨"IfStatement", span, [("test", .node (made test)),
        ("consequent", .node (wrapBody (made c))),
        ("alternate", Parse.optional (a.map fun n => Rewriting.wrapAlternate (made n)))]⟩ := by
  rw [made_bodies rfl (by decide)]
  have hconsequent := Decidable.em ((made c).kind = "BlockStatement")
  cases a with
  | none =>
    rcases hconsequent with h | h <;>
      simp [blockBodies, bodyFields, needsBlock, blockField, Node.get, Node.set, Fields.insert,
        wrapBody, Parse.optional, List.lookup, h]
  | some a =>
    have halternate := Decidable.em ((made a).kind = "BlockStatement")
    have hchoice := Decidable.em ((made a).kind = "IfStatement")
    rcases hconsequent with h | h <;> rcases halternate with h' | h' <;>
      rcases hchoice with h'' | h'' <;>
      simp [blockBodies, bodyFields, needsBlock, blockField, Node.get, Node.set, Fields.insert,
        wrapBody, Rewriting.wrapAlternate, Parse.optional, List.lookup, h, h', h'']

theorem made_whileStatement (span : Span) (test s : Node) :
    made ⟨"WhileStatement", span, [("test", .node test), ("body", .node s)]⟩ =
      ⟨"WhileStatement", span, [("test", .node (made test)),
        ("body", .node (wrapBody (made s)))]⟩ := by
  rw [made_bodies rfl (by decide)]
  by_cases h : (made s).kind = "BlockStatement" <;>
    simp [blockBodies, bodyFields, needsBlock, blockField, Node.get, Node.set, Fields.insert,
      wrapBody, List.lookup, h]

theorem made_doStatement (span : Span) (test s : Node) :
    made ⟨"DoWhileStatement", span, [("body", .node s), ("test", .node test)]⟩ =
      ⟨"DoWhileStatement", span, [("body", .node (wrapBody (made s))),
        ("test", .node (made test))]⟩ := by
  rw [made_bodies rfl (by decide)]
  by_cases h : (made s).kind = "BlockStatement" <;>
    simp [blockBodies, bodyFields, needsBlock, blockField, Node.get, Node.set, Fields.insert,
      wrapBody, List.lookup, h]

theorem made_forStatement (span : Span) (init test update : Option Node) (s : Node) :
    made ⟨"ForStatement", span, [("init", Parse.optional init), ("test", Parse.optional test),
      ("update", Parse.optional update), ("body", .node s)]⟩ =
      ⟨"ForStatement", span, [("init", Parse.optional (init.map made)),
        ("test", Parse.optional (test.map made)), ("update", Parse.optional (update.map made)),
        ("body", .node (wrapBody (made s)))]⟩ := by
  rw [made_bodies rfl (by decide)]
  by_cases h : (made s).kind = "BlockStatement" <;>
    simp [blockBodies, bodyFields, needsBlock, blockField, Node.get, Node.set, Fields.insert,
      wrapBody, List.lookup, h]

/-! ## Parts of statements -/

theorem made_comp_term : made ∘ Term.node = Term.node := funext made_term

theorem made_optionTerm (t : Option Term) : (t.map Term.node).map made = t.map Term.node := by
  rw [Option.map_map, made_comp_term]

theorem made_declarator (kind : String) (d : Declarator) :
    made (d.node kind) = d.node kind := by
  rw [Declarator.node, made_fields rfl rfl (by decide)]
  simp [made_typed, made_comp_term]

theorem made_variables (v : Variables) (kind : String) (attrs : Option Node) :
    made (v.node kind attrs) = v.node kind (attrs.map made) := by
  rw [Variables.node, made_fields rfl rfl (by decide)]
  have hdeclarators : made ∘ Declarator.node kind = Declarator.node kind :=
    funext fun d => made_declarator kind d
  simp [Variables.node, made_declarator, hdeclarators]

theorem made_header (h : Header) : h.node?.map made = h.node? := by
  cases h with
  | none => rfl
  | term t => rw [Header.node?, Option.map_some, made_term]
  | declares v => rw [Header.node?, Option.map_some, made_variables, Option.map_none]

theorem made_label (l : Label) : l.node?.map made = l.node? := by
  cases l with
  | default => rfl
  | value t => rw [Label.node?, Option.map_some, made_term]
  | instanceOf c span =>
    rw [Label.node?, Option.map_some, made_fields rfl rfl (by decide)]
    simp [made_dottedName]

theorem made_param (p : Param) : p.node?.map made = p.node? := by
  cases p with
  | none => rfl
  | name x span => rfl
  | instanceOf x first c span =>
    rw [Param.node?, Option.map_some]
    exact congrArg some (made_operation (.test (.name x first) c span))

theorem made_block (ns : List Node) (span : Span) :
    made (blockNode ns span) = blockNode (ns.map made) span := by
  rw [blockNode, made_fields rfl rfl (by decide)]
  simp [blockNode]

theorem made_try (body : Node) (handler finalizer : Option Node) (span : Span) :
    made (tryNode body handler finalizer span) =
      tryNode (made body) (handler.map made) (finalizer.map made) span := by
  rw [tryNode, made_fields rfl rfl (by decide)]
  simp [tryNode]

theorem span_made (n : Node) : (made n).span = n.span := by
  obtain ⟨kind, span, fields⟩ := n
  have hfold : ∀ (names : List String) (m : Node), (names.foldl blockField m).span = m.span := by
    intro names
    induction names with
    | nil => exact fun _ => rfl
    | cons name names ih =>
      intro m
      rw [List.foldl_cons, ih, blockField]
      split
      · split <;> rfl
      · rfl
  simp only [made, explicit, blockBodies, hfold]

theorem made_handlers (ns : List Node) : (handlers ns).map made = handlers (ns.map made) := by
  match ns with
  | [] => rfl
  | [n] => rfl
  | n :: m :: ns =>
    have hlast : ((m :: ns).map made).getLast (by simp) = made ((m :: ns).getLast (by simp)) :=
      List.getLast_map (by simp)
    simp only [handlers, Option.map_some, List.map_cons] at hlast ⊢
    rw [hlast, Parse.spanning, made_fields rfl rfl (by decide)]
    simp [Parse.spanning, span_made]

/-! ## Statements -/

theorem map_made {α : Type} {f g : α → Node} {xs : List α} (h : ∀ x ∈ xs, made (f x) = g x) :
    (xs.map f).map made = xs.map g := by
  rw [List.map_map]
  exact List.map_congr_left h

theorem made_stmtNodes {ss : List Stmt}
    (h : ∀ s ∈ ss, made (s.node .none) = s.node .blocks) :
    (stmtNodes .none ss).map made = stmtNodes .blocks ss := by
  rw [stmtNodes_eq, stmtNodes_eq, map_made h]

theorem made_stmtBlock {ss : List Stmt} (h : ∀ s ∈ ss, made (s.node .none) = s.node .blocks)
    (span : Span) : made (blockNode (stmtNodes .none ss) span) =
      blockNode (stmtNodes .blocks ss) span := by
  rw [made_block, made_stmtNodes h]

theorem made_catches {h : Handler} {hs : List Handler}
    (hh : ∀ k ∈ h :: hs, made (k.node .none) = k.node .blocks) :
    (handlers (h.node .none :: handlerNodes .none hs)).map made =
      handlers (h.node .blocks :: handlerNodes .blocks hs) := by
  rw [made_handlers, handlerNodes_eq, handlerNodes_eq, ← List.map_cons, ← List.map_cons,
    map_made hh]

theorem made_stmt_steps : Stmt.Steps (fun s => made (s.node .none) = s.node .blocks)
    (fun c => made (c.node .none) = c.node .blocks)
    fun h => made (h.node .none) = h.node .blocks where
  block ss span hss := made_stmtBlock hss span
  ifThen test c span hc := by
    have hmade := made_ifStatement span test.node (c.node .none) none
    rw [made_term, hc] at hmade
    exact hmade
  ifElse test c a span hc ha := by
    have hmade := made_ifStatement span test.node (c.node .none) (some (a.node .none))
    rw [made_term, hc, Option.map_some, ha] at hmade
    exact hmade
  whileLoop test s span hs := by
    have hmade := made_whileStatement span test.node (s.node .none)
    rw [made_term, hs] at hmade
    exact hmade
  doLoop s test span hs := by
    have hmade := made_doStatement span test.node (s.node .none)
    rw [made_term, hs] at hmade
    exact hmade
  forLoop init test update s span hs := by
    have hmade := made_forStatement span init.node? (test.map Term.node) (update.map Term.node)
      (s.node .none)
    rw [made_header, made_optionTerm, made_optionTerm, hs] at hmade
    exact hmade
  switch discriminant cs span hcs := by
    rw [Stmt.node, made_fields rfl rfl (by decide), caseNodes_eq]
    simp only [List.map_cons, List.map_nil, madeValue_nodes, map_made hcs, made_term,
      madeValue_node]
    rw [Stmt.node, caseNodes_eq]
    rfl
  tryCatch ss inner h hs span hss hhs := by
    rw [Stmt.node, made_try, made_stmtBlock hss, made_catches hhs]
    rfl
  tryFinally ss inner last lastSpan span hss hlast := by
    rw [Stmt.node, made_try, made_stmtBlock hss, Option.map_some, made_stmtBlock hlast]
    rfl
  tryBoth ss inner h hs last lastSpan span hss hhs hlast := by
    rw [Stmt.node, made_try, made_stmtBlock hss, made_catches hhs, Option.map_some,
      made_stmtBlock hlast]
    rfl
  returns argument span := by
    rw [Stmt.node, made_fields rfl rfl (by decide)]
    simp [Stmt.node, made_comp_term]
  throws argument span := by
    rw [Stmt.node, made_fields rfl rfl (by decide)]
    simp [Stmt.node, made_term]
  breaks span := rfl
  continues span := rfl
  expression t span := by
    have hterm := madeUnder_of_quiet (made_term t) (kind_term t)
      (Stmt.node .none (.expression t span)) "expression"
    rw [Stmt.node] at hterm ⊢
    rw [made_eq rfl, childKeys_eq rfl]
    simp only [explicitFields_cons, explicitFields_nil, explicitValue_node, hterm]
    rfl
  declares isConst v := made_variables v (keyword isConst) none
  case label ss span hss := by
    rw [Case.node, made_fields rfl rfl (by decide)]
    simp [Case.node, made_label, made_stmtNodes hss]
  handler param ss inner span hss := by
    rw [Handler.node, made_fields rfl rfl (by decide)]
    simp [Handler.node, made_param, made_stmtBlock hss]

/-- In a statement the pass makes blocks of bodies and does nothing else. -/
theorem made_stmt (s : Stmt) : made (s.node .none) = s.node .blocks := s.induct made_stmt_steps

/-! ## Declarations -/

theorem made_resultType (t : ResultType) : made t.node = t.node := by
  rw [ResultType.node, made_fields rfl rfl (by decide)]
  simp [made_plainType]

theorem made_symbol (s : Symbol) : made s.node = s.node := by
  rw [Symbol.node, made_fields rfl rfl (by decide)]
  simp [made_name]

theorem made_attrs (a : Attrs) : (a.node? .none).map made = a.node? .blocks := by
  cases a with
  | none => rfl
  | words w ws span =>
    rw [Attrs.node?, Option.map_some, made_fields rfl rfl (by decide)]
    rfl
  | symbols ss inner ws span =>
    have hsymbols : (ss.map Symbol.node).map made = ss.map Symbol.node :=
      map_made fun s _ => made_symbol s
    rw [Attrs.node?, Option.map_some, made_fields rfl rfl (by decide)]
    simp only [List.map_cons, List.map_nil, madeValue_node]
    rw [made_fields rfl rfl (by decide)]
    simp only [List.map_cons, List.map_nil, madeValue_nodes, hsymbols]
    rfl

theorem made_enumMember (m : EnumMember) : made m.node = m.node := by
  obtain ⟨x, first, _ | ⟨t, span⟩⟩ := m
  · rfl
  · rw [EnumMember.node, made_fields rfl rfl (by decide)]
    simp [made_name, made_term]

theorem made_argument (x : Option (Name × Span)) :
    (x.map Term.argument).map made = x.map Term.argument := by
  cases x <;> rfl

theorem made_member (n : Node) : made (memberNode n) = memberNode (made n) := by
  rw [memberNode, Parse.spanning, made_fields rfl rfl (by decide), memberNode, span_made]
  rfl

theorem made_functionBody (body : Option (List Stmt × Span)) :
    (body.map fun b => blockNode (stmtNodes .none b.1) b.2).map made =
      body.map fun b => blockNode (stmtNodes .blocks b.1) b.2 := by
  cases body with
  | none => rfl
  | some b => exact congrArg some (made_stmtBlock (fun s _ => made_stmt s) b.2)

/-- In a declaration the pass makes blocks of bodies and does nothing else. -/
theorem made_decl (d : Decl) : made (d.node .none) = d.node .blocks := by
  induction d using Decl.induct with
  | hclass attrs name nameSpan base members inner span ih =>
    have hmembers : (memberNodes .none members).map made = memberNodes .blocks members := by
      rw [memberNodes_eq, memberNodes_eq]
      refine map_made fun d hd => ?_
      rw [made_member, ih d hd]
    have hbase : (base.map DottedName.node).map made = base.map DottedName.node := by
      rw [Option.map_map, show made ∘ DottedName.node = DottedName.node from
        funext made_dottedName]
    rw [Decl.node, made_fields rfl rfl (by decide)]
    simp only [List.map_cons, List.map_nil, madeValue_optional, made_attrs, madeValue_node, hbase,
      made_name]
    rw [made_fields rfl rfl (by decide)]
    simp only [List.map_cons, List.map_nil, madeValue_nodes, hmembers]
    rfl
  | hfunction attrs name nameSpan params result body span =>
    have hparams : (params.map Typed.node).map made = params.map Typed.node :=
      map_made fun t _ => made_typed t
    have hresult : (result.map ResultType.node).map made = result.map ResultType.node := by
      rw [Option.map_map, show made ∘ ResultType.node = ResultType.node from
        funext made_resultType]
    rw [Decl.node, made_fields rfl rfl (by decide)]
    simp only [List.map_cons, List.map_nil, madeValue_optional, made_attrs, madeValue_node,
      madeValue_nodes, hparams, hresult, made_name, made_functionBody]
    rfl
  | hdeclares attrs isConst v =>
    rw [Decl.node, made_variables, made_attrs, Decl.node]
  | henum attrs name members inner span =>
    have hmembers : (members.map EnumMember.node).map made = members.map EnumMember.node :=
      map_made fun m _ => made_enumMember m
    rw [Decl.node, made_fields rfl rfl (by decide)]
    simp only [List.map_cons, List.map_nil, madeValue_optional, made_attrs, madeValue_node,
      made_argument]
    rw [made_fields rfl rfl (by decide)]
    simp only [List.map_cons, List.map_nil, madeValue_nodes, hmembers]
    rfl
  | htype attrs name nameSpan type span =>
    rw [Decl.node, made_fields rfl rfl (by decide)]
    simp only [List.map_cons, List.map_nil, madeValue_optional, made_attrs, madeValue_node,
      made_resultType, made_name]
    rfl

theorem made_topLevel (t : TopLevel) : made (t.node .none) = t.node .blocks := by
  induction t using TopLevel.induct with
  | husing id shortName span =>
    rw [TopLevel.node, made_fields rfl rfl (by decide)]
    simp only [List.map_cons, List.map_nil, madeValue_optional, madeValue_node, made_dottedName,
      made_argument]
    rfl
  | himport id span =>
    rw [TopLevel.node, made_fields rfl rfl (by decide)]
    simp only [List.map_cons, List.map_nil, madeValue_node, made_dottedName]
    rfl
  | hdecl d => exact made_decl d
  | hmodule attrs name nameSpan body inner span ih =>
    have hbody : (topLevelNodes .none body).map made = topLevelNodes .blocks body := by
      rw [topLevelNodes_eq, topLevelNodes_eq, map_made ih]
    rw [TopLevel.node, made_fields rfl rfl (by decide)]
    simp only [List.map_cons, List.map_nil, madeValue_optional, made_attrs, madeValue_node,
      made_name, made_block, hbody]
    rfl

/-- In a source the pass makes blocks of bodies and does nothing else. -/
theorem made_outline (x : Outline) (span : Span) :
    made (x.node .none span) = x.node .blocks span := by
  have hnodes : (x.nodes .none).map made = x.nodes .blocks := by
    cases x with
    | program ts => exact map_made fun t _ => made_topLevel t
    | statements ss => exact map_made fun s _ => made_stmt s
    | members ds =>
      refine map_made fun d _ => ?_
      rw [made_member, made_decl]
  rw [Outline.node, made_fields rfl rfl (by decide)]
  simp only [List.map_cons, List.map_nil, madeValue_nodes, hnodes]
  rfl

end Parentheses

end MonkeyFormat
