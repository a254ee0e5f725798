import MonkeyFormat.Proofs.Structure
import MonkeyFormat.Proofs.TypePrinting
import MonkeyFormat.Proofs.TypeReading

set_option autoImplicit false

/-! # Declared types survive formatting

Variables, functions and type definitions with any types are formatted as declarations that are read
with the same types, except that an alternative behind which the absent value is the only other one
has become nullable, at every level of the types. -/

namespace MonkeyFormat

open Parse (optional nodes listed)

/-! ## Declarations with types -/

/-- A variable with an optional type and an optional value. -/
structure TypedVariable where
  id : Parameter
  init : Option Term
  span : Span

namespace TypedVariable

/-- The node of a variable or a constant. -/
def node (isConst : Bool) (v : TypedVariable) : Node :=
  ⟨"VariableDeclarator", v.span,
    [("id", .node v.id.node), ("init", optional (v.init.map Term.node)),
    ("kind", .str (keyword isConst))]⟩

/-- The tokens of a variable. -/
def glyphs (v : TypedVariable) : List Glyph :=
  v.id.glyphs ++ (v.init.map fun t => Glyph.of "=" :: t.glyphs).getD []

/-- The variable with its type settled. -/
def settled (v : TypedVariable) : TypedVariable := { v with id := v.id.settled }

end TypedVariable

/-- A declaration with types in it. -/
inductive TypedDecl where
  | declares (attrs : Attrs) (isConst : Bool) (first : TypedVariable) (more : List TypedVariable)
    (span : Span)
  | function (attrs : Attrs) (name : Name) (nameSpan : Span) (params : List Parameter)
    (result : TypeResult) (body : Option (List Stmt × Span)) (span : Span)
  | typeDef (attrs : Attrs) (name : Name) (nameSpan : Span) (type : TypeExpr) (typeSpan span : Span)

namespace TypedDecl

/-- The node of a declaration. -/
def node (r : Rewriting) : TypedDecl → Node
  | .declares attrs isConst first more span => Parse.declaredNode isConst (attrs.node? r)
      ((first :: more).map (TypedVariable.node isConst)) span
  | .function attrs name nameSpan params result body span => ⟨"FunctionDeclaration", span,
      [("attrs", optional (attrs.node? r)), ("id", .node (name.node nameSpan)),
        ("params", nodes (params.map Parameter.node)), ("returnType", optional result.node?),
        ("body", optional (body.map fun b => blockNode (stmtNodes r b.1) b.2))]⟩
  | .typeDef attrs name nameSpan type typeSpan span => ⟨"TypedefDeclaration", span,
      [("attrs", optional (attrs.node? r)), ("id", .node (name.node nameSpan)),
        ("ts", optional (TypeResult.typed type typeSpan).node?)]⟩

/-- The tokens of a declaration, with its access words in order. -/
def glyphs : TypedDecl → List Glyph
  | .declares attrs isConst first more _ => attrs.glyphs ++ (Glyph.of (keyword isConst) ::
      [Glyph.of ","].intercalate ((first :: more).map TypedVariable.glyphs) ++ [Glyph.of ";"])
  | .function attrs name _ params result body _ => attrs.glyphs ++ Glyph.of "function" ::
      name.glyph :: (listed (params.map Parameter.glyphs) ++
        (result.glyphs ++ functionBodyGlyphs body))
  | .typeDef attrs name _ type typeSpan _ => attrs.glyphs ++ Glyph.of "typedef" :: name.glyph ::
      ((TypeResult.typed type typeSpan).glyphs ++ [Glyph.of ";"])

/-- The declaration with all its types settled. -/
def settled : TypedDecl → TypedDecl
  | .declares attrs isConst first more span =>
    .declares attrs isConst first.settled (more.map TypedVariable.settled) span
  | .function attrs name nameSpan params result body span =>
    .function attrs name nameSpan (params.map Parameter.settled) result.settled body span
  | .typeDef attrs name nameSpan type typeSpan span =>
    .typeDef attrs name nameSpan type.settled typeSpan span

/-- The root of a source that holds the declarations. -/
def root (r : Rewriting) (ds : List TypedDecl) (span : Span) : Node :=
  ⟨"Program", span, [("body", nodes (ds.map (node r)))]⟩

end TypedDecl

/-! ## Making parentheses explicit -/

namespace Parentheses

theorem made_id (p : Parameter) : made p.node = p.node := made_parameter fun t _ => made_type t

theorem made_result (r : TypeResult) : r.node?.map made = r.node? := by
  cases hr : r.node? with
  | none => rfl
  | some n => exact congrArg some (made_typeResult (fun t _ => made_type t) n hr)

theorem made_declaredNode {ns : List Node} (h : ns.map made = ns) (isConst : Bool) (attrs : Attrs)
    (span : Span) : made (Parse.declaredNode isConst (attrs.node? .none) ns span) =
      Parse.declaredNode isConst (attrs.node? .blocks) ns span := by
  rw [Parse.declaredNode, made_fields rfl rfl (by decide)]
  simp only [List.map_cons, List.map_nil, madeValue_optional, made_attrs, madeValue_nodes, h]
  rfl

theorem made_typedVariable (isConst : Bool) (v : TypedVariable) :
    made (v.node isConst) = v.node isConst := by
  rw [TypedVariable.node, made_fields rfl rfl (by decide)]
  simp [made_id, made_comp_term]

/-- In a declaration with types the pass makes blocks of bodies and does nothing else. -/
theorem made_typedDecl (d : TypedDecl) : made (d.node .none) = d.node .blocks := by
  cases d with
  | declares attrs isConst first more span =>
    exact made_declaredNode (map_made fun v _ => made_typedVariable isConst v) isConst attrs span
  | function attrs name nameSpan params result body span =>
    have hparams : (params.map Parameter.node).map made = params.map Parameter.node :=
      map_made fun p _ => made_id p
    rw [TypedDecl.node, made_fields rfl rfl (by decide)]
    simp only [List.map_cons, List.map_nil, madeValue_optional, made_attrs, madeValue_node,
      madeValue_nodes, hparams, made_result, made_name, made_functionBody]
    rfl
  | typeDef attrs name nameSpan type typeSpan span =>
    rw [TypedDecl.node, made_fields rfl rfl (by decide)]
    simp only [List.map_cons, List.map_nil, madeValue_optional, made_attrs, madeValue_node,
      made_result, made_name]
    rfl

theorem made_typedRoot (ds : List TypedDecl) (span : Span) :
    made (TypedDecl.root .none ds span) = TypedDecl.root .blocks ds span := by
  have hnodes : (ds.map (TypedDecl.node .none)).map made = ds.map (TypedDecl.node .blocks) :=
    map_made fun d _ => made_typedDecl d
  rw [TypedDecl.root, made_fields rfl rfl (by decide)]
  simp only [List.map_cons, List.map_nil, madeValue_nodes, hnodes]
  rfl

end Parentheses

/-! ## Laying out -/

namespace Layout

variable {cx : Context} {fuel : Nat} {above : List (Step × Value)}

theorem prints_typedVariable (hcx : cx.attached = []) (isConst : Bool) (v : TypedVariable)
    (h : (v.node isConst).depth < fuel) :
    Prints (tree cx fuel ⟨.node (v.node isConst), above⟩) .fresh v.settled.glyphs .ending := by
  obtain ⟨fuel, rfl⟩ := exists_fuel (Nat.le_of_lt h)
  obtain ⟨id, init, span⟩ := v
  have hopen (name : String) : Nesting.Open ((.field name, .node
      (TypedVariable.node isConst ⟨id, init, span⟩)) :: above) :=
    ⟨_, rfl, (by decide : "VariableDeclarator" ∉ Nesting.operatorKinds)⟩
  have hid :
      Prints (below cx fuel ⟨.node (TypedVariable.node isConst ⟨id, init, span⟩), above⟩ "id")
      .fresh id.settled.glyphs .ending :=
    below_within rfl (Nat.le_of_lt_succ h) fun he =>
      prints_parameter hcx (fun t _ => printsType hcx t) (hopen _) he
  have hrule : tree cx (fuel + 1) ⟨.node (TypedVariable.node isConst ⟨id, init, span⟩), above⟩ =
      initialized (below cx fuel) ⟨.node (TypedVariable.node isConst ⟨id, init, span⟩), above⟩
        (TypedVariable.node isConst ⟨id, init, span⟩) :=
    tree_generic_plain hcx fuel "VariableDeclarator" "variable_declarator"
      (snake_of_mem (by decide))
      (fun _ _ _ _ => rfl) (by decide) _ _ _
  rw [hrule]
  refine hid.bind fun d hd => ?_
  cases init with
  | none =>
    change Prints (pure d) .fresh (id.settled.glyphs ++ []) .ending
    rw [List.append_nil]
    exact .pure hd
  | some t =>
    have hvalue : Prints (below cx fuel
        ⟨.node (TypedVariable.node isConst ⟨id, some t, span⟩), above⟩ "init") .fresh t.glyphs
          .word :=
      below_within rfl (Nat.le_of_lt_succ h) fun he => prints_term hcx t (hopen _) (Nat.le_of_lt he)
    refine hvalue.bind fun e he => ?_
    exact .pure ((spells_assignment hd he).toEnding (.inl rfl))

/-- The declaration's layout spells its tokens with its types settled, wherever it may stand. -/
def PrintsTypedDecl (cx : Context) (d : TypedDecl) : Prop :=
  ∀ (fuel : Nat) (above : List (Step × Value)), OutOfHeader above →
    (d.node .none).Edged (0 ≤ ·) → (d.node .blocks).depth < fuel →
    Prints (tree cx fuel ⟨.node (d.node .blocks), above⟩) .fresh d.settled.glyphs .fresh

theorem prints_typedVariables (hcx : cx.attached = []) (attrs : Attrs) (isConst : Bool)
    (first : TypedVariable) (more : List TypedVariable) (span : Span) :
    PrintsTypedDecl cx (.declares attrs isConst first more span) := by
  intro fuel above hheader _ h
  obtain ⟨fuel, rfl⟩ := exists_fuel (Nat.le_of_lt h)
  have hout : (Cursor.parent ⟨.node (TypedDecl.node .blocks
      (.declares attrs isConst first more span)), above⟩).any (fun p => p.kind = "ForStatement" &&
        Cursor.key ⟨.node (TypedDecl.node .blocks (.declares attrs isConst first more span)),
          above⟩ == some "init") = false := by
    rw [beq_eq_false_iff_ne.2 (show Cursor.key ⟨.node (TypedDecl.node .blocks
      (.declares attrs isConst first more span)), above⟩ ≠ _ from hheader)]
    simp
  have hfield : (TypedDecl.node .blocks (.declares attrs isConst first more span)).get
      "declarations" = .list ((first :: more).map fun v => .node (v.node isConst)) := by
    change nodes ((first :: more).map (TypedVariable.node isConst)) = _
    rw [nodes, List.map_map]
    rfl
  have hdeclared :=
      declared_prints isConst rfl hfield (fun v hv i => prints_typedVariable hcx isConst v
      (Nat.lt_of_lt_of_le (depth_element hfield hv) (Nat.le_of_lt_succ h)))
    (.closed (c := ',') (by decide)) (.closed (c := ';') (by decide)) false hout
  have hglyphs : (first :: more).map (fun v : TypedVariable => v.settled.glyphs) =
      (first.settled :: more.map TypedVariable.settled).map TypedVariable.glyphs := by simp
  rw [hglyphs] at hdeclared
  rw [TypedDecl.node, Parse.declaredNode] at hdeclared ⊢
  rw [tree_attributed hcx "VariableDeclaration" "variable_declaration" (snake_of_mem (by decide))
    (fun _ _ _ _ => rfl) (by decide)]
  refine hdeclared.bind fun d hd => ?_
  exact withAttrs_prints hcx attrs rfl (Nat.le_of_lt h) hd

theorem prints_typedFunction (hcx : cx.attached = []) (attrs : Attrs) (name : Name)
    (nameSpan : Span)
    (params : List Parameter) (result : TypeResult) (body : Option (List Stmt × Span))
    (span : Span) :
    PrintsTypedDecl cx (.function attrs name nameSpan params result body span) := by
  intro fuel above _ hshape h
  obtain ⟨fuel, rfl⟩ := exists_fuel (Nat.le_of_lt h)
  have hbody : ∀ b ∈ body, ∀ s ∈ b.1, (s.node .none).Edged (0 ≤ ·) := by
    rintro b rfl
    exact shaped_block (hshape.optional "body" rfl (by decide) rfl)
  have hsignature := settledSignature_prints above hcx (fun p _ t _ => printsType hcx t)
    (fun t _ => printsType hcx t) (n := TypedDecl.node .blocks
      (.function attrs name nameSpan params result body span)) rfl rfl
    (by decide : "FunctionDeclaration" ∉ Nesting.operatorKinds) (Nat.le_of_lt_succ h)
  have hfunction := functionDeclaration_prints hcx hsignature (.text [] .fresh rfl rfl)
    (.closed (c := ';') (by decide)) rfl rfl hbody (Nat.le_of_lt h)
  have hglyphs : params.map (fun p => p.settled.glyphs) =
      (params.map Parameter.settled).map Parameter.glyphs := by simp
  rw [hglyphs, List.append_assoc] at hfunction
  rw [TypedDecl.node] at hfunction ⊢
  rw [tree_attributed hcx "FunctionDeclaration" "function_declaration" (snake_of_mem (by decide))
    (fun _ _ _ _ => rfl) (by decide)]
  refine hfunction.bind fun d hd => ?_
  exact withAttrs_prints hcx attrs rfl (Nat.le_of_lt h) hd

/-- Without comments, the layout of a declaration spells its tokens with its types settled. -/
theorem printsTypedDecl (hcx : cx.attached = []) (d : TypedDecl) : PrintsTypedDecl cx d := by
  cases d with
  | declares attrs isConst first more span =>
    exact prints_typedVariables hcx attrs isConst first more span
  | function attrs name nameSpan params result body span =>
    exact prints_typedFunction hcx attrs name nameSpan params result body span
  | typeDef attrs name nameSpan type typeSpan span =>
    intro fuel above _ _ h
    obtain ⟨fuel, rfl⟩ := exists_fuel (Nat.le_of_lt h)
    have htype : Prints (below cx fuel ⟨.node (TypedDecl.node .blocks
        (.typeDef attrs name nameSpan type typeSpan span)), above⟩ "ts") .word
        (TypeResult.typed type typeSpan).settled.glyphs .ending :=
      result_prints hcx (fun t _ => printsType hcx t) rfl (Nat.le_of_lt_succ h)
    exact typedef_prints hcx attrs name nameSpan rfl rfl rfl htype (.closed (c := ';') (by decide))
      (Nat.le_of_lt h)

/-- Without comments, the layout of a source of declarations spells their tokens with all types
settled. -/
theorem prints_typedRoot (hcx : cx.attached = []) (ds : List TypedDecl) (span : Span)
    (hshape : (TypedDecl.root .none ds span).Edged (0 ≤ ·))
    (h : (TypedDecl.root .blocks ds span).depth < fuel) :
    Prints (tree cx fuel ⟨.node (TypedDecl.root .blocks ds span), []⟩) .fresh
      (ds.flatMap fun d => d.settled.glyphs) .fresh := by
  obtain ⟨fuel, rfl⟩ := exists_fuel (Nat.le_of_lt h)
  have hds : ∀ d ∈ ds, (d.node .none).Edged (0 ≤ ·) := fun d hd =>
    hshape.item "body" rfl (by decide) rfl _ (List.mem_map_of_mem hd)
  have hfield : (TypedDecl.root .blocks ds span).get "body" =
      .list (ds.map fun d => .node (d.node .blocks)) := by
    change nodes (ds.map (TypedDecl.node .blocks)) = _
    rw [nodes, List.map_map]
    rfl
  have hrule : tree cx (fuel + 1) ⟨.node (TypedDecl.root .blocks ds span), []⟩ =
      program cx (below cx fuel) ⟨.node (TypedDecl.root .blocks ds span), []⟩
        (TypedDecl.root .blocks ds span) :=
    tree_generic_plain hcx fuel "Program" "program" (snake_of_mem (by decide))
      (fun _ _ _ _ => rfl) (by decide) _ _ _
  rw [hrule]
  refine program_prints hcx hfield (fun d hd i => ?_) fun d hd => ?_
  · exact printsTypedDecl hcx d fuel _ (by decide : some "body" ≠ some "init") (hds d hd)
      (Nat.lt_of_lt_of_le (depth_element hfield hd) (Nat.le_of_lt_succ h))
  · have hspan : (d.node .blocks).span = (d.node .none).span := by cases d <;> rfl
    rw [Node.stop, hspan]
    exact (hds d hd).here.2

end Layout

/-! ## Reading -/

namespace Parse

variable {fuel : Nat} {next : Glyph → Prop}

theorem reads_nested {p : Parameter} (hlen : p.glyphs.length ≤ fuel) : ∀ t ∈ p.nested,
    Reads (types (fuel + 1)) t.glyphs EndsTypes t.node.unspanned := by
  intro t ht
  cases p with
  | plain name span => cases ht
  | typed name first type span =>
    obtain rfl := List.mem_singleton.1 ht
    rw [Parameter.glyphs, List.length_cons, List.length_cons] at hlen
    exact readsType t fuel (by omega)

theorem result_nested {r : TypeResult} (hlen : r.glyphs.length ≤ fuel) : ∀ t ∈ r.nested,
    Reads (types (fuel + 1)) t.glyphs EndsTypes t.node.unspanned := by
  intro t ht
  cases r with
  | none => cases ht
  | typed type span =>
    obtain rfl := List.mem_singleton.1 ht
    rw [TypeResult.glyphs, List.length_cons] at hlen
    exact readsType t fuel (by omega)

theorem reads_typedVariable (isConst : Bool) (v : TypedVariable) (hlen : v.glyphs.length ≤ fuel) :
    Reads (declarator (fuel + 1) (keyword isConst)) v.glyphs EndsVariable
      (v.node isConst).unspanned := by
  rw [TypedVariable.glyphs, List.length_append] at hlen
  have hid := reads_parameter (reads_nested (by omega : v.id.glyphs.length ≤ fuel))
  refine reads_declaratorOf (keyword isConst) v.init v.span hid ?_ (by omega)
  rintro g ((rfl | rfl) | rfl) <;> exact endsTypes_of_mem _ (by decide)

/-- The grammar reads the tokens of the declaration as it with its access words in order. -/
def ReadsTypedDecl (d : TypedDecl) : Prop :=
  ∀ (allowModule : Bool) (fuel : Nat), d.glyphs.length ≤ fuel →
    Reads (declaration allowModule (fuel + 1)) d.glyphs EndsDecl (d.node .settled).unspanned

theorem reads_typedVariables (attrs : Attrs) (isConst : Bool) (first : TypedVariable)
    (more : List TypedVariable) (span : Span) :
    ReadsTypedDecl (.declares attrs isConst first more span) := by
  intro allowModule fuel hlen
  have hcount := length_intercalate ((first :: more).map TypedVariable.glyphs) (Glyph.of ",")
  simp only [TypedDecl.glyphs, List.length_append, List.length_cons (a := Glyph.of _)] at hlen
  rw [List.length_map, List.length_cons] at hcount
  have hitem : ∀ v ∈ first :: more, Reads (declarator (fuel + 1) (keyword isConst)) v.glyphs
      EndsVariable (v.node isConst).unspanned := by
    intro v hv
    have hle := length_le_of_mem_intercalate (Glyph.of ",")
      (List.mem_map_of_mem (f := TypedVariable.glyphs) hv)
    exact reads_typedVariable isConst v (by omega)
  rw [TypedDecl.glyphs, List.cons_append]
  refine reads_declaration attrs ?_ (by omega) fun r hr => ?_
  · cases isConst <;> exact ⟨by decide, by decide⟩
  have hread (start : Span) : Reads (variablesStatement (fuel + 1) start r) _ EndsDecl _ :=
    reads_declaredStatement isConst start span hr hitem (by omega)
  refine Takes.peek fun t ht => ?_
  cases isConst with
  | false =>
    rw [show t.kind = .var from congrArg Glyph.kind ht]
    exact hread _
  | true =>
    rw [show t.kind = .const from congrArg Glyph.kind ht]
    exact hread _

theorem reads_typedFunction (attrs : Attrs) (name : Name) (nameSpan : Span) (ps : List Parameter)
    (result : TypeResult) (body : Option (List Stmt × Span)) (span : Span) :
    ReadsTypedDecl (.function attrs name nameSpan ps result body span) := by
  intro allowModule fuel hlen
  simp only [TypedDecl.glyphs, List.length_append, List.length_cons] at hlen
  have hcount := length_listed (ps.map Parameter.glyphs)
  rw [List.length_map] at hcount
  have hnested : ∀ p ∈ ps, ∀ t ∈ p.nested,
      Reads (types (fuel + 1)) t.glyphs EndsTypes t.node.unspanned := by
    intro p hp
    have hlt := length_of_mem_listed (List.mem_map_of_mem (f := Parameter.glyphs) hp)
    exact reads_nested (by omega)
  have hparams : Takes (params (fuel + 1) (types (fuel + 1))) (listed (parametersGlyphs ps))
      (fun _ => True) fun ns => ns.map Node.unspanned = (parameterNodes ps).map Node.unspanned :=
    takes_parameters hnested (by omega)
  rw [parametersGlyphs_eq, parameterNodes_eq] at hparams
  have hresult := takes_result (result_nested (by omega : result.glyphs.length ≤ fuel))
  rw [TypedDecl.glyphs]
  refine reads_declaration attrs ⟨by decide, by decide⟩ (by omega) fun r hr => ?_
  refine Takes.peek fun t ht => ?_
  rw [show t.kind = .function from congrArg Glyph.kind ht]
  exact reads_functionDeclaration _ name nameSpan body span hr hparams hresult
    ⟨endsTypes_of_mem _ (by decide), endsTypes_of_mem _ (by decide)⟩ (by omega)

/-- The grammar reads the tokens of a declaration as it with its access words in order. -/
theorem readsTypedDecl (d : TypedDecl) : ReadsTypedDecl d := by
  cases d with
  | declares attrs isConst first more span =>
    exact reads_typedVariables attrs isConst first more span
  | function attrs name nameSpan params result body span =>
    exact reads_typedFunction attrs name nameSpan params result body span
  | typeDef attrs name nameSpan type typeSpan span =>
    intro allowModule fuel hlen
    simp only [TypedDecl.glyphs, List.length_append, List.length_cons] at hlen
    have htype := takes_result (result_nested (r := .typed type typeSpan)
      (by omega : _ ≤ fuel))
    rw [TypedDecl.glyphs]
    refine reads_declaration attrs ⟨by decide, by decide⟩ (by omega) fun r hr => ?_
    refine Takes.peek fun t ht => ?_
    rw [show t.kind = .typedef from congrArg Glyph.kind ht]
    exact reads_typedefDeclaration _ name nameSpan span hr htype (endsTypes_of_mem _ (by decide))

theorem headD_typedDecl (d : TypedDecl) (g : Glyph) :
    (d.glyphs.headD g).kind ∈ declarationStarts := by
  have hends : .leftParen ∈ declarationStarts ∧ .access ∈ declarationStarts := by decide
  cases d with
  | declares attrs isConst first more span =>
    rw [TypedDecl.glyphs, List.cons_append]
    refine headD_attrs attrs hends ?_ _ g
    cases isConst <;> decide
  | _ => exact headD_attrs _ hends (by decide) _ g

/-- The start rule for a compilation unit reads the tokens of declarations as these. -/
theorem reads_typedRoot {o : Options} (ho : o.rule = .program) (ds : List TypedDecl) (span : Span) :
    Reads (startRule o) (ds.flatMap TypedDecl.glyphs) (fun g => g = Lexer.endGlyph)
      (TypedDecl.root .settled ds span).unspanned := by
  have hend : EndsDecl Lexer.endGlyph := by
    unfold EndsDecl
    decide
  have hpos (d : TypedDecl) : 0 < d.glyphs.length := by cases d <;> simp [TypedDecl.glyphs]
  rw [startRule, ho]
  refine takes_fueled fun fuel hfuel => ?_
  have hcount := length_flatMap ds fun d _ => hpos d
  change (ds.flatMap TypedDecl.glyphs).length + 2 ≤ fuel at hfuel
  have hitem : ∀ d ∈ ds, Reads (topLevel (fuel + 1)) d.glyphs EndsDecl
      (d.node .settled).unspanned := by
    intro d hd
    have hle : d.glyphs.length ≤ (ds.flatMap TypedDecl.glyphs).length := length_le_flatMap hd
    obtain ⟨fuel, rfl⟩ : ∃ m, fuel = m + 1 := ⟨fuel - 1, by omega⟩
    refine reads_topLevel_of_declaration (fun g => ?_) (readsTypedDecl d true fuel (by omega))
    have hall : ∀ k ∈ declarationStarts, k ≠ .using ∧ k ≠ .importWord := by decide
    exact hall _ (headD_typedDecl d g)
  refine reads_untilEnd span hitem (fun d _ g => ?_) hend (by omega)
  have hstart := endsDecl_of_start (start_decl (headD_typedDecl d g))
  exact ⟨hstart.1.2, hstart.2⟩

end Parse

/-! ## Formatting -/

/-- The layout of a source of declarations is read as these with all their types settled, besides
bodies that become blocks and access words that are put in order. -/
theorem formatSource_declaredTypes (ds : List TypedDecl) (span : Span) {source : String}
    {o : Options} (ho : o.rule = .program)
    (h : parse source o = .ok (TypedDecl.root .none ds span, [])) :
    ∃ text root, formatSource source o = .ok ⟨text, []⟩ ∧ parse text o = .ok (root, []) ∧
      root.unspanned = (TypedDecl.root .settled (ds.map TypedDecl.settled) span).unspanned := by
  have hmade : (Parentheses.explicit (TypedDecl.root .none ds span)).result =
      TypedDecl.root .blocks ds span := Parentheses.made_typedRoot ds span
  have hprints : Layout.Prints (Layout.tree ⟨o.widths, Source.ofString source, []⟩
      ((Parentheses.explicit (TypedDecl.root .none ds span)).result.depth + 1)
      ⟨.node (Parentheses.explicit (TypedDecl.root .none ds span)).result, []⟩) .fresh
      ((ds.map TypedDecl.settled).flatMap TypedDecl.glyphs) .fresh := by
    rw [hmade, List.flatMap_map]
    exact Layout.prints_typedRoot rfl ds span (parse_edged h) (Nat.lt_succ_self _)
  obtain ⟨text, hformat, hscan⟩ := formatTree_of_prints (Parentheses.run_of_parse h) hprints
  obtain ⟨root, hparse, hroot⟩ := parse_of_reads hscan
    (Parse.reads_typedRoot ho (ds.map TypedDecl.settled) span)
  refine ⟨text, root, ?_, hparse, hroot⟩
  unfold formatSource
  simp only [h, bind, Except.bind]
  exact hformat

/-- A name as an alternative on the first line, with types in angles. -/
def namedPart (x : Name) (first last : Int) (generics : List TypeExpr) (stop : Int) : TypePart :=
  .named (.name x (onFirstLine first last)) generics (onFirstLine first stop)

/-- A variable whose type is one with nested generic arguments, or else the absent value. -/
def unionDecl : TypedDecl :=
  let c : TypeExpr := .mk [] (namedPart ⟨"C", by decide⟩ 13 14 [] 14) false (onFirstLine 13 14)
  let b : TypeExpr := .mk [] (namedPart ⟨"B", by decide⟩ 11 12 [c] 15) false (onFirstLine 11 15)
  let type : TypeExpr := .mk [namedPart ⟨"A", by decide⟩ 9 10 [b] 16]
    (namedPart ⟨"Null", by decide⟩ 20 24 [] 24) false (onFirstLine 9 24)
  .declares .none false ⟨.typed ⟨"v", by decide⟩ (onFirstLine 4 5) type (onFirstLine 4 24), none,
    onFirstLine 4 24⟩ [] (onFirstLine 0 25)

theorem formatSource_declaredTypes_union :
    parse "var v as A<B<C>> or Null;" {} =
        .ok (TypedDecl.root .none [unionDecl] (onFirstLine 0 25), []) ∧
      ∃ text root, formatSource "var v as A<B<C>> or Null;" {} = .ok ⟨text, []⟩ ∧
        parse text {} = .ok (root, []) ∧
        root.unspanned =
          (TypedDecl.root .settled [unionDecl.settled] (onFirstLine 0 25)).unspanned := by
  have hparse : parse "var v as A<B<C>> or Null;" {} =
      .ok (TypedDecl.root .none [unionDecl] (onFirstLine 0 25), []) := by
    unfold parse Parse.startRule Parse.program
    simp only [Parse.programOf_eq]
    decide +kernel
  exact ⟨hparse, formatSource_declaredTypes [unionDecl] _ rfl hparse⟩

end MonkeyFormat
