import MonkeyFormat.Proofs.StatementSyntax

set_option autoImplicit false

/-! # Declarations over simple expressions

The declarations of the language, with attribute lists of symbols and access words before them, and
the three forms of a whole source: a compilation unit, statements, or the members of a class. -/

namespace MonkeyFormat

open Parse (optional nodes listed spanning)

/-! ## Attributes -/

/-- The words that say from where a declaration may be used. -/
def accessTexts : List String := ["static", "private", "protected", "hidden", "public"]

/-- One of these words. -/
structure AccessWord where
  text : String
  isAccess : text ∈ accessTexts

theorem Rewriting.mem_sortWords {ws : List String} {w : String} :
    w ∈ Rewriting.sortWords ws ↔ w ∈ ws := by
  rw [Rewriting.sortWords, List.mem_mergeSort, List.mem_eraseDups]

theorem Rewriting.isEmpty_sortWords {ws : List String} (h : ws ≠ []) :
    (Rewriting.sortWords ws).isEmpty = false := by
  obtain ⟨w, hw⟩ := List.exists_mem_of_ne_nil ws h
  rw [List.isEmpty_eq_false_iff]
  exact List.ne_nil_of_mem (Rewriting.mem_sortWords.2 hw)

theorem AccessWord.isAccess_of_mem_sorted {ws : List AccessWord} {w : String}
    (h : w ∈ Rewriting.sortWords (ws.map AccessWord.text)) : w ∈ accessTexts := by
  obtain ⟨u, _, rfl⟩ := List.mem_map.1 (Rewriting.mem_sortWords.1 h)
  exact u.isAccess

/-- A symbol: a name behind a colon. -/
structure Symbol where
  name : Name
  inner : Span
  span : Span

namespace Symbol

/-- The node of a symbol. -/
def node (s : Symbol) : Node := ⟨"UnaryExpression", s.span, [("operator", .str ":"),
  ("argument", .node (s.name.node s.inner)), ("prefix", .bool true)]⟩

/-- The tokens of a symbol. -/
def glyphs (s : Symbol) : List Glyph := [Glyph.of ":", s.name.glyph]

end Symbol

/-- What stands before a declaration. -/
inductive Attrs where
  | none
  | words (first : AccessWord) (more : List AccessWord) (span : Span)
  | symbols (ss : List Symbol) (inner : Span) (words : List AccessWord) (span : Span)

namespace Attrs

/-- Access words as the value of a field. -/
def access (ws : List String) : Value := if ws.isEmpty then .null else .list (ws.map .str)

/-- The node of what stands before a declaration. -/
def node? (r : Rewriting) : Attrs → Option Node
  | .none => Option.none
  | .words w ws span => some ⟨"AttributeList", span, [("attributes", .null),
      ("access", access (r.words ((w :: ws).map AccessWord.text)))]⟩
  | .symbols ss inner ws span => some ⟨"AttributeList", span,
      [("attributes", .node ⟨"Attributes", inner, [("elements", nodes (ss.map Symbol.node))]⟩),
        ("access", access (r.words (ws.map AccessWord.text)))]⟩

/-- The tokens of access words. -/
def wordGlyphs (ws : List AccessWord) : List Glyph :=
  (Rewriting.sortWords (ws.map AccessWord.text)).map Glyph.of

/-- The tokens that stand before a declaration. -/
def glyphs : Attrs → List Glyph
  | .none => []
  | .words w ws _ => wordGlyphs (w :: ws)
  | .symbols ss _ ws _ => listed (ss.map Symbol.glyphs) ++ wordGlyphs ws

end Attrs

/-! ## Declarations -/

/-- A member of an enumeration, with an optional value. -/
structure EnumMember where
  name : Name
  first : Span
  init : Option (Term × Span)

namespace EnumMember

/-- The node of a member. -/
def node (m : EnumMember) : Node :=
  match m.init with
  | none => m.name.node m.first
  | some (t, span) => ⟨"EnumStringMember", span, [("id", .node (m.name.node m.first)),
      ("init", .node t.node)]⟩

/-- The tokens of a member. -/
def glyphs (m : EnumMember) : List Glyph :=
  m.name.glyph :: (m.init.map fun i => Glyph.of "=" :: i.1.glyphs).getD []

end EnumMember

/-- A type behind `as`. -/
structure ResultType where
  type : PlainType
  span : Span

namespace ResultType

/-- The node of a type behind `as`. -/
def node (t : ResultType) : Node := ⟨"UnaryExpression", t.span, [("operator", .str " as"),
  ("argument", .node t.type.node), ("prefix", .bool true)]⟩

/-- The tokens of a type behind `as`. -/
def glyphs (t : ResultType) : List Glyph := Glyph.of "as" :: t.type.glyphs

end ResultType

/-- A declaration that may stand inside a class. -/
inductive Decl where
  | classDef (attrs : Attrs) (name : Name) (nameSpan : Span) (base : Option DottedName)
    (members : List Decl) (inner span : Span)
  | function (attrs : Attrs) (name : Name) (nameSpan : Span) (params : List Typed)
    (result : Option ResultType) (body : Option (List Stmt × Span)) (span : Span)
  | declares (attrs : Attrs) (isConst : Bool) (v : Variables)
  | enumDef (attrs : Attrs) (name : Option (Name × Span)) (members : List EnumMember)
    (inner span : Span)
  | typeDef (attrs : Attrs) (name : Name) (nameSpan : Span) (type : ResultType) (span : Span)

/-- An import or a declaration. -/
inductive TopLevel where
  | using (id : DottedName) (shortName : Option (Name × Span)) (span : Span)
  | importModule (id : DottedName) (span : Span)
  | decl (d : Decl)
  | module (attrs : Attrs) (name : Name) (nameSpan : Span) (body : List TopLevel)
    (inner span : Span)

/-- The node of a declaration inside a class. -/
def memberNode (n : Node) : Node := spanning "ClassElement" n.span n.span [("item", .node n)]

section Nodes

variable (r : Rewriting)

mutual

/-- The node of a declaration. -/
def Decl.node : Decl → Node
  | .classDef attrs name nameSpan base members inner span => ⟨"ClassDeclaration", span,
      [("attrs", optional (attrs.node? r)), ("id", .node (name.node nameSpan)),
        ("superClass", optional (base.map DottedName.node)),
        ("body", .node ⟨"ClassBody", inner, [("body", nodes (memberNodes members))]⟩)]⟩
  | .function attrs name nameSpan params result body span => ⟨"FunctionDeclaration", span,
      [("attrs", optional (attrs.node? r)), ("id", .node (name.node nameSpan)),
        ("params", nodes (params.map Typed.node)),
        ("returnType", optional (result.map ResultType.node)),
        ("body", optional (body.map fun b => blockNode (stmtNodes r b.1) b.2))]⟩
  | .declares attrs isConst v => v.node (keyword isConst) (attrs.node? r)
  | .enumDef attrs name members inner span => ⟨"EnumDeclaration", span,
      [("attrs", optional (attrs.node? r)), ("id", optional (name.map Term.argument)),
        ("body", .node ⟨"EnumStringBody", inner,
          [("members", nodes (members.map EnumMember.node))]⟩)]⟩
  | .typeDef attrs name nameSpan type span => ⟨"TypedefDeclaration", span,
      [("attrs", optional (attrs.node? r)), ("id", .node (name.node nameSpan)),
        ("ts", .node type.node)]⟩

/-- The nodes of the members of a class. -/
def memberNodes : List Decl → List Node
  | [] => []
  | d :: ds => memberNode d.node :: memberNodes ds

end

theorem memberNodes_eq (ds : List Decl) :
    memberNodes r ds = ds.map fun d => memberNode (d.node r) := by
  induction ds with
  | nil => rfl
  | cons d ds ih => rw [memberNodes, ih, List.map_cons]

mutual

/-- The node of an import or a declaration. -/
def TopLevel.node : TopLevel → Node
  | .using id shortName span => ⟨"Using", span, [("id", .node id.node),
      ("as", optional (shortName.map Term.argument))]⟩
  | .importModule id span => ⟨"ImportModule", span, [("id", .node id.node)]⟩
  | .decl d => d.node r
  | .module attrs name nameSpan body inner span => ⟨"ModuleDeclaration", span,
      [("attrs", optional (attrs.node? r)), ("id", .node (name.node nameSpan)),
        ("body", .node (blockNode (topLevelNodes body) inner))]⟩

/-- The nodes of several imports and declarations. -/
def topLevelNodes : List TopLevel → List Node
  | [] => []
  | t :: ts => t.node :: topLevelNodes ts

end

theorem topLevelNodes_eq (ts : List TopLevel) :
    topLevelNodes r ts = ts.map (TopLevel.node r) := by
  induction ts with
  | nil => rfl
  | cons t ts ih => rw [topLevelNodes, ih, List.map_cons]

end Nodes

/-! ## Tokens -/

/-- The tokens of a function's body, or the semicolon that stands for it. -/
def functionBodyGlyphs (body : Option (List Stmt × Span)) : List Glyph :=
  (body.map fun b => bracedGlyphs (stmtGlyphs b.1)).getD [Glyph.of ";"]

mutual

/-- The tokens that a declaration is laid out as. -/
def Decl.glyphs : Decl → List Glyph
  | .classDef attrs name _ base members _ _ => attrs.glyphs ++ Glyph.of "class" :: name.glyph ::
      ((base.map fun c => Glyph.of "extends" :: c.glyphs).getD [] ++
        bracedGlyphs (memberGlyphs members))
  | .function attrs name _ params result body _ => attrs.glyphs ++ Glyph.of "function" ::
      name.glyph :: (listed (params.map Typed.glyphs) ++
        ((result.map ResultType.glyphs).getD [] ++ functionBodyGlyphs body))
  | .declares attrs isConst v => attrs.glyphs ++ (v.glyphs (keyword isConst) ++ [Glyph.of ";"])
  | .enumDef attrs name members _ _ => attrs.glyphs ++ Glyph.of "enum" ::
      ((name.map fun x => [x.1.glyph]).getD [] ++
        bracedGlyphs ([Glyph.of ","].intercalate (members.map EnumMember.glyphs)))
  | .typeDef attrs name _ type _ => attrs.glyphs ++ Glyph.of "typedef" :: name.glyph ::
      (type.glyphs ++ [Glyph.of ";"])

/-- The tokens of the members of a class. -/
def memberGlyphs : List Decl → List Glyph
  | [] => []
  | d :: ds => d.glyphs ++ memberGlyphs ds

end

theorem memberGlyphs_eq (ds : List Decl) : memberGlyphs ds = ds.flatMap Decl.glyphs := by
  induction ds with
  | nil => rfl
  | cons d ds ih => rw [memberGlyphs, ih, List.flatMap_cons]

mutual

/-- The tokens that an import or a declaration is laid out as. -/
def TopLevel.glyphs : TopLevel → List Glyph
  | .using id shortName _ => Glyph.of "using" :: (id.glyphs ++
      ((shortName.map fun x => [Glyph.of "as", x.1.glyph]).getD [] ++ [Glyph.of ";"]))
  | .importModule id _ => Glyph.of "import" :: (id.glyphs ++ [Glyph.of ";"])
  | .decl d => d.glyphs
  | .module attrs name _ body _ _ => attrs.glyphs ++ Glyph.of "module" :: name.glyph ::
      bracedGlyphs (topLevelGlyphs body)

/-- The tokens of several imports and declarations. -/
def topLevelGlyphs : List TopLevel → List Glyph
  | [] => []
  | t :: ts => t.glyphs ++ topLevelGlyphs ts

end

theorem topLevelGlyphs_eq (ts : List TopLevel) :
    topLevelGlyphs ts = ts.flatMap TopLevel.glyphs := by
  induction ts with
  | nil => rfl
  | cons t ts ih => rw [topLevelGlyphs, ih, List.flatMap_cons]

/-! ## Induction -/

section Induction

variable {P : Decl → Prop}

mutual

/-- Induction over declarations: only classes hold others. -/
theorem Decl.induct
    (hclass : ∀ attrs name nameSpan base members inner span, (∀ d ∈ members, P d) →
      P (.classDef attrs name nameSpan base members inner span))
    (hfunction : ∀ attrs name nameSpan params result body span,
      P (.function attrs name nameSpan params result body span))
    (hdeclares : ∀ attrs isConst v, P (.declares attrs isConst v))
    (henum : ∀ attrs name members inner span, P (.enumDef attrs name members inner span))
    (htype : ∀ attrs name nameSpan type span, P (.typeDef attrs name nameSpan type span)) :
    ∀ d, P d
  | .classDef attrs name nameSpan base members inner span =>
    hclass attrs name nameSpan base members inner span
      (members_induct hclass hfunction hdeclares henum htype members)
  | .function attrs name nameSpan params result body span =>
    hfunction attrs name nameSpan params result body span
  | .declares attrs isConst v => hdeclares attrs isConst v
  | .enumDef attrs name members inner span => henum attrs name members inner span
  | .typeDef attrs name nameSpan type span => htype attrs name nameSpan type span

theorem members_induct
    (hclass : ∀ attrs name nameSpan base members inner span, (∀ d ∈ members, P d) →
      P (.classDef attrs name nameSpan base members inner span))
    (hfunction : ∀ attrs name nameSpan params result body span,
      P (.function attrs name nameSpan params result body span))
    (hdeclares : ∀ attrs isConst v, P (.declares attrs isConst v))
    (henum : ∀ attrs name members inner span, P (.enumDef attrs name members inner span))
    (htype : ∀ attrs name nameSpan type span, P (.typeDef attrs name nameSpan type span)) :
    ∀ ds : List Decl, ∀ d ∈ ds, P d
  | [] => by simp
  | d :: ds => List.forall_mem_cons.2 ⟨d.induct hclass hfunction hdeclares henum htype,
      members_induct hclass hfunction hdeclares henum htype ds⟩

end

variable {Q : TopLevel → Prop}

mutual

/-- Induction over imports and declarations: only modules hold others. -/
theorem TopLevel.induct
    (husing : ∀ id shortName span, Q (.using id shortName span))
    (himport : ∀ id span, Q (.importModule id span)) (hdecl : ∀ d, Q (.decl d))
    (hmodule : ∀ attrs name nameSpan body inner span, (∀ t ∈ body, Q t) →
      Q (.module attrs name nameSpan body inner span)) : ∀ t, Q t
  | .using id shortName span => husing id shortName span
  | .importModule id span => himport id span
  | .decl d => hdecl d
  | .module attrs name nameSpan body inner span => hmodule attrs name nameSpan body inner span
      (topLevels_induct husing himport hdecl hmodule body)

theorem topLevels_induct
    (husing : ∀ id shortName span, Q (.using id shortName span))
    (himport : ∀ id span, Q (.importModule id span)) (hdecl : ∀ d, Q (.decl d))
    (hmodule : ∀ attrs name nameSpan body inner span, (∀ t ∈ body, Q t) →
      Q (.module attrs name nameSpan body inner span)) : ∀ ts : List TopLevel, ∀ t ∈ ts, Q t
  | [] => by simp
  | t :: ts => List.forall_mem_cons.2 ⟨t.induct husing himport hdecl hmodule,
      topLevels_induct husing himport hdecl hmodule ts⟩

end

end Induction

/-! ## Whole sources -/

/-- What a source holds, by the rule that it is read by. -/
inductive Outline where
  | program (body : List TopLevel)
  | statements (body : List Stmt)
  | members (body : List Decl)

namespace Outline

/-- The nodes of what a source holds. -/
def nodes (r : Rewriting) : Outline → List Node
  | .program ts => ts.map (TopLevel.node r)
  | .statements ss => ss.map (Stmt.node r)
  | .members ds => ds.map fun d => memberNode (d.node r)

/-- The root of a source. -/
def node (r : Rewriting) (x : Outline) (span : Span) : Node :=
  ⟨"Program", span, [("body", Parse.nodes (x.nodes r))]⟩

/-- The tokens that a source is laid out as. -/
def glyphs : Outline → List Glyph
  | .program ts => ts.flatMap TopLevel.glyphs
  | .statements ss => ss.flatMap Stmt.glyphs
  | .members ds => ds.flatMap Decl.glyphs

/-- Is this what the start rule reads? -/
def Starts (o : Options) : Outline → Prop
  | .program _ => o.rule = .program
  | .statements _ => o.rule = .fragment ∧ o.fragment ∈ [none, some "", some "statements"]
  | .members _ => o.rule = .fragment ∧ o.fragment = some "class"

end Outline

end MonkeyFormat
