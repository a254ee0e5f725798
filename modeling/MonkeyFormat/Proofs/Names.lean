import MonkeyFormat.Proofs.Parsing
import MonkeyFormat.Proofs.Printing

set_option autoImplicit false

/-! # Names

Identifiers and dotted names: the nodes they are, the tokens that their layout spells, and that the
grammar reads these tokens as the same names. -/

namespace MonkeyFormat

/-- A text that lexes as an identifier. -/
structure Name where
  text : String
  isName : Lexeme.isName text = true

namespace Name

/-- The node of an identifier. -/
def node (x : Name) (span : Span) : Node := ⟨"Identifier", span, [("name", .str x.text)]⟩

/-- The token of an identifier. -/
def glyph (x : Name) : Glyph := Glyph.of x.text

@[simp] theorem glyph_kind (x : Name) : x.glyph.kind = .ident := by
  obtain ⟨_, _, _, _, _, hkind⟩ := Lexeme.isName_cons x.isName
  rw [glyph, Glyph.of, hkind]
  rfl

@[simp] theorem glyph_text (x : Name) : x.glyph.text = x.text := rfl

end Name

/-- A name, or a member of a dotted name. -/
inductive DottedName where
  | name (x : Name) (span : Span)
  | member (object : DottedName) (x : Name) (property span : Span)

namespace DottedName

/-- The node of a dotted name. -/
def node : DottedName → Node
  | .name x span => x.node span
  | .member object x property span =>
    ⟨"MemberExpression", span,
      [("object", .node object.node), ("property", .node (x.node property)),
      ("computed", .bool false)]⟩

/-- The tokens of a dotted name. -/
def glyphs : DottedName → List Glyph
  | .name x _ => [x.glyph]
  | .member object x _ _ => object.glyphs ++ [Glyph.of ".", x.glyph]

theorem headD_glyphs_append (c : DottedName) (rest : List Glyph) (g : Glyph) :
    ((c.glyphs ++ rest).headD g).kind = .ident := by
  induction c generalizing rest with
  | name x => exact x.glyph_kind
  | member object x property span ih =>
    rw [glyphs, List.append_assoc]
    exact ih _

/-- A dotted name starts with an identifier. -/
theorem headD_glyphs (c : DottedName) (g : Glyph) : (c.glyphs.headD g).kind = .ident := by
  have h := c.headD_glyphs_append [] g
  rwa [List.append_nil] at h

end DottedName

/-- A type that is a dotted name. -/
structure PlainType where
  name : DottedName
  part : Span
  span : Span

namespace PlainType

/-- The only alternative of a type. -/
def partNode (t : PlainType) : Node :=
  ⟨"TypeSpecPart", t.part, [("name", .node t.name.node), ("generics", .null)]⟩

/-- The node of a type. -/
def node (t : PlainType) : Node := ⟨"TypeSpecList", t.span, [("ts", .list [.node t.partNode])]⟩

/-- The tokens of a type. -/
def glyphs (t : PlainType) : List Glyph := t.name.glyphs

end PlainType

/-! ## Reading -/

namespace Parse

variable {next : Glyph → Prop}

theorem reads_identifier (x : Name) : Reads identifier [x.glyph] next (x.node {}) := by
  have hexpect : Takes (expect .ident "an identifier") [x.glyph] next _ :=
    takes_expect "an identifier" x.glyph_kind (by decide)
  refine hexpect.bind (fun t ht => ?_) fun _ hg => hg
  have htext : t.text = x.text := congrArg Glyph.text ht
  rw [htext]
  exact takes_finish _ _ _

/-- What a dotted name does with each further member. -/
def memberStep (name : Node) : Parse (Node × Bool) := do
  if ← skip .dot then
    let property ← identifier
    let name ← member name property
    pure (name, true)
  else pure (name, false)

theorem scopedName_eq (fuel : Nat) : scopedName fuel = identifier >>= loop memberStep fuel := rfl

theorem loops_scopedName (c : DottedName) {fuel : Nat} : ∀ {rounds : Nat},
    rounds + c.glyphs.length ≤ fuel + 1 →
    Loops (identifier >>= loop memberStep fuel) c.glyphs next memberStep rounds
      fun n => n.unspanned = c.node.unspanned := by
  induction c generalizing next with
  | name x span =>
    intro rounds h
    exact (reads_identifier x).loops (by simpa [DottedName.glyphs] using h)
  | member object x property span ih =>
    intro rounds h
    rw [DottedName.glyphs, List.length_append] at h
    have hobject : rounds + 1 + object.glyphs.length ≤ fuel + 1 := by
      simp only [List.length_cons, List.length_nil] at h
      omega
    refine (ih hobject : Loops _ _ (fun _ => True) _ _ _).round (fun n hn => ?_) fun _ _ => trivial
    have hdot : Takes (skip .dot) [Glyph.of "."] (fun _ => True) _ := takes_skip rfl (by decide)
    have hname : Reads identifier [x.glyph] next _ := reads_identifier x
    refine hdot.bind ?_ fun _ _ => trivial
    rintro _ rfl
    refine hname.bind (fun p hp => ?_) fun _ hg => hg
    refine (takes_finish _ _ _).ahead fun m hm => Takes.pure ⟨rfl, ?_⟩
    rw [hm]
    simp [fieldsUnspanned, Value.unspanned, hn, hp, DottedName.node, Node.unspanned, Node.bare,
      Name.node]

/-- The grammar reads the tokens of a dotted name as that name. -/
theorem reads_scopedName (c : DottedName) {fuel : Nat} (h : c.glyphs.length ≤ fuel) :
    Reads (scopedName fuel) c.glyphs (fun g => g.kind ≠ .dot) c.node.unspanned := by
  rw [scopedName_eq]
  refine (loops_scopedName c (by omega : 1 + c.glyphs.length ≤ fuel + 1)).done (fun n hn => ?_)
    fun _ hg => hg
  refine (takes_skip_none .dot).ahead ?_
  rintro _ rfl
  exact Takes.pure ⟨rfl, hn⟩

/-- May the token follow a type without becoming part of it? -/
def EndsType (g : Glyph) : Prop :=
  g.kind ≠ .dot ∧ g.kind ≠ .less ∧ g.kind ≠ .question ∧ g.kind ≠ .or

theorem takes_generics_none {fuel : Nat} (types : Parse Node) :
    Takes (generics fuel types) [] (fun g => g.kind ≠ .less) (· = none) := by
  refine (takes_skip_none .less).ahead ?_
  rintro _ rfl
  exact Takes.pure rfl

theorem reads_singleType (t : PlainType) {fuel : Nat} (types : Parse Node)
    (h : t.glyphs.length ≤ fuel) :
    Reads (singleType fuel types) t.glyphs EndsType
      (.bare "TypeSpecPart" [("name", .node t.name.node.unspanned), ("generics", .null)]) := by
  refine (takes_current (fun g => g.kind = .ident)).look ?_ fun g _ => t.name.headD_glyphs g
  intro first hfirst
  refine Takes.second fun _ => ?_
  have hparen : first.kind ≠ .leftParen := by
    rw [show first.kind = .ident from hfirst]
    decide
  have hbrace : first.kind ≠ .leftBrace := by
    rw [show first.kind = .ident from hfirst]
    decide
  simp only [hparen, hbrace, decide_false, Bool.false_and, Bool.false_eq_true, if_false]
  refine (reads_scopedName t.name h).last (fun n hn => ?_) fun g hg => hg.1
  refine Takes.look (takes_generics_none types) ?_ fun g hg => hg.2.1
  rintro _ rfl
  refine (takes_finish _ _ _).ahead fun part hpart => ?_
  refine (takes_nextIs .question false).look ?_ fun g hg => by simpa using hg.2.2.1
  rintro _ rfl
  refine Takes.second fun _ => Takes.pure ?_
  rw [hpart]
  simp [fieldsUnspanned, Value.unspanned, hn, genericsField]

/-- The grammar reads the tokens of a type as that type. -/
theorem reads_types (t : PlainType) {fuel : Nat} (h : t.glyphs.length ≤ fuel) :
    Reads (types (fuel + 1)) t.glyphs EndsType t.node.unspanned := by
  refine (takes_current (fun _ => True)).look (fun first _ => ?_) fun _ _ => trivial
  refine (reads_singleType t _ (Nat.le_succ_of_le h)).last (fun part hpart => ?_) fun _ hg => hg
  have hloop : Takes (loop (fun acc => do
      if ← atText .or "or" then
        let _ ← advance
        let n ← singleType (fuel + 1) (types fuel)
        pure (n :: acc, true)
      else pure (acc, false)) (fuel + 1) [part]) [] EndsType (· = [part]) := by
    refine Takes.ahead ?_ fun r (hr : r = ([part], false)) => ?_
    · refine (takes_atText .or "or" false).look ?_ fun g hg => ?_
      · rintro _ rfl
        exact Takes.pure rfl
      · simp [hg.2.2.2]
    · rw [hr]
      exact Takes.pure rfl
  refine hloop.ahead ?_
  rintro _ rfl
  refine (takes_finish _ _ _).weaken (fun _ hg => hg) fun n hn => ?_
  rw [hn]
  simp [fieldsUnspanned, Value.unspanned, itemsUnspanned, nodes, hpart, PlainType.node,
    PlainType.partNode, Node.unspanned, Node.bare]

end Parse

/-! ## Laying out -/

namespace Layout

variable {cx : Context} {fuel : Nat} {above : List (Step × Value)}

theorem prints_name (hcx : cx.attached = []) (x : Name) (span : Span) :
    Prints (tree cx (fuel + 1) ⟨.node (x.node span), above⟩) .fresh [x.glyph] .word ∧
      Prints (tree cx (fuel + 1) ⟨.node (x.node span), above⟩) .dotted [x.glyph] .word := by
  have hname := Doc.Spells.name x.isName
  have htree : tree cx (fuel + 1) ⟨.node (x.node span), above⟩ = pure (.bare x.text) :=
    tree_node hcx fuel "Identifier" "identifier" (snake_of_mem (by decide)) _ _ _
  rw [htree]
  exact ⟨.pure hname.1, .pure hname.2⟩

theorem prints_dottedName (hcx : cx.attached = []) (c : DottedName) (h : c.node.depth ≤ fuel) :
    Prints (tree cx fuel ⟨.node c.node, above⟩) .fresh c.glyphs .word := by
  induction c generalizing fuel above with
  | name x span =>
    cases fuel with
    | zero => simp [DottedName.node, Name.node, Node.depth] at h
    | succ fuel => exact (prints_name hcx x span).1
  | member object x property span ih =>
    simp only [DottedName.node, Node.depth, entriesDepth, Value.depth, Name.node] at h
    cases fuel with
    | zero => omega
    | succ fuel =>
      have hobject : Prints (below cx fuel ⟨.node (DottedName.member object x property span).node,
          above⟩ "object") .fresh object.glyphs .word := ih (by omega)
      rw [DottedName.node, tree_generic_plain hcx fuel "MemberExpression" "member_expression"
        (snake_of_mem (by decide)) (fun _ _ _ _ => rfl) (by decide)]
      refine hobject.bind fun d hd => ?_
      cases fuel with
      | zero => omega
      | succ fuel =>
        refine (prints_name hcx x property).2.bind fun e he => ?_
        exact .pure (.list (.cons hd (.cons (.text [Glyph.of "."] .dotted rfl rfl)
          (.cons he (.nil _)))))

theorem prints_plainType (hcx : cx.attached = []) (t : PlainType) (h : t.node.depth ≤ fuel) :
    Prints (tree cx fuel ⟨.node t.node, above⟩) .fresh t.glyphs .word := by
  simp only [PlainType.node, PlainType.partNode, Node.depth, entriesDepth, itemsDepth,
    Value.depth] at h
  obtain ⟨fuel, rfl⟩ : ∃ m, fuel = m + 2 := ⟨fuel - 2, by omega⟩
  rw [PlainType.node,
    tree_node hcx (fuel + 1) "TypeSpecList" "type_spec_list" (snake_of_mem (by decide))]
  have hname (above : List (Step × Value)) : Prints (tree cx fuel ⟨.node t.name.node, above⟩)
      .fresh t.name.glyphs .word := prints_dottedName hcx t.name (by omega)
  have hpart (above : List (Step × Value)) : Prints (tree cx (fuel + 1) ⟨.node t.partNode, above⟩)
      .fresh t.glyphs .word := by
    rw [PlainType.partNode,
      tree_node hcx fuel "TypeSpecPart" "type_spec_part" (snake_of_mem (by decide))]
    exact (hname _).bind fun d hd => .pure hd
  have hfield : t.node.get "ts" = .list ([t].map fun t => .node t.partNode) := rfl
  obtain ⟨ds, hds, hspell⟩ := eachOf_prints hfield fun x hx i => by
    rw [List.mem_singleton.1 hx]
    exact hpart _
  change Prints (eachOf (below cx (fuel + 1)) ⟨.node t.node, above⟩ "ts" >>= _) _ _ _
  rw [hds, pure_bind]
  cases hspell with
  | cons hd hnil =>
    cases hnil
    refine .pure (.group (.list ?_) false)
    rw [← List.append_nil t.glyphs]
    exact .cons hd (.nil _)

end Layout

end MonkeyFormat
