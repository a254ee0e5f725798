import MonkeyFormat.Proofs.DeclarationSyntax
import MonkeyFormat.Proofs.StatementReading

set_option autoImplicit false

/-! # Reading declarations

The grammar reads the tokens that declarations, imports and whole sources are laid out as, in which
access words are in order, as these with their access words in that order. -/

namespace MonkeyFormat

namespace Parse

variable {fuel fuel' : Nat} {next : Glyph → Prop} {gs : List Glyph} {target : Node}

/-! ## Attributes -/

theorem kind_accessWord : ∀ w ∈ accessTexts, (Glyph.of w).kind = .access := by decide

/-- An access word is put before those that have been collected. -/
def accessStep (acc : List String) : Parse (List String × Bool) := do
  match ← accept .access with
  | some t => pure (t.text :: acc, true)
  | none => pure (acc, false)

theorem accessWords_eq (fuel : Nat) :
    accessWords fuel = loop accessStep fuel [] >>= fun ws => pure ws.reverse := rfl

theorem takes_accessLoop {ws : List String} (h : ∀ w ∈ ws, w ∈ accessTexts)
    (hfuel : ws.length < fuel) (acc : List String) :
    Takes (loop accessStep fuel acc) (ws.map Glyph.of) (fun g => g.kind ≠ .access)
      (· = ws.reverse ++ acc) := by
  induction ws generalizing fuel acc with
  | nil =>
    obtain ⟨fuel, rfl⟩ : ∃ m, fuel = m + 1 := ⟨fuel - 1, by simp at hfuel; omega⟩
    have hstep : Takes (accessStep acc) [] (fun g => g.kind ≠ .access) (· = (acc, false)) := by
      refine (takes_accept_none .access).ahead ?_
      rintro _ rfl
      exact Takes.pure rfl
    refine hstep.ahead ?_
    rintro _ rfl
    exact Takes.pure rfl
  | cons w ws ih =>
    rw [List.forall_mem_cons] at h
    rw [List.length_cons] at hfuel
    obtain ⟨fuel, rfl⟩ : ∃ m, fuel = m + 1 := ⟨fuel - 1, by omega⟩
    have hstep : Takes (accessStep acc) [Glyph.of w] (fun _ => True) (· = (w :: acc, true)) := by
      have haccept : Takes (accept .access) [Glyph.of w] (fun _ => True) _ :=
        takes_accept (kind_accessWord w h.1) (by decide)
      refine haccept.last ?_ fun _ hg => hg
      rintro _ ⟨t, rfl, ht⟩
      rw [show w = t.text from (congrArg Glyph.text ht).symm]
      exact Takes.pure rfl
    refine hstep.bind ?_ fun _ _ => trivial
    rintro _ rfl
    refine (ih h.2 (by omega) (w :: acc)).weaken (fun _ hg => hg) ?_
    rintro _ rfl
    simp

/-- Access words are collected up to a token that is none. -/
theorem takes_accessWords {ws : List String} (h : ∀ w ∈ ws, w ∈ accessTexts)
    (hfuel : ws.length < fuel) :
    Takes (accessWords fuel) (ws.map Glyph.of) (fun g => g.kind ≠ .access) (· = ws) := by
  rw [accessWords_eq]
  refine (takes_accessLoop h hfuel []).last ?_ fun _ hg => hg
  rintro _ rfl
  rw [List.append_nil, List.reverse_reverse]
  exact Takes.pure rfl

theorem reads_symbol (s : Symbol) (expr : Parse Node) :
    Reads (postfixed (fuel + 1) expr) s.glyphs (fun g => ¬ Extends g) s.node.unspanned := by
  refine reads_postfixed ?_ fun _ hg => hg
  refine Takes.peek fun t ht => ?_
  rw [show t.kind = .colon from congrArg Glyph.kind ht]
  refine Takes.advance (by decide) fun _ _ => ?_
  refine (reads_identifier s.name).last (fun n hn => reads_finish ?_) fun _ hg => hg
  simp only [fieldsUnspanned, Value.unspanned, hn]
  rfl

/-- The node of attributes in parentheses. -/
def symbolsNode (ss : List Symbol) (span : Span) : Node :=
  ⟨"Attributes", span, [("elements", nodes (ss.map Symbol.node))]⟩

theorem reads_attributes (ss : List Symbol) (span : Span) (hfuel : ss.length ≤ fuel) :
    Reads (attributes (fuel + 1)) (listed (ss.map Symbol.glyphs)) next
      (symbolsNode ss span).unspanned := by
  refine Takes.advance (by decide) fun t _ => ?_
  have hlist :
      Takes (commaList (fuel + 1) .rightParen (postfixed (fuel + 1) (expression (fuel + 1))))
      ([Glyph.of ","].intercalate (ss.map Symbol.glyphs)) (fun g => g = Glyph.of ")")
      fun ns => ns.map Node.unspanned = ss.map fun s => s.node.unspanned := by
    refine takes_commaList rfl (fun s _ => reads_symbol s _) (fun s _ g => ?_) ?_ ?_ (by decide)
      (by omega)
    · change (Glyph.of ":").kind ≠ .rightParen
      decide
    · unfold Extends
      decide
    · unfold Extends
      decide
  refine hlist.bind (fun ns hns => ?_) fun _ _ => rfl
  refine Takes.expect rfl (by decide) fun _ _ => reads_finish ?_
  simp only [fieldsUnspanned, unspanned_nodes, hns]
  rw [symbolsNode, Node.unspanned]
  simp only [fieldsUnspanned, unspanned_nodes, List.map_map]
  rfl

theorem unspanned_access (ws : List String) : (Attrs.access ws).unspanned = Attrs.access ws := by
  have hitems : itemsUnspanned (ws.map .str) = ws.map .str := by
    induction ws with
    | nil => rfl
    | cons w ws ih =>
      rw [List.map_cons, itemsUnspanned, ih]
      rfl
  unfold Attrs.access
  split
  · rfl
  · rw [Value.unspanned, hitems]

/-- May the token follow what stands before a declaration? -/
def EndsAttrs (g : Glyph) : Prop := g.kind ≠ .leftParen ∧ g.kind ≠ .access

/-- Access words behind attributes, of which one at least is there. -/
theorem takes_accessTail {attrs other : Option Node} (first : Token)
    (hattrs : attrs.map Node.unspanned = other.map Node.unspanned) (ws : List AccessWord)
    (hsome : other.isNone = true → ws ≠ []) (span : Span)
    (hlen : (Attrs.wordGlyphs ws).length ≤ fuel) :
    Takes (do
      let words ← accessWords (fuel + 1)
      if attrs.isNone && words.isEmpty then pure none
      else
        let access : Value := if words.isEmpty then .null else .list (words.map .str)
        some <$> finish "AttributeList" first.span
          [("attributes", optional attrs), ("access", access)]) (Attrs.wordGlyphs ws) EndsAttrs
      fun r => r.map Node.unspanned = some (Node.unspanned ⟨"AttributeList", span,
        [("attributes", optional other),
          ("access", Attrs.access (Rewriting.sortWords (ws.map AccessWord.text)))]⟩) := by
  have hwords : Takes (accessWords (fuel + 1)) (Attrs.wordGlyphs ws) (fun g => g.kind ≠ .access)
      (· = Rewriting.sortWords (ws.map AccessWord.text)) := by
    refine takes_accessWords (fun w hw => AccessWord.isAccess_of_mem_sorted hw) ?_
    rw [Attrs.wordGlyphs, List.length_map] at hlen
    omega
  refine hwords.last ?_ fun _ hg => hg.2
  rintro _ rfl
  have hfound :
      (attrs.isNone && (Rewriting.sortWords (ws.map AccessWord.text)).isEmpty) = false := by
    rw [isNone_of_unspanned hattrs]
    cases hnone : other.isNone with
    | false => rfl
    | true => exact Rewriting.isEmpty_sortWords (by simpa using hsome hnone)
  rw [hfound]
  simp only [Bool.false_eq_true, if_false]
  refine Takes.map (takes_finish _ _ _) fun n hn => ?_
  rw [Option.map_some, hn, Node.unspanned]
  simp only [fieldsUnspanned, unspanned_optional, hattrs, unspanned_access]
  have haccess := unspanned_access (Rewriting.sortWords (ws.map AccessWord.text))
  rw [Attrs.access] at haccess ⊢
  rw [haccess]
  rfl

theorem headD_wordGlyphs (w : AccessWord) (ws : List AccessWord) (g : Glyph) :
    ((Attrs.wordGlyphs (w :: ws)).headD g).kind = .access := by
  unfold Attrs.wordGlyphs
  cases hsorted : Rewriting.sortWords ((w :: ws).map AccessWord.text) with
  | nil =>
    have hsome : (Rewriting.sortWords ((w :: ws).map AccessWord.text)).isEmpty = false :=
      Rewriting.isEmpty_sortWords (by simp)
    rw [hsorted] at hsome
    cases hsome
  | cons v vs =>
    have hv : v ∈ Rewriting.sortWords ((w :: ws).map AccessWord.text) := by
      rw [hsorted]
      exact List.mem_cons_self
    exact kind_accessWord v (AccessWord.isAccess_of_mem_sorted hv)

/-- What stands before a declaration is read with its access words in order. -/
theorem takes_attributeList (a : Attrs) (hlen : a.glyphs.length ≤ fuel) :
    Takes (attributeList (fuel + 1)) a.glyphs EndsAttrs
      fun r => r.map Node.unspanned = (a.node? .settled).map Node.unspanned := by
  cases a with
  | none =>
    refine (takes_current EndsAttrs).look (fun t ht => ?_) fun _ hg => hg
    rw [if_neg (show t.kind ≠ .leftParen from ht.1)]
    have hnone : Takes (accessWords (fuel + 1)) ([].map Glyph.of) _ (· = []) :=
      takes_accessWords (by simp) (Nat.succ_pos _)
    have hwords : Takes (accessWords (fuel + 1)) [] EndsAttrs (· = []) :=
      hnone.weaken (fun _ hg => hg.2) fun _ h => h
    refine hwords.ahead ?_
    rintro _ rfl
    exact Takes.pure rfl
  | words w ws span =>
    have hstart (g : Glyph) : ((Attrs.wordGlyphs (w :: ws)).headD g).kind ≠ .leftParen := by
      rw [headD_wordGlyphs]
      decide
    refine (takes_current fun g => g.kind ≠ .leftParen).look (fun t ht => ?_) fun g _ => hstart g
    rw [if_neg (show t.kind ≠ .leftParen from ht)]
    exact takes_accessTail t rfl (w :: ws) (fun _ => List.cons_ne_nil _ _) span hlen
  | symbols ss inner ws span =>
    rw [Attrs.glyphs, List.length_append] at hlen
    have hcount := length_listed (ss.map Symbol.glyphs)
    rw [List.length_map] at hcount
    have hsymbols : Takes (some <$> attributes (fuel + 1)) (listed (ss.map Symbol.glyphs))
        (fun _ => True) fun r => r.map Node.unspanned = some (symbolsNode ss inner).unspanned :=
      Takes.map (reads_attributes ss inner (by omega)) fun _ hn => congrArg some hn
    refine Takes.peek fun t ht => ?_
    rw [if_pos (show t.kind = .leftParen from congrArg Glyph.kind ht)]
    refine hsymbols.bind (fun r hr => ?_) fun _ _ => trivial
    have hr' : r.map Node.unspanned = (some (symbolsNode ss inner)).map Node.unspanned := hr
    exact takes_accessTail t hr' ws (by simp) span (by omega)

/-! ## Parts of declarations -/

theorem takes_returnType (t : Option ResultType)
    (hlen : ((t.map ResultType.glyphs).getD []).length ≤ fuel) :
    Takes (returnType (types (fuel + 1))) ((t.map ResultType.glyphs).getD []) EndsTyped
      fun r => r.map Node.unspanned = (t.map ResultType.node).map Node.unspanned := by
  cases t with
  | none =>
    refine ((takes_accept_none .asWord).weaken (fun g (hg : EndsTyped g) => hg.1)
      fun _ h => h).ahead ?_
    rintro _ rfl
    exact Takes.pure rfl
  | some t =>
    have hshort : t.type.glyphs.length ≤ fuel := by
      change t.type.glyphs.length + 1 ≤ fuel at hlen
      omega
    have haccept : Takes (accept .asWord) [Glyph.of "as"] (fun _ => True) _ :=
      takes_accept rfl (by decide)
    have htype : Reads (types (fuel + 1)) t.type.glyphs EndsTyped t.type.node.unspanned :=
      (reads_types t.type hshort).weaken (fun _ hg => hg.2) fun _ hn => hn
    refine haccept.bind ?_ fun _ _ => trivial
    rintro _ ⟨u, rfl, _⟩
    refine htype.last (fun n hn => ?_) fun _ hg => hg
    refine (takes_finish _ _ _).ahead fun m hm => Takes.pure ?_
    rw [Option.map_some, hm]
    simp only [fieldsUnspanned, Value.unspanned, hn]
    rfl

theorem takes_params (ps : List Typed) (hlen : (listed (ps.map Typed.glyphs)).length ≤ fuel) :
    Takes (params (fuel + 1) (types (fuel + 1))) (listed (ps.map Typed.glyphs)) next
      fun ns => ns.map Node.unspanned = ps.map fun p => p.node.unspanned := by
  have hcount := length_listed (ps.map Typed.glyphs)
  rw [List.length_map] at hcount
  have hitem (p : Typed) (hp : p ∈ ps) : Reads (typedIdentifier (types (fuel + 1))) p.glyphs
      EndsTyped p.node.unspanned := by
    have hlt := length_of_mem_listed (List.mem_map_of_mem (f := Typed.glyphs) hp)
    exact reads_typed p (by omega)
  refine takes_listed hitem (fun p _ g => ?_) (endsTyped_of_mem _ (by decide))
    (endsTyped_of_mem _ (by decide)) (by omega)
  rw [p.headD_glyphs]
  decide

theorem reads_enumMember (m : EnumMember) (hlen : m.glyphs.length ≤ fuel) :
    Reads (enumMember (fuel + 1)) m.glyphs (fun g => g ∈ closers) m.node.unspanned := by
  obtain ⟨x, first, init⟩ := m
  have hname : Reads identifier [x.glyph] (fun _ => True) _ := reads_identifier x
  refine hname.bind (fun n hn => ?_) fun _ _ => trivial
  cases init with
  | none =>
    have hclosers : ∀ g ∈ closers, g.kind ≠ .assign := by decide
    refine takes_atText_assign_not (fun g hg => hclosers g hg) (Takes.pure hn)
  | some i =>
    obtain ⟨t, span⟩ := i
    have hshort : t.glyphs.length ≤ fuel := by
      change t.glyphs.length + 1 + 1 ≤ fuel at hlen
      omega
    refine takes_atText_assign (Takes.advance (by decide) fun _ _ => ?_)
    refine (reads_term t hshort).last (fun e he => reads_finish ?_) fun _ hg => hg
    simp only [fieldsUnspanned, Value.unspanned, hn, he]
    rfl

/-! ## Declarations -/

/-- A declaration behind its attributes. -/
def declarationBehind (allowModule : Bool) (fuel : Nat) (attrs : Option Node) : Parse Node := do
  let t ← current
  let first := (attrs.map Node.span).getD t.span
  match t.kind with
  | .classWord => classDeclaration (fuel + 1) (classElementOf (declaration false fuel)) first attrs
  | .function => functionDeclaration (fuel + 1) first attrs
  | .var => variablesStatement (fuel + 1) first attrs
  | .const => variablesStatement (fuel + 1) first attrs
  | .enum => enumDeclaration (fuel + 1) first attrs
  | .typedef => typedefDeclaration (fuel + 1) first attrs
  | kind =>
    if kind = .module && allowModule then
      moduleDeclaration (fuel + 1) (topLevel fuel) first attrs
    else complain (.expectedDeclaration t) t

theorem declaration_eq (allowModule : Bool) (fuel : Nat) : declaration allowModule (fuel + 1) =
    attributeList (fuel + 1) >>= declarationBehind allowModule fuel := rfl

/-- A declaration is read if it is behind all that is read as its attributes. -/
theorem reads_declaration {allowModule : Bool} (a : Attrs) {g : Glyph} (hg : EndsAttrs g)
    (hlen : a.glyphs.length ≤ fuel)
    (h : ∀ attrs : Option Node, attrs.map Node.unspanned = (a.node? .settled).map Node.unspanned →
      Reads (declarationBehind allowModule fuel attrs) (g :: gs) next target) :
    Reads (declaration allowModule (fuel + 1)) (a.glyphs ++ g :: gs) next target := by
  rw [declaration_eq]
  exact (takes_attributeList a hlen).bind h fun _ _ => hg

/-- May the token follow a declaration? A semicolon behind an enumeration would belong to it. -/
def EndsDecl (g : Glyph) : Prop := g.kind ≠ .semicolon

/-- The grammar reads the tokens of the declaration as it with its access words in order. -/
def ReadsDecl (d : Decl) : Prop :=
  ∀ (allowModule : Bool) (fuel : Nat), d.glyphs.length ≤ fuel →
    Reads (declaration allowModule (fuel + 1)) d.glyphs EndsDecl (d.node .settled).unspanned

theorem reads_variables (attrs : Attrs) (isConst : Bool) (v : Variables) :
    ReadsDecl (.declares attrs isConst v) := by
  intro allowModule fuel hlen
  rw [Decl.glyphs, List.length_append, List.length_append] at hlen
  rw [Decl.glyphs, Variables.glyphs, List.cons_append]
  refine reads_declaration attrs ?_ (by omega) fun r hr => ?_
  · cases isConst <;> exact ⟨by decide, by decide⟩
  have hread (first : Span) : Reads (variablesStatement (fuel + 1) first r) _ EndsDecl _ :=
    reads_variablesStatement v isConst first hr (by omega)
  refine Takes.peek fun t ht => ?_
  cases isConst with
  | false =>
    rw [show t.kind = .var from congrArg Glyph.kind ht]
    exact hread _
  | true =>
    rw [show t.kind = .const from congrArg Glyph.kind ht]
    exact hread _

/-- A type definition behind its attributes, with whatever its type is read as. -/
theorem reads_typedefDeclaration {type : Node} {attrs target : Option Node} {gs : List Glyph}
    {ends : Glyph → Prop} (first : Span) (name : Name) (nameSpan span : Span)
    (hattrs : attrs.map Node.unspanned = target.map Node.unspanned)
    (htype : Takes (returnType (types (fuel + 1))) gs ends
      fun r => r.map Node.unspanned = some type.unspanned) (hends : ends (Glyph.of ";")) :
    Reads (typedefDeclaration (fuel + 1) first attrs)
      (Glyph.of "typedef" :: name.glyph :: (gs ++ [Glyph.of ";"])) next
      (Node.unspanned ⟨"TypedefDeclaration", span, [("attrs", optional target),
        ("id", .node (name.node nameSpan)), ("ts", .node type)]⟩) := by
  refine Takes.advance (by decide) fun _ _ => ?_
  have hname : Reads identifier [name.glyph] (fun _ => True) _ := reads_identifier name
  refine hname.bind (fun n hn => ?_) fun _ _ => trivial
  refine htype.bind (fun ts hts => ?_) fun _ _ => hends
  cases ts with
  | none => cases hts
  | some ts =>
    refine Takes.expect rfl (by decide) fun _ _ => reads_finish ?_
    simp only [fieldsUnspanned, Value.unspanned, unspanned_optional, hattrs, hn,
      Option.some.inj hts]
    rw [Node.unspanned]
    simp only [fieldsUnspanned, Value.unspanned, unspanned_optional]
    rfl

theorem reads_typedef (attrs : Attrs) (name : Name) (nameSpan : Span) (type : ResultType)
    (span : Span) : ReadsDecl (.typeDef attrs name nameSpan type span) := by
  intro allowModule fuel hlen
  simp only [Decl.glyphs, List.length_append, List.length_cons] at hlen
  rw [Decl.glyphs]
  refine reads_declaration attrs ⟨by decide, by decide⟩ (by omega) fun r hr => ?_
  refine Takes.peek fun t ht => ?_
  rw [show t.kind = .typedef from congrArg Glyph.kind ht]
  have htype : Takes (returnType (types (fuel + 1))) type.glyphs EndsTyped
      fun r => r.map Node.unspanned = some type.node.unspanned :=
    takes_returnType (some type) (show type.glyphs.length ≤ fuel by omega)
  exact reads_typedefDeclaration _ name nameSpan span hr htype (endsTyped_of_mem _ (by decide))

/-- The members of an enumeration in braces, and what is done with their node. -/
theorem Takes.enumBody {jp : Node → Parse Node} {goal : Node → Prop} {what what' : String}
    (members : List EnumMember) (inner : Span)
    (hlen : (bracedGlyphs ([Glyph.of ","].intercalate (members.map EnumMember.glyphs))).length ≤
      fuel)
    (hjp : ∀ n : Node, n.unspanned = Node.unspanned ⟨"EnumStringBody", inner,
      [("members", nodes (members.map EnumMember.node))]⟩ → Takes (jp n) [] next goal) :
    Takes (do
      let opening ← Parse.expect .leftBrace what
      let ns ← commaList (fuel + 1) .rightBrace (enumMember (fuel + 1))
      let _ ← Parse.expect .rightBrace what'
      let body ← finish "EnumStringBody" opening.span [("members", nodes ns)]
      jp body) (bracedGlyphs ([Glyph.of ","].intercalate (members.map EnumMember.glyphs))) next goal
      := by
  have hcount := length_intercalate (members.map EnumMember.glyphs) (Glyph.of ",")
  rw [bracedGlyphs, List.length_cons, List.length_append, List.length_singleton] at hlen
  rw [List.length_map] at hcount
  have hitem (m : EnumMember) (hm : m ∈ members) : Reads (enumMember (fuel + 1)) m.glyphs
      (fun g => g ∈ closers) m.node.unspanned := by
    have hle := length_le_of_mem_intercalate (Glyph.of ",")
      (List.mem_map_of_mem (f := EnumMember.glyphs) hm)
    exact reads_enumMember m (by omega)
  have hstart (m : EnumMember) (_ : m ∈ members) (g : Glyph) :
      (m.glyphs.headD g).kind ≠ .rightBrace := by
    change m.name.glyph.kind ≠ .rightBrace
    rw [m.name.glyph_kind]
    decide
  refine Takes.expect rfl (by decide) fun _ _ => ?_
  have hlist : Takes (commaList (fuel + 1) .rightBrace (enumMember (fuel + 1)))
      ([Glyph.of ","].intercalate (members.map EnumMember.glyphs)) (fun g => g = Glyph.of "\x7d")
      fun ns => ns.map Node.unspanned = members.map fun m => m.node.unspanned :=
    takes_commaList rfl hitem hstart (by decide) (by decide) (by decide) (by omega)
  refine hlist.bind (fun ns hns => ?_) fun _ _ => rfl
  refine Takes.expect rfl (by decide) fun _ _ => (reads_finish ?_).ahead hjp
  simp only [fieldsUnspanned, unspanned_nodes, hns]
  rw [Node.unspanned]
  simp only [fieldsUnspanned, unspanned_nodes, List.map_map]
  rfl

theorem reads_enum (attrs : Attrs) (name : Option (Name × Span)) (members : List EnumMember)
    (inner span : Span) : ReadsDecl (.enumDef attrs name members inner span) := by
  intro allowModule fuel hlen
  simp only [Decl.glyphs, List.length_append, List.length_cons] at hlen
  rw [Decl.glyphs]
  refine reads_declaration attrs ⟨by decide, by decide⟩ (by omega) fun r hr => ?_
  refine Takes.peek fun t ht => ?_
  rw [show t.kind = .enum from congrArg Glyph.kind ht]
  refine Takes.advance (by decide) fun _ _ => ?_
  -- what stands behind the name is the same with and without one
  have hrest (first : Span) {m : Option Node}
      (hm : m.map Node.unspanned = (name.map Term.argument).map Node.unspanned) :
      Reads (do
        let opening ← expect .leftBrace "'\x7b' to open the enum body"
        let ns ← commaList (fuel + 1) .rightBrace (enumMember (fuel + 1))
        let _ ← expect .rightBrace "'\x7d' to close the enum body"
        let body ← finish "EnumStringBody" opening.span [("members", nodes ns)]
        let n ← finish "EnumDeclaration" first
          [("attrs", optional r), ("id", optional m), ("body", .node body)]
        let _ ← skip .semicolon
        pure n) (bracedGlyphs ([Glyph.of ","].intercalate (members.map EnumMember.glyphs))) EndsDecl
        (Decl.node .settled (.enumDef attrs name members inner span)).unspanned := by
    refine Takes.enumBody members inner (by omega) fun body hbody => ?_
    refine (takes_finish _ _ _).ahead fun n hn => ?_
    refine Takes.skip_none (fun _ hg => hg) (Takes.pure ?_)
    rw [hn, Decl.node, Node.unspanned]
    simp only [fieldsUnspanned, Value.unspanned, unspanned_optional, hr, hm, hbody]
    rfl
  cases name with
  | none => exact Takes.nextIs_not (fun _ _ => show TokenKind.leftBrace ≠ _ by decide) (hrest _ rfl)
  | some x =>
    have hname : Takes (some <$> identifier) [x.1.glyph] (fun _ => True)
        fun r => r.map Node.unspanned = some (x.1.node {}) :=
      Takes.map (reads_identifier x.1) fun _ hn => congrArg some hn
    refine Takes.nextIs x.1.glyph_kind ?_
    exact hname.bind (fun m hm => hrest _ hm) fun _ _ => trivial

/-- The body of a function or the semicolon that stands for it. -/
theorem Takes.functionBody {jp : Option Node → Parse Node} {goal : Node → Prop}
    (body : Option (List Stmt × Span)) (hlen : (functionBodyGlyphs body).length ≤ fuel)
    (hjp : ∀ r : Option Node, r.map Node.unspanned =
      (body.map fun b => blockNode (stmtNodes .settled b.1) b.2).map Node.unspanned →
        Takes (jp r) [] next goal) :
    Takes (Parse.skip .semicolon >>= fun b =>
      if b = true then Pure.pure none >>= jp
      else some <$> block (fuel + 1) (statement (fuel + 1)) >>= jp) (functionBodyGlyphs body) next
      goal := by
  cases body with
  | none => exact Takes.skip rfl (by decide) (hjp none rfl)
  | some b =>
    have hlength : (functionBodyGlyphs (some b)).length = (stmtGlyphs b.1).length + 2 := by
      simp [functionBodyGlyphs, bracedGlyphs]
    have hblock : Takes (some <$> block (fuel + 1) (statement (fuel + 1)))
        (bracedGlyphs (stmtGlyphs b.1)) next fun r => r.map Node.unspanned =
          some (blockNode (stmtNodes .settled b.1) b.2).unspanned :=
      Takes.map (reads_block (fun s _ => readsStmt s) (by omega) (by omega) b.2)
        fun _ hn => congrArg some hn
    refine Takes.skip_none (fun _ _ => show TokenKind.leftBrace ≠ _ by decide) ?_
    exact hblock.last hjp fun _ hg => hg

/-- A function behind its attributes, with whatever its parameters and its result are read as. -/
theorem reads_functionDeclaration {ps : List Node} {result attrs target : Option Node}
    {gs hs : List Glyph} {ends : Glyph → Prop} (first : Span) (name : Name) (nameSpan : Span)
    (body : Option (List Stmt × Span)) (span : Span)
    (hattrs : attrs.map Node.unspanned = target.map Node.unspanned)
    (hparams : Takes (params (fuel + 1) (types (fuel + 1))) gs (fun _ => True)
      fun ns => ns.map Node.unspanned = ps.map Node.unspanned)
    (hresult : Takes (returnType (types (fuel + 1))) hs ends
      fun r => r.map Node.unspanned = result.map Node.unspanned)
    (hends : ends (Glyph.of ";") ∧ ends (Glyph.of "\x7b"))
    (hlen : (functionBodyGlyphs body).length ≤ fuel) :
    Reads (functionDeclaration (fuel + 1) first attrs) (Glyph.of "function" :: name.glyph ::
      (gs ++ (hs ++ functionBodyGlyphs body))) next (Node.unspanned ⟨"FunctionDeclaration", span,
        [("attrs", optional target), ("id", .node (name.node nameSpan)), ("params", nodes ps),
          ("returnType", optional result),
          ("body", optional (body.map fun b => blockNode (stmtNodes .settled b.1) b.2))]⟩) := by
  refine Takes.advance (by decide) fun _ _ => ?_
  have hname : Reads identifier [name.glyph] (fun _ => True) _ := reads_identifier name
  have hbehind (g : Glyph) : ends ((functionBodyGlyphs body).headD g) := by
    cases body with
    | none => exact hends.1
    | some b => exact hends.2
  refine hname.bind (fun n hn => ?_) fun _ _ => trivial
  refine hparams.bind (fun ns hns => ?_) fun _ _ => trivial
  refine hresult.bind (fun ts hts => ?_) fun g _ => hbehind g
  refine Takes.functionBody body hlen fun b hb => reads_finish ?_
  simp only [fieldsUnspanned, Value.unspanned, unspanned_optional, unspanned_nodes, hattrs, hn, hns,
    hts, hb]
  rw [Node.unspanned]
  simp only [fieldsUnspanned, Value.unspanned, unspanned_optional, unspanned_nodes]
  rfl

theorem reads_function (attrs : Attrs) (name : Name) (nameSpan : Span) (ps : List Typed)
    (result : Option ResultType) (body : Option (List Stmt × Span)) (span : Span) :
    ReadsDecl (.function attrs name nameSpan ps result body span) := by
  intro allowModule fuel hlen
  simp only [Decl.glyphs, List.length_append, List.length_cons] at hlen
  rw [Decl.glyphs]
  refine reads_declaration attrs ⟨by decide, by decide⟩ (by omega) fun r hr => ?_
  refine Takes.peek fun t ht => ?_
  rw [show t.kind = .function from congrArg Glyph.kind ht]
  have hparams : Takes (params (fuel + 1) (types (fuel + 1))) (listed (ps.map Typed.glyphs))
      (fun _ => True)
      fun ns => ns.map Node.unspanned = (ps.map Typed.node).map Node.unspanned := by
    rw [List.map_map]
    exact takes_params ps (by omega)
  exact reads_functionDeclaration _ name nameSpan body span hr hparams
    (takes_returnType result (by omega))
    ⟨endsTyped_of_mem _ (by decide), endsTyped_of_mem _ (by decide)⟩ (by omega)

/-- The kinds of token that a declaration may start with. -/
def declarationStarts : List TokenKind :=
  [.leftParen, .access, .classWord, .function, .var, .const, .enum, .typedef]

/-- The kinds of token that an import, a module or a declaration may start with. -/
def topLevelStarts : List TokenKind := [.using, .importWord, .module] ++ declarationStarts

theorem headD_attrs (a : Attrs) {kinds : List TokenKind}
    (ha : .leftParen ∈ kinds ∧ .access ∈ kinds) {g : Glyph} (hg : g.kind ∈ kinds)
    (gs : List Glyph) (h : Glyph) : ((a.glyphs ++ g :: gs).headD h).kind ∈ kinds := by
  cases a with
  | none => exact hg
  | words w ws span =>
    rw [Attrs.glyphs, headD_append, headD_wordGlyphs]
    exact ha.2
  | symbols ss inner ws span => exact ha.1

theorem headD_decl (d : Decl) (g : Glyph) : (d.glyphs.headD g).kind ∈ declarationStarts := by
  have hends : .leftParen ∈ declarationStarts ∧ .access ∈ declarationStarts := by decide
  cases d with
  | declares attrs isConst v =>
    rw [Decl.glyphs, Variables.glyphs, List.cons_append]
    refine headD_attrs attrs hends ?_ _ g
    cases isConst <;> decide
  | _ => exact headD_attrs _ hends (by decide) _ g

theorem length_decl_pos (d : Decl) : 0 < d.glyphs.length := by
  cases d <;> simp [Decl.glyphs, Variables.glyphs]

/-- A declaration as the member of a class. -/
theorem ReadsDecl.member {d : Decl} (h : ReadsDecl d) (hlen : d.glyphs.length ≤ fuel) :
    Reads (classElementOf (declaration false (fuel + 1))) d.glyphs EndsDecl
      (memberNode (d.node .settled)).unspanned := by
  refine (h false fuel hlen).last (fun n hn => Takes.pure ?_) fun _ hg => hg
  rw [spanning, memberNode, spanning, Node.unspanned, Node.unspanned]
  simp only [fieldsUnspanned, Value.unspanned, hn]

/-- A declaration may follow a declaration, and is not the end of a body. -/
theorem endsDecl_of_start {g : Glyph} (h : g.kind ∈ topLevelStarts) :
    (g.kind ≠ .rightBrace ∧ g.kind ≠ .endOfInput) ∧ EndsDecl g := by
  have hall : ∀ k ∈ topLevelStarts, (k ≠ .rightBrace ∧ k ≠ .endOfInput) ∧ k ≠ .semicolon := by
    decide
  exact hall _ h

theorem endsDecl_brace : EndsDecl (Glyph.of "\x7d") := by
  unfold EndsDecl
  decide

theorem start_decl {g : Glyph} (h : g.kind ∈ declarationStarts) : g.kind ∈ topLevelStarts :=
  List.mem_append_right _ h

/-- The class that a class extends, if there is one. -/
theorem Takes.base {jp : Option Node → Parse Node} {goal : Node → Prop} (base : Option DottedName)
    (hlen : ((base.map fun c => Glyph.of "extends" :: c.glyphs).getD []).length ≤ fuel)
    {g : Glyph} (hg : g.kind ≠ .extendsWord ∧ g.kind ≠ .dot)
    (hjp : ∀ r : Option Node, r.map Node.unspanned =
      (base.map DottedName.node).map Node.unspanned → Takes (jp r) (g :: gs) next goal) :
    Takes (Parse.skip .extendsWord >>= fun b =>
      if b = true then some <$> scopedName (fuel + 1) >>= jp else Pure.pure none >>= jp)
      ((base.map fun c => Glyph.of "extends" :: c.glyphs).getD [] ++ g :: gs) next goal := by
  cases base with
  | none => exact Takes.skip_none (fun _ _ => hg.1) (hjp none rfl)
  | some c =>
    have hshort : c.glyphs.length ≤ fuel + 1 := by
      change c.glyphs.length + 1 ≤ fuel at hlen
      omega
    have hname : Takes (some <$> scopedName (fuel + 1)) c.glyphs (fun g => g.kind ≠ .dot)
        fun r => r.map Node.unspanned = some c.node.unspanned :=
      Takes.map (reads_scopedName c hshort) fun _ hn => congrArg some hn
    exact Takes.skip rfl (by decide) (hname.bind hjp fun _ _ => hg.2)

theorem reads_class (attrs : Attrs) (name : Name) (nameSpan : Span) (base : Option DottedName)
    {members : List Decl} (inner span : Span) (hds : ∀ d ∈ members, ReadsDecl d) :
    ReadsDecl (.classDef attrs name nameSpan base members inner span) := by
  intro allowModule fuel hlen
  simp only [Decl.glyphs, List.length_append, List.length_cons, bracedGlyphs, memberGlyphs_eq]
    at hlen
  obtain ⟨fuel, rfl⟩ : ∃ m, fuel = m + 1 := ⟨fuel - 1, by omega⟩
  have hcount := length_flatMap members fun d _ => length_decl_pos d
  have hitem : ∀ d ∈ members, Reads (classElementOf (declaration false (fuel + 1))) d.glyphs
      EndsDecl (memberNode (d.node .settled)).unspanned := by
    intro d hd
    have hle : d.glyphs.length ≤ (members.flatMap Decl.glyphs).length := length_le_flatMap hd
    exact (hds d hd).member (by omega)
  rw [Decl.glyphs, bracedGlyphs, memberGlyphs_eq]
  refine reads_declaration attrs ⟨by decide, by decide⟩ (by omega) fun r hr => ?_
  refine Takes.peek fun t ht => ?_
  rw [show t.kind = .classWord from congrArg Glyph.kind ht]
  refine Takes.advance (by decide) fun _ _ => ?_
  have hname : Reads identifier [name.glyph] (fun _ => True) _ := reads_identifier name
  refine hname.bind (fun n hn => ?_) fun _ _ => trivial
  refine Takes.base base (by omega) ⟨by decide, by decide⟩ fun b hb => ?_
  refine Takes.expect rfl (by decide) fun _ _ => ?_
  have hbody : Takes (bodyUntilBrace (fuel + 2) (classElementOf (declaration false (fuel + 1)))) _
      (fun _ => True) _ :=
    takes_bodyUntilBrace hitem (fun d _ g => endsDecl_of_start (start_decl (headD_decl d g)))
      endsDecl_brace (by omega)
  refine hbody.last (fun ns hns => ?_) fun _ _ => trivial
  refine (takes_finish _ _ _).ahead fun m hm => reads_finish ?_
  simp only [fieldsUnspanned, Value.unspanned, unspanned_optional, hr, hn, hb, hm, unspanned_nodes,
    hns]
  rw [Decl.node, Node.unspanned]
  simp only [fieldsUnspanned, Value.unspanned, unspanned_optional, Node.unspanned, unspanned_nodes,
    memberNodes_eq, List.map_map]
  rfl

/-- The grammar reads the tokens of a declaration as it with its access words in order. -/
theorem readsDecl (d : Decl) : ReadsDecl d := by
  induction d using Decl.induct with
  | hclass attrs name nameSpan base members inner span ih =>
    exact reads_class attrs name nameSpan base inner span ih
  | hfunction attrs name nameSpan params result body span =>
    exact reads_function attrs name nameSpan params result body span
  | hdeclares attrs isConst v => exact reads_variables attrs isConst v
  | henum attrs name members inner span => exact reads_enum attrs name members inner span
  | htype attrs name nameSpan type span => exact reads_typedef attrs name nameSpan type span

/-! ## Imports and modules -/

/-- The grammar reads the tokens of the import or declaration as it with its access words in
order. -/
def ReadsTopLevel (t : TopLevel) : Prop :=
  ∀ fuel, t.glyphs.length ≤ fuel →
    Reads (topLevel (fuel + 2)) t.glyphs EndsDecl (t.node .settled).unspanned

theorem reads_using (id : DottedName) (shortName : Option (Name × Span)) (span : Span) :
    ReadsTopLevel (.using id shortName span) := by
  intro fuel hlen
  simp only [TopLevel.glyphs, List.length_append, List.length_cons] at hlen
  refine Takes.peek fun t ht => ?_
  rw [show t.kind = .using from congrArg Glyph.kind ht]
  refine Takes.advance (by decide) fun _ _ => ?_
  refine (reads_scopedName id (by omega : _ ≤ fuel + 2)).bind (fun n hn => ?_) fun _ _ => ?_
  · cases shortName with
    | none =>
      refine Takes.skip_none (fun _ _ => show TokenKind.semicolon ≠ _ by decide) ?_
      refine Takes.expect rfl (by decide) fun _ _ => reads_finish ?_
      simp only [fieldsUnspanned, Value.unspanned, hn]
      rfl
    | some x =>
      have hname : Takes (some <$> identifier) [x.1.glyph] (fun _ => True)
          fun r => r.map Node.unspanned = some (x.1.node {}) :=
        Takes.map (reads_identifier x.1) fun _ hn => congrArg some hn
      refine Takes.skip rfl (by decide) (hname.bind (fun m hm => ?_) fun _ _ => trivial)
      refine Takes.expect rfl (by decide) fun _ _ => reads_finish ?_
      simp only [fieldsUnspanned, Value.unspanned, unspanned_optional, hn, hm]
      rfl
  · cases shortName with
    | none => exact show TokenKind.semicolon ≠ _ by decide
    | some x => exact show TokenKind.asWord ≠ _ by decide

theorem reads_importModule (id : DottedName) (span : Span) :
    ReadsTopLevel (.importModule id span) := by
  intro fuel hlen
  simp only [TopLevel.glyphs, List.length_append, List.length_cons] at hlen
  refine Takes.peek fun t ht => ?_
  rw [show t.kind = .importWord from congrArg Glyph.kind ht]
  refine Takes.advance (by decide) fun _ _ => ?_
  refine (reads_scopedName id (by omega : _ ≤ fuel + 2)).bind (fun n hn => ?_)
    fun _ _ => show TokenKind.semicolon ≠ _ by decide
  refine Takes.expect rfl (by decide) fun _ _ => reads_finish ?_
  simp only [fieldsUnspanned, Value.unspanned, hn]
  rfl

theorem headD_topLevel : ∀ (t : TopLevel) (g : Glyph), (t.glyphs.headD g).kind ∈ topLevelStarts
  | .using _ _ _, _ => show TokenKind.using ∈ _ by decide
  | .importModule _ _, _ => show TokenKind.importWord ∈ _ by decide
  | .decl d, g => start_decl (headD_decl d g)
  | .module attrs _ _ _ _ _, g => headD_attrs attrs (by decide) (by decide) _ g

theorem length_topLevel_pos (t : TopLevel) : 0 < t.glyphs.length := by
  cases t with
  | decl d => exact length_decl_pos d
  | _ => simp [TopLevel.glyphs]

/-- What is no import is read as a declaration or a module. -/
theorem reads_topLevel_of_declaration
    (hstart : ∀ g, (gs.headD g).kind ≠ .using ∧ (gs.headD g).kind ≠ .importWord)
    (h : Reads (declaration true fuel) gs next target) :
    Reads (topLevel (fuel + 1)) gs next target := by
  refine (takes_current fun g => g.kind ≠ .using ∧ g.kind ≠ .importWord).look (fun t ht => ?_)
    fun g _ => hstart g
  split
  · next hkind => exact absurd hkind ht.1
  · next hkind => exact absurd hkind ht.2
  · exact h

theorem reads_moduleDeclaration (attrs : Attrs) (name : Name) (nameSpan : Span)
    {body : List TopLevel} (inner span : Span) (hts : ∀ t ∈ body, ReadsTopLevel t)
    (hlen : (TopLevel.module attrs name nameSpan body inner span).glyphs.length ≤ fuel + 1) :
    Reads (declaration true (fuel + 2)) (TopLevel.module attrs name nameSpan body inner span).glyphs
      EndsDecl
        (TopLevel.node .settled (.module attrs name nameSpan body inner span)).unspanned := by
  simp only [TopLevel.glyphs, List.length_append, List.length_cons, bracedGlyphs, topLevelGlyphs_eq]
    at hlen
  have hcount := length_flatMap body fun t _ => length_topLevel_pos t
  have hitem : ∀ t ∈ body, Reads (topLevel (fuel + 1)) t.glyphs EndsDecl
      (t.node .settled).unspanned := by
    intro t ht
    have hle : t.glyphs.length ≤ (body.flatMap TopLevel.glyphs).length := length_le_flatMap ht
    obtain ⟨fuel, rfl⟩ : ∃ m, fuel = m + 1 := ⟨fuel - 1, by omega⟩
    exact hts t ht fuel (by omega)
  rw [TopLevel.glyphs, bracedGlyphs, topLevelGlyphs_eq]
  refine reads_declaration attrs ⟨by decide, by decide⟩ (by omega) fun r hr => ?_
  refine Takes.peek fun t ht => ?_
  rw [show t.kind = .module from congrArg Glyph.kind ht]
  refine Takes.advance (by decide) fun _ _ => ?_
  have hname : Reads identifier [name.glyph] (fun _ => True) _ := reads_identifier name
  refine hname.bind (fun n hn => ?_) fun _ _ => trivial
  refine Takes.expect rfl (by decide) fun _ _ => ?_
  have hbody : Takes (bodyUntilBrace (fuel + 2) (topLevel (fuel + 1))) _ (fun _ => True) _ :=
    takes_bodyUntilBrace hitem (fun t _ g => endsDecl_of_start (headD_topLevel t g))
      endsDecl_brace (by omega)
  refine hbody.last (fun ns hns => ?_) fun _ _ => trivial
  refine (takes_finish _ _ _).ahead fun m hm => reads_finish ?_
  simp only [fieldsUnspanned, Value.unspanned, unspanned_optional, hr, hn, hm, unspanned_nodes, hns]
  rw [TopLevel.node, Node.unspanned]
  simp only [fieldsUnspanned, Value.unspanned, unspanned_optional, blockNode, Node.unspanned,
    unspanned_nodes, topLevelNodes_eq, List.map_map]
  rfl

/-- The grammar reads the tokens of an import or a declaration as it with its access words in
order. -/
theorem readsTopLevel (t : TopLevel) : ReadsTopLevel t := by
  induction t using TopLevel.induct with
  | husing id shortName span => exact reads_using id shortName span
  | himport id span => exact reads_importModule id span
  | hdecl d =>
    intro fuel hlen
    refine reads_topLevel_of_declaration (fun g => ?_) (readsDecl d true fuel hlen)
    have hall : ∀ k ∈ declarationStarts, k ≠ .using ∧ k ≠ .importWord := by decide
    exact hall _ (headD_decl d g)
  | hmodule attrs name nameSpan body inner span ih =>
    intro fuel hlen
    have hpos := length_topLevel_pos (.module attrs name nameSpan body inner span)
    obtain ⟨fuel, rfl⟩ : ∃ m, fuel = m + 1 := ⟨fuel - 1, by omega⟩
    refine reads_topLevel_of_declaration (fun g => ?_)
      (reads_moduleDeclaration attrs name nameSpan inner span ih hlen)
    have hall : ∀ k ∈ TokenKind.module :: declarationStarts, k ≠ .using ∧ k ≠ .importWord := by
      decide
    rw [TopLevel.glyphs]
    exact hall _ (headD_attrs attrs (by decide) (by decide) _ g)

/-! ## Whole sources -/

theorem reads_programOf {ns ms : List Node} {span : Span}
    (h : ns.map Node.unspanned = ms.map Node.unspanned) :
    Reads (programOf ns) [] next (Node.unspanned ⟨"Program", span, [("body", nodes ms)]⟩) := by
  refine takes_iff.2 ?_
  intro p g us hp _
  refine ⟨_, p, ?_, hp, rfl⟩
  simp only [Node.unspanned, fieldsUnspanned, unspanned_nodes, h]

/-- Things one after the other up to the end, as the root of a source. -/
theorem reads_untilEnd {α : Type} {node : α → Node} {glyphs : α → List Glyph} {xs : List α}
    {item : Parse Node} {ends : Glyph → Prop} (span : Span)
    (hitem : ∀ x ∈ xs, Reads item (glyphs x) ends (node x).unspanned)
    (hstart : ∀ x ∈ xs, ∀ g, ((glyphs x).headD g).kind ≠ .endOfInput ∧ ends ((glyphs x).headD g))
    (hend : ends Lexer.endGlyph) (hfuel : xs.length < fuel) :
    Reads (do
      let ns ← many fuel (nextIs .endOfInput) item
      programOf ns) (xs.flatMap glyphs) (fun g => g = Lexer.endGlyph)
      (Node.unspanned ⟨"Program", span, [("body", nodes (xs.map node))]⟩) := by
  have hgo : Takes (nextIs .endOfInput) [] (fun g => g.kind ≠ .endOfInput ∧ ends g) (· = false) :=
    (takes_nextIs _ _).weaken (fun _ hg => decide_eq_false hg.1) fun _ h => h
  have hstop : Takes (nextIs .endOfInput) [] (fun g => g = Lexer.endGlyph) (· = true) :=
    (takes_nextIs _ _).weaken (by rintro _ rfl; rfl) fun _ h => h
  refine (takes_many hgo hstop hitem hstart ?_ hfuel).last (fun ns hns => ?_) fun _ hg => hg
  · rintro g (hg | rfl)
    · exact hg.2
    · exact hend
  · refine reads_programOf ?_
    rw [hns, List.map_map]
    rfl

theorem fragment_statements {name : Option String}
    (h : name ∈ [none, some "", some "statements"]) (fuel : Nat) : fragment name fuel = (do
      let ns ← many fuel (nextIs .endOfInput) (statement fuel)
      programOf ns) := by
  simp only [List.mem_cons, List.not_mem_nil, or_false] at h
  rcases h with rfl | rfl | rfl <;> rfl

/-- The start rule reads the tokens of a source as it with its bodies made blocks and its access
words in order. -/
theorem reads_outline {x : Outline} {o : Options} (h : x.Starts o) (span : Span) :
    Reads (startRule o) x.glyphs (fun g => g = Lexer.endGlyph)
    (x.node .settled span).unspanned := by
  have hend : EndsDecl Lexer.endGlyph := by
    unfold EndsDecl
    decide
  cases x with
  | program ts =>
    rw [startRule, show o.rule = .program from h]
    refine takes_fueled fun fuel hfuel => ?_
    have hcount := length_flatMap ts fun t _ => length_topLevel_pos t
    have hitem : ∀ t ∈ ts, Reads (topLevel (fuel + 1)) t.glyphs EndsDecl
        (t.node .settled).unspanned := by
      intro t ht
      have hle : t.glyphs.length ≤ (ts.flatMap TopLevel.glyphs).length := length_le_flatMap ht
      obtain ⟨fuel, rfl⟩ : ∃ m, fuel = m + 1 := ⟨fuel - 1, by omega⟩
      change (ts.flatMap TopLevel.glyphs).length + 2 ≤ fuel + 1 at hfuel
      exact readsTopLevel t fuel (by omega)
    change (ts.flatMap TopLevel.glyphs).length + 2 ≤ fuel at hfuel
    refine reads_untilEnd span hitem (fun t _ g => ?_) hend (by omega)
    have hstart := endsDecl_of_start (headD_topLevel t g)
    exact ⟨hstart.1.2, hstart.2⟩
  | statements ss =>
    obtain ⟨hrule, hfragment⟩ := h
    have hends : EndsStatement Lexer.endGlyph := by
      unfold EndsStatement
      decide
    rw [startRule, hrule]
    refine takes_fueled fun fuel hfuel => ?_
    have hcount := length_flatMap ss fun s _ => length_stmt_pos s
    change (ss.flatMap Stmt.glyphs).length + 2 ≤ fuel at hfuel
    have hitem : ∀ s ∈ ss, Reads (statement fuel) s.glyphs EndsStatement
        (s.node .settled).unspanned := by
      intro s hs
      have hle : s.glyphs.length ≤ (ss.flatMap Stmt.glyphs).length := length_le_flatMap hs
      obtain ⟨fuel, rfl⟩ : ∃ m, fuel = m + 1 := ⟨fuel - 1, by omega⟩
      exact (readsStmt s fuel (by omega)).weaken (fun _ hg => .inr hg) fun _ hn => hn
    rw [fragment_statements hfragment]
    refine reads_untilEnd span hitem (fun s _ g => ?_) hends (by omega)
    have hkinds : ∀ k ∈ statementStarts, k ≠ .endOfInput := by decide
    exact ⟨hkinds _ (headD_stmt s g), endsStatement_of_start (headD_stmt s g)⟩
  | members ds =>
    obtain ⟨hrule, hfragment⟩ := h
    rw [startRule, hrule, hfragment]
    refine takes_fueled fun fuel hfuel => ?_
    have hcount := length_flatMap ds fun d _ => length_decl_pos d
    change (ds.flatMap Decl.glyphs).length + 2 ≤ fuel at hfuel
    have hitem : ∀ d ∈ ds, Reads (classElement fuel) d.glyphs EndsDecl
        (memberNode (d.node .settled)).unspanned := by
      intro d hd
      have hle : d.glyphs.length ≤ (ds.flatMap Decl.glyphs).length := length_le_flatMap hd
      obtain ⟨fuel, rfl⟩ : ∃ m, fuel = m + 1 := ⟨fuel - 1, by omega⟩
      exact (readsDecl d).member (by omega)
    refine reads_untilEnd span hitem (fun d _ g => ?_) hend (by omega)
    have hstart := endsDecl_of_start (start_decl (headD_decl d g))
    exact ⟨hstart.1.2, hstart.2⟩

end Parse

end MonkeyFormat
