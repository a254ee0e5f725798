import MonkeyFormat.Proofs.DeclarationPrinting
import MonkeyFormat.Proofs.TypeSyntax

set_option autoImplicit false

/-! # Laying out types

Without comments, the layout of a type spells the tokens of the settled type. What may stand behind
it depends on its last token: two closing angles next to each other are one token, so a type that
ends in one is laid out with a space before the angle that closes the list it stands in. -/

namespace MonkeyFormat

open Parse (nodes listed)

/-! ## What may stand behind a type -/

/-- Does the alternative end in generic arguments? -/
def TypePart.isGeneric : TypePart → Bool
  | .named _ (_ :: _) _ => true
  | _ => false

/-- What may stand behind an alternative: behind a closing angle nothing that lengthens it. -/
def TypePart.edge (p : TypePart) (nullable : Bool) : Doc.Edge :=
  if nullable then .word else if p.isGeneric then .symbol else .word

/-- The last alternative of a type. -/
def TypeExpr.last : TypeExpr → TypePart
  | .mk _ last _ _ => last

/-- What may stand behind a type. -/
def TypeExpr.edge : TypeExpr → Doc.Edge
  | .mk _ last nullable _ => last.edge nullable

theorem TypePart.edge_cases (p : TypePart) (nullable : Bool) :
    p.edge nullable = .word ∨ p.edge nullable = .symbol := by
  unfold edge
  split
  · exact .inl rfl
  · split
    · exact .inr rfl
    · exact .inl rfl

theorem TypeExpr.edge_cases (t : TypeExpr) : t.edge = .word ∨ t.edge = .symbol := by
  cases t with
  | mk firsts last nullable span => exact last.edge_cases nullable

theorem TypePart.isGeneric_settled (p : TypePart) : p.settled.isGeneric = p.isGeneric := by
  cases p with
  | named name generics span => cases generics <;> rfl
  | callable word params result call span => rfl

theorem TypePart.isNull_settled (p : TypePart) : p.settled.isNull = p.isNull := by
  cases p with
  | named name generics span =>
    cases name with
    | name x => cases generics <;> rfl
    | member => cases generics <;> rfl
  | callable word params result call span => rfl

/-- A settled type ends in generic arguments only where the type does. -/
theorem TypeExpr.edge_settled {t : TypeExpr} (h : t.last.isGeneric = false) :
    t.settled.edge = .word := by
  obtain ⟨firsts, last, nullable, span⟩ := t
  have hlast : last.settled.isGeneric = false := last.isGeneric_settled.trans h
  have hedge : last.settled.edge nullable = .word := by simp [TypePart.edge, hlast]
  rw [TypeExpr.settled]
  unfold TypeExpr.collapsed
  split
  · split
    · simp [TypeExpr.edge, TypePart.edge]
    · exact hedge
  · exact hedge

namespace Doc

/-! ## Angles and brackets -/

namespace Spells

variable {s t : Edge} {d : Doc} {g : Glyph} {gs : List Glyph}

/-- What may stand behind a word and behind a symbol stands behind either. -/
theorem behind (h : Spells .ending d gs t) (hs : s = .word ∨ s = .symbol) : Spells s d gs t := by
  refine ⟨h.plain, fun qs hs' hq cs hcs => ?_⟩
  obtain ⟨hscan, hadmits⟩ := h.spelled qs hs' hq cs hcs
  rcases hs with rfl | rfl
  · exact ⟨hscan, fun c hc => (hadmits c hc).1⟩
  · exact ⟨hscan, fun c hc => (hadmits c hc).2⟩

/-- What lengthens neither a word nor a symbol may stand behind either. -/
theorem toEnding (h : Spells s d gs t) (ht : t = .word ∨ t = .symbol) : Spells s d gs .ending := by
  refine ⟨h.plain, fun qs hs hq cs hcs => h.spelled qs hs ?_ cs hcs⟩
  intro cs hcs
  obtain ⟨hscan, hadmits⟩ := hq cs hcs
  rcases ht with rfl | rfl
  · exact ⟨hscan, fun c hc => (hadmits c hc).1⟩
  · exact ⟨hscan, fun c hc => (hadmits c hc).2⟩

theorem fromSymbol (h : Spells .fresh d (g :: gs) t)
    (hg : ∀ c, g.text.toList.head? = some c → c ∉ Lexeme.extenders) :
    Spells .symbol d (g :: gs) t :=
  ⟨h.plain, h.spelled.fromSymbol hg⟩

theorem closed {c : Char} (hc : c ∈ Lexeme.closedSymbols) :
    Spells .ending (.bare (String.singleton c)) [Glyph.of (String.singleton c)] .fresh := by
  have hline : ¬ '\n' = c := by
    rintro rfl
    exact absurd hc (by decide)
  refine ⟨?_, ?_⟩
  · simp [Doc.plain, isMultiline, hline]
  · have hpieces : (Doc.bare (String.singleton c)).pieces = [.char c] := by
      simp [Doc.pieces, textPieces]
    rw [hpieces]
    exact spelled_closed hc

theorem openAngle : Spells .word (.bare "<") [Glyph.of "<"] .symbol :=
  ⟨rfl, spelled_angle (by decide) fun _ h => h⟩

theorem closeAngle : Spells .word (.bare ">") [Glyph.of ">"] .symbol :=
  ⟨rfl, spelled_angle (by decide) fun _ h => h⟩

end Spells

end Doc

/-! ## First tokens -/

/-- Does the token lengthen no symbol before it? -/
def Glyph.Apart (g : Glyph) : Prop := ∀ c, g.text.toList.head? = some c → c ∉ Lexeme.extenders

theorem Name.apart_glyph (x : Name) : x.glyph.Apart := by
  obtain ⟨c, cs, hx, hc, -, -⟩ := Lexeme.isName_cons x.isName
  have hall : Lexeme.extenders.all (fun c => !Lexeme.startsWord c) = true := by decide +kernel
  intro d hd hmem
  rw [Name.glyph_text, hx] at hd
  obtain rfl : c = d := Option.some.inj hd
  simpa [hc] using List.all_eq_true.1 hall c hmem

theorem DottedName.glyphs_eq (c : DottedName) :
    ∃ (x : Name) (gs : List Glyph), c.glyphs = x.glyph :: gs := by
  induction c with
  | name x span => exact ⟨x, [], rfl⟩
  | member object x property span ih =>
    obtain ⟨y, gs, hy⟩ := ih
    exact ⟨y, gs ++ [Glyph.of ".", x.glyph], by rw [glyphs, hy, List.cons_append]⟩

theorem TypePart.glyphs_eq (p : TypePart) : ∃ g gs, p.glyphs = g :: gs ∧ g.Apart := by
  cases p with
  | named name generics span =>
    obtain ⟨x, gs, hx⟩ := name.glyphs_eq
    exact ⟨_, _, by rw [glyphs, hx, List.cons_append], x.apart_glyph⟩
  | callable word params result call span =>
    refine ⟨_, _, rfl, ?_⟩
    rintro _ ⟨⟩
    decide

/-- A type starts with a token that lengthens no symbol before it. -/
theorem TypeExpr.glyphs_eq (t : TypeExpr) : ∃ g gs, t.glyphs = g :: gs ∧ g.Apart := by
  obtain ⟨firsts, last, nullable, span⟩ := t
  cases firsts with
  | nil =>
    obtain ⟨g, gs, hgs, hg⟩ := last.glyphs_eq
    exact ⟨g, _, by rw [glyphs, firstsGlyphs, hgs]; rfl, hg⟩
  | cons p ps =>
    obtain ⟨g, gs, hgs, hg⟩ := p.glyphs_eq
    exact ⟨g, _, by rw [glyphs, firstsGlyphs, hgs]; rfl, hg⟩

/-- The tokens of a type are those of its alternatives with `or` between them. -/
theorem TypeExpr.glyphs_parts (t : TypeExpr) : t.glyphs =
    [Glyph.of "or"].intercalate (t.parts.map fun p => p.1.glyphs ++ nullableGlyphs p.2) := by
  obtain ⟨firsts, last, nullable, span⟩ := t
  rw [glyphs, parts]
  induction firsts with
  | nil => simp [firstsGlyphs]
  | cons p ps ih =>
    rw [firstsGlyphs, List.append_assoc, List.cons_append, ih, List.map_cons, List.cons_append,
      List.map_cons, nullableGlyphs, if_neg Bool.false_ne_true, List.append_nil]
    cases ps <;> simp [List.intercalate_cons_cons]

namespace Layout

variable {cx : Context} {fuel : Nat} {above : List (Step × Value)}

/-! ## Lists -/

/-- Documents with separators between them, of which each leads to an edge of its own that a
separator may stand behind, lead to the edge of the last. -/
theorem spells_join {α : Type} {glyphs : α → List Glyph} {edge : α → Doc.Edge} {sep : Doc}
    {gs : List Glyph} {x : α} {xs : List α} {ds : List Doc}
    (hsep : ∀ x, Doc.Spells (edge x) sep gs .fresh)
    (h : List.Forall₂ (fun x d => Doc.Spells .fresh d (glyphs x) (edge x)) (xs ++ [x]) ds) :
    Doc.Spells .fresh (Doc.join sep ds) (gs.intercalate ((xs ++ [x]).map glyphs)) (edge x) := by
  refine .list ?_
  induction xs generalizing ds with
  | nil =>
    obtain ⟨d, ds, hd, hnil, rfl⟩ := List.forall₂_cons_left_iff.1 h
    cases hnil
    rw [List.nil_append, List.map_singleton, List.intercalate_singleton]
    exact .one hd
  | cons y ys ih =>
    rw [List.cons_append] at h
    obtain ⟨d, ds, hd, hrest, rfl⟩ := List.forall₂_cons_left_iff.1 h
    have hall := ih hrest
    obtain ⟨z, zs, hz⟩ : ∃ z zs, ys ++ [x] = z :: zs := by cases ys <;> exact ⟨_, _, rfl⟩
    rw [hz] at hrest hall
    obtain ⟨e, es, -, -, rfl⟩ := List.forall₂_cons_left_iff.1 hrest
    rw [List.cons_append, hz, List.map_cons, List.map_cons, List.intercalate_cons_cons,
      List.append_assoc, ← List.map_cons]
    exact .cons hd (.cons (hsep y) hall)

theorem spells_commaEnding : Doc.Spells .ending commaLine [Glyph.of ","] .fresh :=
  .list (.cons (.closed (c := ',') (by decide)) (.one (.space _)))

/-! ## Alternatives -/

/-- The type's layout spells the tokens of the settled type, wherever it may stand. -/
def PrintsType (cx : Context) (t : TypeExpr) : Prop :=
  ∀ (fuel : Nat) (above : List (Step × Value)), t.node.depth < fuel →
    Prints (tree cx fuel ⟨.node t.node, above⟩) .fresh t.settled.glyphs t.settled.edge

/-- The name of an alternative, and whether it is laid out as that of the absent value. -/
theorem tree_typeName (hcx : cx.attached = []) (c : DottedName) (h : c.node.depth ≤ fuel) :
    ∃ d, tree cx fuel ⟨.node c.node, above⟩ = pure d ∧ Doc.Spells .fresh d c.glyphs .word ∧
      ∀ span, d.isBare "Null" = (TypePart.named c [] span).isNull := by
  obtain ⟨fuel, rfl⟩ := exists_fuel h
  cases c with
  | name x span =>
    have htree : tree cx (fuel + 1) ⟨.node (x.node span), above⟩ = pure (.bare x.text) :=
      tree_node hcx fuel "Identifier" "identifier" (snake_of_mem (by decide)) _ _ _
    exact ⟨_, htree, (Doc.Spells.name x.isName).1, fun _ => rfl⟩
  | member object x property span =>
    obtain ⟨d, hd, hobject⟩ : Prints (below cx fuel
        ⟨.node (DottedName.member object x property span).node, above⟩ "object") .fresh
        object.glyphs .word := below_prints rfl h fun hd => prints_dottedName hcx object hd
    obtain ⟨e, he, hproperty⟩ : Prints (below cx fuel
        ⟨.node (DottedName.member object x property span).node, above⟩ "property") .dotted
        [x.glyph] .word := below_prints rfl h fun hd => by
      obtain ⟨fuel, rfl⟩ := exists_fuel hd
      exact (prints_name hcx x property).2
    refine ⟨.list [d, .bare ".", e], ?_, .list (.cons hobject
      (.cons (.text [Glyph.of "."] .dotted rfl rfl) (.one hproperty))), fun _ => rfl⟩
    rw [DottedName.node] at hd he ⊢
    rw [tree_generic_plain hcx fuel "MemberExpression" "member_expression"
      (snake_of_mem (by decide)) (fun _ _ _ _ => rfl) (by decide)]
    change memberExpression _ _ _ = _
    unfold memberExpression
    rw [hd, pure_bind, he, pure_bind]
    rfl

/-- The last of several nodes. -/
theorem child_last (ns : List Node) (n : Node) :
    (nodes (ns ++ [n])).child (.index (-1)) = .ok (.node n) := by
  rw [nodes, List.map_append]
  exact pickAt_concat _ _

/-- Two closing angles meet where the last of the generic arguments ends in such arguments. -/
theorem endsInGenerics_types (ts : List TypeExpr) (t : TypeExpr) :
    endsInGenerics (nodes ((ts ++ [t]).map TypeExpr.node)) = .ok t.last.isGeneric := by
  obtain ⟨firsts, last, nullable, span⟩ := t
  have hgenerics : fieldOf (.node (last.node nullable)) "generics" >>=
      (fun v => pure v.truthy) = Except.ok (ε := Fault) last.isGeneric := by
    cases last with
    | named name generics span => cases generics <;> rfl
    | callable word params result call span => cases nullable <;> rfl
  unfold endsInGenerics
  rw [List.map_append, List.map_singleton, child_last]
  change (do
    let ts ← fieldOf (.node (TypeExpr.node (.mk firsts last nullable span))) "ts"
    if ts.truthy then
      let part ← ts.child (.index (-1))
      pure (← fieldOf part "generics").truthy
    else pure false) = _
  change (if (nodes (partNodes firsts ++ [last.node nullable])).truthy then
      (nodes (partNodes firsts ++ [last.node nullable])).child (.index (-1)) >>= fun part => _
    else _) = _
  rw [if_pos (by simp [nodes, Value.truthy]), child_last]
  exact hgenerics

theorem settledTypes_glyphs (ts : List TypeExpr) :
    typesGlyphs (settledTypes ts) = ts.map fun t => t.settled.glyphs := by
  rw [settledTypes_eq, typesGlyphs_eq, List.map_map]
  rfl

theorem head_generics (ts : List TypeExpr) (t : TypeExpr) : ∃ g gs,
    [Glyph.of ","].intercalate ((ts ++ [t]).map fun t => t.settled.glyphs) = g :: gs ∧ g.Apart := by
  obtain ⟨u, us, hu⟩ : ∃ u us, ts ++ [t] = u :: us := by cases ts <;> exact ⟨_, _, rfl⟩
  obtain ⟨g, gs, hgs, hg⟩ := u.settled.glyphs_eq
  exact ⟨g, _, by rw [hu, List.map_cons, Parse.intercalate_cons, hgs, List.cons_append], hg⟩

/-- Generic arguments in angles. -/
theorem generics_prints (above : List (Step × Value)) {ts : List TypeExpr} {t : TypeExpr}
    {n : Node} (h : ∀ u ∈ ts ++ [t], PrintsType cx u)
    (hget : n.get "generics" = nodes ((ts ++ [t]).map TypeExpr.node)) (hdepth : n.depth ≤ fuel) :
    ∃ ds, eachOf (below cx fuel) ⟨.node n, above⟩ "generics" = pure ds ∧
      Doc.Spells .word
        (.group (.list [.bare "<", .indent (.list [.softline, Doc.join commaLine ds]),
        if t.last.isGeneric then .space else .softline, .bare ">"]) false)
        (angled ((ts ++ [t]).map fun t => t.settled.glyphs)) .symbol := by
  have hfield : n.get "generics" = .list ((ts ++ [t]).map fun t => .node t.node) := by
    rw [hget, nodes, List.map_map]
    rfl
  obtain ⟨ds, hds, hspell⟩ : ∃ ds, eachOf (below cx fuel) ⟨.node n, above⟩ "generics" = pure ds ∧
      List.Forall₂ (fun (t : TypeExpr) d => Doc.Spells .fresh d t.settled.glyphs t.settled.edge)
        (ts ++ [t]) ds :=
    eachOf_each hfield fun u hu i =>
      h u hu fuel _ (Nat.lt_of_lt_of_le (depth_element hfield hu) hdepth)
  refine ⟨ds, hds, ?_⟩
  -- with a token that lengthens it, the opening angle would be another symbol
  obtain ⟨g, gs, hgs, hg⟩ := head_generics ts t
  have hjoin := spells_join (fun t => spells_commaEnding.behind t.settled.edge_cases) hspell
  rw [hgs] at hjoin
  have hinner : Doc.Spells .symbol (.indent (.list [.softline, Doc.join commaLine ds])) (g :: gs)
      t.settled.edge := .indent (.list (.cons (.softline _) (.one (hjoin.fromSymbol hg))))
  have hclose : Doc.SpellsAll t.settled.edge
      [if t.last.isGeneric then .space else .softline, .bare ">"] [Glyph.of ">"] .symbol := by
    -- two closing angles would be one symbol: the space is there if the last argument ends in one
    cases hgeneric : t.last.isGeneric with
    | true => exact .cons (.space _) (.one Doc.Spells.closeAngle.fromFresh)
    | false =>
      rw [TypeExpr.edge_settled hgeneric]
      exact .cons (.softline _) (.one .closeAngle)
  have hangled : angled ((ts ++ [t]).map fun t => t.settled.glyphs) =
      Glyph.of "<" :: (g :: gs ++ [Glyph.of ">"]) := by
    rw [angled, if_neg (by simp), hgs]
  rw [hangled]
  exact .group (.list (.cons .openAngle (.cons hinner hclose))) false

/-- Documents one behind the other; a single one is left as it is. -/
def sole (ds : List Doc) : Doc :=
  match ds with
  | [d] => d
  | ds => .list ds

theorem spells_sole {ds : List Doc} {gs : List Glyph} {s t : Doc.Edge}
    (h : Doc.SpellsAll s ds gs t) : Doc.Spells s (sole ds) gs t := by
  unfold sole
  split
  · next d =>
    obtain ⟨hplain, hspelled⟩ := h
    simp only [Doc.plainAll, Doc.piecesAll, Bool.and_true, List.append_nil] at hplain hspelled
    exact ⟨hplain, hspelled⟩
  · exact .list h

/-- The documents of an alternative with the question mark that it may carry. -/
def markedDocs (nullable : Bool) (ds : List Doc) : List Doc :=
  if nullable then ds ++ [.bare "?"] else ds

theorem spells_marked {p : TypePart} {nullable : Bool} {ds : List Doc} {gs : List Glyph}
    (h : Doc.SpellsAll .fresh ds gs (p.edge false)) :
    Doc.Spells .fresh (sole (markedDocs nullable ds)) (gs ++ nullableGlyphs nullable)
      (p.edge nullable) := by
  refine spells_sole ?_
  cases nullable with
  | false =>
    change Doc.SpellsAll .fresh ds (gs ++ []) (p.edge false)
    rwa [List.append_nil]
  | true =>
    have hmark := (Doc.Spells.closed (c := '?') (by decide)).behind (p.edge_cases false)
    exact h.append (.one (hmark.ofFresh .word))

theorem tree_typePart (hcx : cx.attached = []) (p : TypePart) (nullable : Bool) :
    tree cx (fuel + 1) ⟨.node (p.node nullable), above⟩ =
      typeSpecPart (below cx fuel) ⟨.node (p.node nullable), above⟩ (p.node nullable) := by
  cases p <;>
    exact tree_node hcx fuel "TypeSpecPart" "type_spec_part" (snake_of_mem (by decide)) _ _ _

/-- An alternative has a name, and says whether there is a question mark behind it. -/
theorem get_typePart (p : TypePart) (nullable : Bool) :
    ((p.node nullable).get "name").truthy = true ∧
      ((p.node nullable).get "nullable").truthy = nullable := by
  cases p <;> cases nullable <;> exact ⟨rfl, rfl⟩

/-- The document of an alternative, which may be recognised as the absent value. -/
def SpellsPart (p : TypePart × Bool) (d : Doc) : Prop :=
  Doc.Spells .fresh d (p.1.settled.glyphs ++ nullableGlyphs p.2) (p.1.settled.edge p.2) ∧
    d.isBare "Null" = (p.1.isNull && !p.2)

section Named

variable {name : DottedName} {span : Span}

/-- The name at the front of an alternative. -/
theorem below_partName (above : List (Step × Value)) (hcx : cx.attached = [])
    {generics : List TypeExpr} {nullable : Bool}
    (h : ((TypePart.named name generics span).node nullable).depth ≤ fuel) :
    ∃ d, below cx fuel ⟨.node ((TypePart.named name generics span).node nullable), above⟩ "name" =
        pure d ∧ Doc.Spells .fresh d name.glyphs .word ∧
      ∀ span, d.isBare "Null" = (TypePart.named name [] span).isNull := by
  have hlt : name.node.depth < fuel := Nat.lt_of_lt_of_le
    (depth_get ((TypePart.named name generics span).node nullable) "name") h
  exact tree_typeName hcx name (Nat.le_of_lt hlt)

/-- A name alone. Nothing but this can be recognised as the absent value. -/
theorem prints_alone (hcx : cx.attached = []) (nullable : Bool)
    (hdepth : ((TypePart.named name [] span).node nullable).depth < fuel) :
    ∃ d, tree cx fuel ⟨.node ((TypePart.named name [] span).node nullable), above⟩ = pure d ∧
      SpellsPart (.named name [] span, nullable) d := by
  obtain ⟨fuel, rfl⟩ := exists_fuel (Nat.le_of_lt hdepth)
  obtain ⟨hname, hnullable⟩ := get_typePart (.named name [] span) nullable
  have hcallspec : ((TypePart.named name [] span).node nullable).get "callspec" = .null := by
    cases nullable <;> rfl
  have hnone : (((TypePart.named name [] span).node nullable).get "generics").truthy = false := rfl
  obtain ⟨d, hd, hspell, hbare⟩ := below_partName above hcx (Nat.le_of_lt_succ hdepth)
  refine ⟨sole (markedDocs nullable [d]), ?_, ?_, ?_⟩
  · rw [tree_typePart hcx, typeSpecPart]
    simp only [hname, hcallspec, hnullable, hnone, hd, pure_bind, if_true, Bool.false_eq_true,
      if_false, Value.isNull]
    rfl
  · have hglyphs : (TypePart.named name [] span).settled.glyphs = name.glyphs := List.append_nil _
    rw [hglyphs]
    exact spells_marked (.one hspell)
  · cases nullable with
    | false => exact (hbare span).trans (Bool.and_true _).symm
    | true => exact (Bool.and_false _).symm

/-- A name with generic arguments, the last of which may end in a closing angle of its own. -/
theorem prints_generic (hcx : cx.attached = []) {ts : List TypeExpr} {t : TypeExpr}
    (nullable : Bool) (h : ∀ u ∈ ts ++ [t], PrintsType cx u)
    (hdepth : ((TypePart.named name (ts ++ [t]) span).node nullable).depth < fuel) :
    ∃ d, tree cx fuel ⟨.node ((TypePart.named name (ts ++ [t]) span).node nullable), above⟩ =
        pure d ∧ SpellsPart (.named name (ts ++ [t]) span, nullable) d := by
  obtain ⟨fuel, rfl⟩ := exists_fuel (Nat.le_of_lt hdepth)
  obtain ⟨hname, hnullable⟩ := get_typePart (.named name (ts ++ [t]) span) nullable
  have hcallspec : ((TypePart.named name (ts ++ [t]) span).node nullable).get "callspec" =
      .null := by cases nullable <;> rfl
  have hsome : ((TypePart.named name (ts ++ [t]) span).node nullable).get "generics" =
      nodes ((ts ++ [t]).map TypeExpr.node) := by
    change someNodes _ = _
    rw [someNodes, typeNodes_eq, if_neg (by simp)]
  have htruthy : (nodes ((ts ++ [t]).map TypeExpr.node)).truthy = true := by
    simp [nodes, Value.truthy]
  obtain ⟨d, hd, hspell, -⟩ := below_partName above hcx (Nat.le_of_lt_succ hdepth)
  obtain ⟨ds, hds, hgenerics⟩ := generics_prints above h hsome (Nat.le_of_lt_succ hdepth)
  refine ⟨sole (markedDocs nullable [d, .group (.list [.bare "<",
    .indent (.list [.softline, Doc.join commaLine ds]),
    if t.last.isGeneric then .space else .softline, .bare ">"]) false]), ?_, ?_, ?_⟩
  · rw [tree_typePart hcx, typeSpecPart]
    simp only [hname, hcallspec, hnullable, hsome, htruthy, hd, hds, endsInGenerics_types,
      pure_bind, if_true, Value.isNull]
    rfl
  · have hglyphs : (TypePart.named name (ts ++ [t]) span).settled.glyphs =
        name.glyphs ++ angled ((ts ++ [t]).map fun t => t.settled.glyphs) := by
      rw [TypePart.settled, TypePart.glyphs, settledTypes_glyphs]
    have hgeneric : (TypePart.named name (ts ++ [t]) span).isGeneric = true := by
      cases ts <;> rfl
    rw [hglyphs]
    refine spells_marked ?_
    rw [TypePart.edge, TypePart.isGeneric_settled, hgeneric]
    exact .cons hspell (.one hgenerics)
  · have hnull : (TypePart.named name (ts ++ [t]) span).isNull = false := by
      cases ts <;> cases name <;> rfl
    rw [hnull, Bool.false_and]
    cases nullable <;> rfl

end Named

/-! ## Parameters and results -/

theorem PrintsType.ending {t : TypeExpr} (h : PrintsType cx t) (hdepth : t.node.depth < fuel) :
    Prints (tree cx fuel ⟨.node t.node, above⟩) .fresh t.settled.glyphs .ending := by
  obtain ⟨d, hd, hspell⟩ := h fuel above hdepth
  exact ⟨d, hd, hspell.toEnding t.settled.edge_cases⟩

/-- A parameter is laid out with its type settled. -/
theorem prints_parameter (hcx : cx.attached = []) {p : Parameter}
    (h : ∀ t ∈ p.nested, PrintsType cx t) (habove : Nesting.Open above)
    (hdepth : p.node.depth < fuel) :
    Prints (tree cx fuel ⟨.node p.node, above⟩) .fresh p.settled.glyphs .ending := by
  cases p with
  | plain name span =>
    obtain ⟨d, hd, hspell⟩ := prints_ident hcx name span (Nat.le_of_lt hdepth)
    exact ⟨d, hd, hspell.toEnding (.inl rfl)⟩
  | typed name first type span =>
    obtain ⟨fuel, rfl⟩ := exists_fuel (Nat.le_of_lt hdepth)
    have hcast : Joint.cast ∈ Joint.all := List.mem_cons_of_mem _ List.mem_cons_self
    have hparens : Nesting.parenthesized
        ⟨.node (Joint.cast.apply span (name.node first) type.node), above⟩ = false :=
      Nesting.parenthesized_of_open (.inl rfl) habove
    have hname : Prints (below cx fuel ⟨.node (Joint.cast.apply span (name.node first) type.node),
        above⟩ "left") .fresh [name.glyph] .word :=
      below_within rfl (Nat.le_of_lt_succ hdepth) fun hd =>
        prints_ident hcx name first (Nat.le_of_lt hd)
    have htype : Prints (below cx fuel ⟨.node (Joint.cast.apply span (name.node first) type.node),
        above⟩ "right") .fresh type.settled.glyphs .ending :=
      below_within rfl (Nat.le_of_lt_succ hdepth) fun hd =>
        (h type (List.mem_singleton_self _)).ending hd
    obtain ⟨d, hd, hspell⟩ := hname
    obtain ⟨parts, hparts, hall⟩ : ∃ parts, chain cx (below cx fuel)
        (Joint.cast.apply span (name.node first) type.node).depth false
        ⟨.node (Joint.cast.apply span (name.node first) type.node), above⟩
        (Joint.cast.apply span (name.node first) type.node) = pure parts ∧
        Doc.SpellsAll .fresh parts ([name.glyph] ++ Glyph.of "as" :: type.settled.glyphs)
          .ending := by
      rw [depth_apply, Nat.add_comm]
      exact chain_apply hcx hcast false (.inr ⟨rfl, d, hd, rfl⟩) (.one (hspell.group false)) htype
    rw [Parameter.node, tree_apply hcx hcast, hparens]
    simp only [Bool.false_eq_true, if_false, bind_pure]
    exact binaryExpression_prints hparts hall

/-- A type behind `as`, behind a closing parenthesis or a word. -/
theorem result_prints (hcx : cx.attached = []) {r : TypeResult}
    (h : ∀ t ∈ r.nested, PrintsType cx t)
    {n : Node} {name : String} (hget : n.get name = Parse.optional r.node?)
    (hdepth : n.depth ≤ fuel) :
    Prints (below cx fuel ⟨.node n, above⟩ name) .word r.settled.glyphs .ending := by
  cases r with
  | none =>
    obtain ⟨fuel, rfl⟩ := exists_fuel hdepth
    rw [below_null hget]
    have hempty : Doc.Spells .word (.bare "") [] .word := .text [] .word rfl rfl
    exact .pure (hempty.toEnding (.inl rfl))
  | typed type span =>
    refine below_within hget hdepth fun hd => ?_
    obtain ⟨fuel, rfl⟩ := exists_fuel (Nat.le_of_lt hd)
    rw [tree_unary hcx " as" _ _ (by decide)]
    refine Prints.bind (below_within rfl (Nat.le_of_lt_succ hd) fun he =>
      (h type (List.mem_singleton_self _)).ending he) fun d hd => ?_
    exact .pure (.list (.cons (.text [Glyph.of "as"] .word rfl rfl)
      (.cons (.text [] .fresh rfl rfl) (.one hd))))

/-- Parameters in parentheses. -/
theorem parameterList_prints (hcx : cx.attached = []) {ps : List Parameter}
    (h : ∀ p ∈ ps, ∀ t ∈ p.nested, PrintsType cx t) {n : Node}
    (hget : n.get "params" = nodes (ps.map Parameter.node)) (hkind : n.kind ∉ Nesting.operatorKinds)
    (hdepth : n.depth ≤ fuel) :
    Prints (parameters (below cx fuel) ⟨.node n, above⟩ n) .word
      (listed (ps.map fun p => p.settled.glyphs)) .fresh := by
  have hfield : n.get "params" = .list (ps.map fun p => .node p.node) := by
    rw [hget, nodes, List.map_map]
    rfl
  obtain ⟨ds, hds, hspell⟩ : ∃ ds, eachOf (below cx fuel) ⟨.node n, above⟩ "params" = pure ds ∧
      SpellEach .fresh (fun p : Parameter => p.settled.glyphs) .ending ps ds :=
    eachOf_prints hfield fun p hp i =>
      prints_parameter hcx (h p hp) ⟨n, by rw [hget]; rfl, hkind⟩
        (Nat.lt_of_lt_of_le (depth_element hfield hp) hdepth)
  unfold parameters
  rw [hds, hget]
  cases hspell with
  | nil => exact .pure (.text [Glyph.of "(", Glyph.of ")"] .fresh rfl rfl)
  | cons hd hrest => exact .pure (spells_enclosed (.text [Glyph.of "("] .fresh rfl rfl)
      (SpellEach.join spells_commaEnding (.cons hd hrest)) (.closed (c := ')') (by decide)))

theorem settledParameters_glyphs (ps : List Parameter) :
    parametersGlyphs (settledParameters ps) = ps.map fun p => p.settled.glyphs := by
  rw [settledParameters_eq, parametersGlyphs_eq, List.map_map]
  rfl

/-- The parameters and the result of a function or a callable type. -/
theorem settledSignature_prints (above : List (Step × Value)) (hcx : cx.attached = [])
    {ps : List Parameter} {r : TypeResult} (hps : ∀ p ∈ ps, ∀ t ∈ p.nested, PrintsType cx t)
    (hr : ∀ t ∈ r.nested, PrintsType cx t)
    {n : Node} (hparams : n.get "params" = nodes (ps.map Parameter.node))
    (hresult : n.get "returnType" = Parse.optional r.node?) (hkind : n.kind ∉ Nesting.operatorKinds)
    (hdepth : n.depth ≤ fuel) :
    Prints (signature (below cx fuel) ⟨.node n, above⟩ n) .word
      (listed (ps.map fun p => p.settled.glyphs) ++ r.settled.glyphs) .ending := by
  refine (parameterList_prints hcx hps hparams hkind hdepth).bind fun d hd => ?_
  refine (result_prints hcx hr hresult hdepth).bind fun e he => ?_
  exact .pure (.group (.list (.cons hd (.one he.fromFresh))) false)

/-- The node of a callable type's signature. -/
def callNode (params : List Parameter) (result : TypeResult) (span : Span) : Node :=
  ⟨"MethodDefinition", span, [("kind", .str "method"), ("key", .str ""),
    ("params", nodes (parameterNodes params)), ("returnType", Parse.optional result.node?)]⟩

theorem prints_call (hcx : cx.attached = []) {params : List Parameter} {result : TypeResult}
    (span : Span) (hparams : ∀ p ∈ params, ∀ t ∈ p.nested, PrintsType cx t)
    (hresult : ∀ t ∈ result.nested, PrintsType cx t)
    (hdepth : (callNode params result span).depth < fuel) :
    Prints (tree cx fuel ⟨.node (callNode params result span), above⟩) .word
      (listed (params.map fun p => p.settled.glyphs) ++ result.settled.glyphs) .ending := by
  obtain ⟨fuel, rfl⟩ := exists_fuel (Nat.le_of_lt hdepth)
  have hnodes : (callNode params result span).get "params" = nodes (params.map Parameter.node) :=
    congrArg nodes (parameterNodes_eq params)
  have hsignature := settledSignature_prints above hcx hparams hresult hnodes rfl
    (by decide : "MethodDefinition" ∉ Nesting.operatorKinds) (Nat.le_of_lt_succ hdepth)
  rw [callNode, tree_generic_plain hcx fuel "MethodDefinition" "method_definition"
    (snake_of_mem (by decide)) (fun _ _ _ _ => rfl) (by decide)]
  change Prints (signature (below cx fuel) ⟨.node (callNode params result span), above⟩
    (callNode params result span) >>= fun sig => pure (.list [.bare "", sig])) _ _ _
  refine hsignature.bind fun d hd => ?_
  have hempty : Doc.Spells .word (.bare "") [] .word := .text [] .word rfl rfl
  have hall := Doc.SpellsAll.cons hempty (.one hd)
  exact .pure (.list hall)

/-- A callable type in its parentheses, with its signature behind its name. -/
theorem prints_callable (hcx : cx.attached = []) {word : Span} {params : List Parameter}
    {result : TypeResult} {call span : Span} (nullable : Bool)
    (h : ∀ t ∈ (TypePart.callable word params result call span).nested, PrintsType cx t)
    (hdepth : ((TypePart.callable word params result call span).node nullable).depth < fuel) :
    ∃ d,
        tree cx fuel ⟨.node ((TypePart.callable word params result call span).node nullable), above⟩
        = pure d ∧ SpellsPart (.callable word params result call span, nullable) d := by
  obtain ⟨fuel, rfl⟩ := exists_fuel (Nat.le_of_lt hdepth)
  obtain ⟨hname, hnullable⟩ := get_typePart (.callable word params result call span) nullable
  have hcallspec : (((TypePart.callable word params result call span).node nullable).get
      "callspec").isNull = false := rfl
  have hgenerics : ((TypePart.callable word params result call span).node nullable).get "generics" =
      .null := by cases nullable <;> rfl
  obtain ⟨d, hd, hmethod⟩ : Prints (below cx fuel ⟨.node
      ((TypePart.callable word params result call span).node nullable), above⟩ "name") .fresh
      [methodName.glyph] .word :=
    below_within rfl (Nat.le_of_lt_succ hdepth) fun he =>
      prints_ident hcx methodName word (Nat.le_of_lt he)
  obtain ⟨e, he, hcall⟩ : Prints (below cx fuel ⟨.node
      ((TypePart.callable word params result call span).node nullable), above⟩ "callspec") .word
      (listed (params.map fun p => p.settled.glyphs) ++ result.settled.glyphs) .ending :=
    below_within rfl (Nat.le_of_lt_succ hdepth) fun he => prints_call hcx call
      (fun p hp t ht => h t (List.mem_append_left _ (List.mem_flatMap.2 ⟨p, hp, ht⟩)))
      (fun t ht => h t (List.mem_append_right _ ht)) he
  refine ⟨sole (markedDocs nullable [.bare "(", d, .indent (.list [.softline, e]), .softline,
    .bare ")"]), ?_, ?_, by cases nullable <;> rfl⟩
  · rw [tree_typePart hcx, typeSpecPart]
    simp only [hname, hgenerics, hcallspec, hnullable, hd, he, pure_bind, if_true]
    rfl
  · have hglyphs : (TypePart.callable word params result call span).settled.glyphs =
        [Glyph.of "("] ++ ([methodName.glyph] ++
          ((listed (params.map fun p => p.settled.glyphs) ++ result.settled.glyphs) ++
            [Glyph.of ")"])) := by
      rw [TypePart.settled, TypePart.glyphs, settledParameters_glyphs, List.append_assoc]
      rfl
    rw [hglyphs]
    refine spells_marked ?_
    have hindent : Doc.Spells .word (.indent (.list [.softline, e])) _ .ending :=
      .indent (.list (.cons (.softline _) (.one hcall)))
    have hclose : Doc.Spells .ending (.bare ")") [Glyph.of ")"] .word :=
      (Doc.Spells.closed (c := ')') (by decide)).ofFresh .word
    exact .cons (.text [Glyph.of "("] .fresh rfl rfl) (.cons hmethod (.cons hindent
      (.cons (.softline _) (.one hclose))))

/-! ## Types -/

/-- An alternative is laid out with the types inside it settled. -/
theorem prints_typePart (hcx : cx.attached = []) {p : TypePart} (nullable : Bool)
    (h : ∀ t ∈ p.nested, PrintsType cx t) (hdepth : (p.node nullable).depth < fuel) :
    ∃ d, tree cx fuel ⟨.node (p.node nullable), above⟩ = pure d ∧ SpellsPart (p, nullable) d := by
  cases p with
  | named name generics span =>
    rcases List.eq_nil_or_concat' generics with rfl | ⟨ts, t, rfl⟩
    · exact prints_alone hcx nullable hdepth
    · exact prints_generic hcx nullable h hdepth
  | callable word params result call span => exact prints_callable hcx nullable h hdepth

/-- What stands between alternatives. -/
def orLine : Doc := .list [.bare " or", .indent .space]

theorem spells_orLine {s : Doc.Edge} (hs : s = .word ∨ s = .symbol) :
    Doc.Spells s orLine [Glyph.of "or"] .fresh := by
  have hword : Doc.Spells s (.bare " or") [Glyph.of "or"] .word := by
    rcases hs with rfl | rfl <;> exact .text [Glyph.of "or"] .word rfl rfl
  exact .list (.cons hword (.one (.indent (.space _))))

/-- The document of several alternatives, of which a second and last one that is the absent value
becomes a question mark. -/
def alternatives (ds : List Doc) : Doc :=
  match ds with
  | [d, e] => if e.isBare "Null" then .list [d, .bare "?"] else .group (Doc.join orLine ds) false
  | _ => .group (Doc.join orLine ds) false

theorem typeSpecList_eq (child : Child) (c : Cursor) :
    typeSpecList child c = eachOf child c "ts" >>= fun ds => pure (alternatives ds) := by
  unfold typeSpecList
  refine bind_congr fun ds => ?_
  rcases ds with _ | ⟨d, _ | ⟨e, _ | ⟨c, cs⟩⟩⟩
  · rfl
  · rfl
  · exact (apply_ite pure _ _ _).symm
  · rfl

theorem alternatives_of_length {ds : List Doc} (h : ds.length ≠ 2) :
    alternatives ds = .group (Doc.join orLine ds) false := by
  unfold alternatives
  split
  · exact absurd rfl h
  · rfl

section Alternatives

variable {firsts : List TypePart} {last : TypePart} {nullable : Bool} {span : Span} {ds : List Doc}

/-- Alternatives with `or` between them. -/
theorem spells_orAll
    (h : List.Forall₂ SpellsPart (TypeExpr.mk firsts last nullable span).parts ds) :
    Doc.Spells .fresh (.group (Doc.join orLine ds) false)
      (TypeExpr.mk (settledParts firsts) last.settled nullable span).glyphs
      (last.settled.edge nullable) := by
  have hsep (p : TypePart × Bool) :
      Doc.Spells (p.1.settled.edge p.2) orLine [Glyph.of "or"] .fresh :=
    spells_orLine (p.1.settled.edge_cases p.2)
  have hparts := h.imp fun p d hp => hp.1
  have hjoin := spells_join hsep hparts
  rw [TypeExpr.glyphs_parts, TypeExpr.parts, settledParts_eq]
  rw [List.map_append, List.map_map] at hjoin
  rw [List.map_append, List.map_map, List.map_map]
  exact hjoin.group false

/-- An alternative with a question mark behind it that stands for the absent value. -/
theorem spells_collapsed {p : TypePart} {d : Doc} (h : SpellsPart (p, false) d) :
    Doc.Spells .fresh (.list [d, .bare "?"]) (TypeExpr.mk [] p.settled true span).glyphs .word := by
  have hmark := (Doc.Spells.closed (c := '?') (by decide)).behind (p.settled.edge_cases false)
  have hp := h.1
  rw [nullableGlyphs, if_neg Bool.false_ne_true, List.append_nil] at hp
  rw [TypeExpr.glyphs, firstsGlyphs, List.nil_append]
  exact .list (.cons hp (.one (hmark.ofFresh .word)))

theorem spells_alternatives
    (h : List.Forall₂ SpellsPart (TypeExpr.mk firsts last nullable span).parts ds) :
    Doc.Spells .fresh (alternatives ds) (TypeExpr.mk firsts last nullable span).settled.glyphs
      (TypeExpr.mk firsts last nullable span).settled.edge := by
  have hall := spells_orAll h
  rw [TypeExpr.settled]
  -- only where there are two of them does the second matter
  rcases firsts with _ | ⟨p, _ | ⟨q, qs⟩⟩
  · rw [alternatives_of_length]
    · exact hall
    · rw [← h.length_eq]
      exact Nat.succ_ne_succ_iff.2 Nat.zero_ne_one
  · obtain ⟨d, _, hp, hrest, rfl⟩ := List.forall₂_cons_left_iff.1 h
    obtain ⟨e, _, he, hnil, rfl⟩ := List.forall₂_cons_left_iff.1 hrest
    cases hnil
    have hbare : e.isBare "Null" = (last.settled.isNull && !nullable) := by
      rw [last.isNull_settled]
      exact he.2
    change Doc.Spells .fresh (if e.isBare "Null" then _ else _)
      (TypeExpr.collapsed [p.settled] last.settled nullable span).glyphs _
    unfold TypeExpr.collapsed
    dsimp only
    rw [hbare]
    split
    · exact spells_collapsed hp
    · exact hall
  · rw [alternatives_of_length]
    · exact hall
    · rw [← h.length_eq, TypeExpr.parts]
      simp

end Alternatives

/-- Without comments, the layout of a type spells the tokens of the settled type. -/
theorem printsType (hcx : cx.attached = []) (t : TypeExpr) : PrintsType cx t := by
  induction t using TypeExpr.induct with
  | h t ih =>
    intro fuel above hdepth
    obtain ⟨fuel, rfl⟩ := exists_fuel (Nat.le_of_lt hdepth)
    obtain ⟨span, hnode⟩ := t.node_eq
    have hfield : t.node.get "ts" = .list (t.parts.map fun p => .node (p.1.node p.2)) := by
      rw [hnode]
      change nodes _ = _
      rw [nodes, List.map_map]
      rfl
    obtain ⟨ds, hds, hspell⟩ : ∃ ds, eachOf (below cx fuel) ⟨.node t.node, above⟩ "ts" = pure ds ∧
        List.Forall₂ SpellsPart t.parts ds :=
      eachOf_each hfield fun p hp i => prints_typePart hcx p.2 (ih p hp) (Nat.lt_of_lt_of_le
        (@depth_element _ (fun p : TypePart × Bool => p.1.node p.2) _ _ _ _ hfield hp)
        (Nat.le_of_lt_succ hdepth))
    have hparts : Doc.Spells .fresh (alternatives ds) t.settled.glyphs t.settled.edge := by
      cases t with
      | mk firsts last nullable span => exact spells_alternatives hspell
    rw [hnode] at hds ⊢
    rw [tree_node hcx fuel "TypeSpecList" "type_spec_list" (snake_of_mem (by decide))]
    change Prints (typeSpecList (below cx fuel) _) _ _ _
    rw [typeSpecList_eq, hds]
    exact .pure hparts

end Layout

end MonkeyFormat
