import MonkeyFormat.Proofs.Terms

set_option autoImplicit false

/-! # Types

The types of the language: alternatives joined by `or`, generic arguments and callable types nested
to any depth, and a question mark behind the last alternative, the only place where the grammar
takes one. What a type becomes by formatting is a function on types: `X or Null` becomes `X?`. -/

namespace MonkeyFormat

open Parse (optional nodes listed)

mutual

/-- A type: its alternatives, of which the last may carry a question mark. -/
inductive TypeExpr where
  | mk (firsts : List TypePart) (last : TypePart) (nullable : Bool) (span : Span)

/-- An alternative of a type. -/
inductive TypePart where
  | named (name : DottedName) (generics : List TypeExpr) (span : Span)
  | callable (word : Span) (params : List Parameter) (result : TypeResult) (call span : Span)

/-- An identifier with an optional type. -/
inductive Parameter where
  | plain (name : Name) (span : Span)
  | typed (name : Name) (first : Span) (type : TypeExpr) (span : Span)

/-- An optional type behind `as`. -/
inductive TypeResult where
  | none
  | typed (type : TypeExpr) (span : Span)

end

/-- The name that callable types start with. -/
def methodName : Name := ⟨"Method", by decide⟩

/-! ## Nodes -/

/-- The fields of a question mark. -/
def nullableFields (nullable : Bool) : Fields := if nullable then [("nullable", .bool true)] else []

/-- Nodes as the value of a field that is absent if there are none. -/
def someNodes (ns : List Node) : Value := if ns.isEmpty then .null else nodes ns

mutual

/-- The node of a type. -/
def TypeExpr.node : TypeExpr → Node
  | .mk firsts last nullable span =>
    ⟨"TypeSpecList", span, [("ts", nodes (partNodes firsts ++ [last.node nullable]))]⟩

/-- The node of an alternative, with or without a question mark. -/
def TypePart.node (nullable : Bool) : TypePart → Node
  | .named name generics span => ⟨"TypeSpecPart", span,
      ("name", .node name.node) :: ("generics", someNodes (typeNodes generics)) ::
        nullableFields nullable⟩
  | .callable word params result call span => ⟨"TypeSpecPart", span,
      ("name", .node (methodName.node word)) :: ("callspec", .node ⟨"MethodDefinition", call,
        [("kind", .str "method"), ("key", .str ""), ("params", nodes (parameterNodes params)),
          ("returnType", optional result.node?)]⟩) :: nullableFields nullable⟩

/-- The node of an identifier with its type. -/
def Parameter.node : Parameter → Node
  | .plain name span => name.node span
  | .typed name first type span => Joint.cast.apply span (name.node first) type.node

/-- The node of a type behind `as`. -/
def TypeResult.node? : TypeResult → Option Node
  | .none => Option.none
  | .typed type span => some ⟨"UnaryExpression", span,
      [("operator", .str " as"), ("argument", .node type.node), ("prefix", .bool true)]⟩

/-- The nodes of alternatives without question marks. -/
def partNodes : List TypePart → List Node
  | [] => []
  | p :: ps => p.node false :: partNodes ps

/-- The nodes of types. -/
def typeNodes : List TypeExpr → List Node
  | [] => []
  | t :: ts => t.node :: typeNodes ts

/-- The nodes of parameters. -/
def parameterNodes : List Parameter → List Node
  | [] => []
  | p :: ps => p.node :: parameterNodes ps

end

/-! ## Tokens -/

/-- The token of a question mark. -/
def nullableGlyphs (nullable : Bool) : List Glyph := if nullable then [Glyph.of "?"] else []

/-- The tokens of things in angles, none if there are no things. -/
def angled (gss : List (List Glyph)) : List Glyph :=
  if gss.isEmpty then [] else Glyph.of "<" :: ([Glyph.of ","].intercalate gss ++ [Glyph.of ">"])

mutual

/-- The tokens of a type. -/
def TypeExpr.glyphs : TypeExpr → List Glyph
  | .mk firsts last nullable _ => firstsGlyphs firsts ++ (last.glyphs ++ nullableGlyphs nullable)

/-- The tokens of an alternative, without a question mark. -/
def TypePart.glyphs : TypePart → List Glyph
  | .named name generics _ => name.glyphs ++ angled (typesGlyphs generics)
  | .callable _ params result _ _ => Glyph.of "(" :: methodName.glyph ::
      (listed (parametersGlyphs params) ++ (result.glyphs ++ [Glyph.of ")"]))

/-- The tokens of an identifier with its type. -/
def Parameter.glyphs : Parameter → List Glyph
  | .plain name _ => [name.glyph]
  | .typed name _ type _ => name.glyph :: Glyph.of "as" :: type.glyphs

/-- The tokens of a type behind `as`. -/
def TypeResult.glyphs : TypeResult → List Glyph
  | .none => []
  | .typed type _ => Glyph.of "as" :: type.glyphs

/-- The tokens of alternatives that others follow. -/
def firstsGlyphs : List TypePart → List Glyph
  | [] => []
  | p :: ps => p.glyphs ++ Glyph.of "or" :: firstsGlyphs ps

/-- The tokens of types, one by one. -/
def typesGlyphs : List TypeExpr → List (List Glyph)
  | [] => []
  | t :: ts => t.glyphs :: typesGlyphs ts

/-- The tokens of parameters, one by one. -/
def parametersGlyphs : List Parameter → List (List Glyph)
  | [] => []
  | p :: ps => p.glyphs :: parametersGlyphs ps

end

/-! ## What formatting makes of a type -/

/-- Is the alternative the type of the absent value? -/
def TypePart.isNull : TypePart → Bool
  | .named (.name x _) [] _ => x.text = "Null"
  | _ => false

/-- A type, in which a question mark stands for a second and last alternative that is the absent
value. -/
def TypeExpr.collapsed (firsts : List TypePart) (last : TypePart) (nullable : Bool) (span : Span) :
    TypeExpr :=
  match firsts with
  | [p] => if last.isNull && !nullable then .mk [] p true span else .mk [p] last nullable span
  | firsts => .mk firsts last nullable span

mutual

/-- The type that is laid out for a type. -/
def TypeExpr.settled : TypeExpr → TypeExpr
  | .mk firsts last nullable span => .collapsed (settledParts firsts) last.settled nullable span

/-- The alternative with all types in it settled. -/
def TypePart.settled : TypePart → TypePart
  | .named name generics span => .named name (settledTypes generics) span
  | .callable word params result call span =>
    .callable word (settledParameters params) result.settled call span

/-- The parameter with its type settled. -/
def Parameter.settled : Parameter → Parameter
  | .plain name span => .plain name span
  | .typed name first type span => .typed name first type.settled span

/-- The type behind `as` settled. -/
def TypeResult.settled : TypeResult → TypeResult
  | .none => .none
  | .typed type span => .typed type.settled span

/-- Several alternatives settled. -/
def settledParts : List TypePart → List TypePart
  | [] => []
  | p :: ps => p.settled :: settledParts ps

/-- Several types settled. -/
def settledTypes : List TypeExpr → List TypeExpr
  | [] => []
  | t :: ts => t.settled :: settledTypes ts

/-- Several parameters settled. -/
def settledParameters : List Parameter → List Parameter
  | [] => []
  | p :: ps => p.settled :: settledParameters ps

end

/-! ## Lists -/

/-- A function that goes through a list element by element maps it. -/
theorem eq_map_of_cons {α β : Type} {f : List α → List β} {g : α → β} (hnil : f [] = [])
    (hcons : ∀ x xs, f (x :: xs) = g x :: f xs) (xs : List α) : f xs = xs.map g := by
  induction xs with
  | nil => exact hnil
  | cons x xs ih => rw [hcons, ih, List.map_cons]

theorem partNodes_eq (ps : List TypePart) : partNodes ps = ps.map (TypePart.node false) :=
  eq_map_of_cons rfl (fun _ _ => rfl) ps

theorem typeNodes_eq (ts : List TypeExpr) : typeNodes ts = ts.map TypeExpr.node :=
  eq_map_of_cons rfl (fun _ _ => rfl) ts

theorem parameterNodes_eq (ps : List Parameter) : parameterNodes ps = ps.map Parameter.node :=
  eq_map_of_cons rfl (fun _ _ => rfl) ps

theorem typesGlyphs_eq (ts : List TypeExpr) : typesGlyphs ts = ts.map TypeExpr.glyphs :=
  eq_map_of_cons rfl (fun _ _ => rfl) ts

theorem parametersGlyphs_eq (ps : List Parameter) : parametersGlyphs ps = ps.map Parameter.glyphs :=
  eq_map_of_cons rfl (fun _ _ => rfl) ps

theorem firstsGlyphs_eq (ps : List TypePart) :
    firstsGlyphs ps = ps.flatMap fun p => p.glyphs ++ [Glyph.of "or"] := by
  induction ps with
  | nil => rfl
  | cons p ps ih =>
    rw [firstsGlyphs, ih, List.flatMap_cons, List.append_assoc, List.singleton_append]

theorem settledParts_eq (ps : List TypePart) : settledParts ps = ps.map TypePart.settled :=
  eq_map_of_cons rfl (fun _ _ => rfl) ps

theorem settledTypes_eq (ts : List TypeExpr) : settledTypes ts = ts.map TypeExpr.settled :=
  eq_map_of_cons rfl (fun _ _ => rfl) ts

theorem settledParameters_eq (ps : List Parameter) :
    settledParameters ps = ps.map Parameter.settled :=
  eq_map_of_cons rfl (fun _ _ => rfl) ps

/-! ## Induction -/

/-- The types right inside a parameter. -/
def Parameter.nested : Parameter → List TypeExpr
  | .plain _ _ => []
  | .typed _ _ type _ => [type]

/-- The types right inside a result. -/
def TypeResult.nested : TypeResult → List TypeExpr
  | .none => []
  | .typed type _ => [type]

/-- The types right inside an alternative. -/
def TypePart.nested : TypePart → List TypeExpr
  | .named _ generics _ => generics
  | .callable _ params result _ _ => params.flatMap Parameter.nested ++ result.nested

/-- The alternatives of a type, each with whether it carries a question mark. -/
def TypeExpr.parts : TypeExpr → List (TypePart × Bool)
  | .mk firsts last nullable _ => firsts.map (·, false) ++ [(last, nullable)]

theorem Parameter.sizeOf_lt_of_mem {p : Parameter} {t : TypeExpr} (h : t ∈ p.nested) :
    sizeOf t < sizeOf p := by
  cases p with
  | plain name span => cases h
  | typed name first type span =>
    obtain rfl := List.mem_singleton.1 h
    simp only [Parameter.typed.sizeOf_spec]
    omega

theorem TypePart.sizeOf_lt_of_mem {p : TypePart} {t : TypeExpr} (h : t ∈ p.nested) :
    sizeOf t < sizeOf p := by
  cases p with
  | named name generics span =>
    have hlt := List.sizeOf_lt_of_mem (show t ∈ generics from h)
    simp only [TypePart.named.sizeOf_spec]
    omega
  | callable word params result call span =>
    simp only [TypePart.callable.sizeOf_spec]
    rcases List.mem_append.1 h with h | h
    · obtain ⟨p, hp, ht⟩ := List.mem_flatMap.1 h
      have hlt := List.sizeOf_lt_of_mem hp
      have hlt' := Parameter.sizeOf_lt_of_mem ht
      omega
    · cases result with
      | none => cases h
      | typed type span =>
        obtain rfl := List.mem_singleton.1 h
        simp only [TypeResult.typed.sizeOf_spec]
        omega

theorem TypeExpr.sizeOf_lt_of_mem {t : TypeExpr} {p : TypePart × Bool} (h : p ∈ t.parts) :
    sizeOf p.1 < sizeOf t := by
  obtain ⟨firsts, last, nullable, span⟩ := t
  simp only [TypeExpr.mk.sizeOf_spec]
  rcases List.mem_append.1 h with h | h
  · obtain ⟨q, hq, rfl⟩ := List.mem_map.1 h
    have hlt := List.sizeOf_lt_of_mem hq
    dsimp only
    omega
  · obtain rfl := List.mem_singleton.1 h
    dsimp only
    omega

/-- Induction over types: each may use what holds of the types right inside its alternatives. -/
theorem TypeExpr.induct {P : TypeExpr → Prop}
    (h : ∀ t : TypeExpr, (∀ p ∈ t.parts, ∀ u ∈ p.1.nested, P u) → P t) (t : TypeExpr) : P t :=
  h t fun p hp u hu =>
    have hlt := TypePart.sizeOf_lt_of_mem hu
    have hlt' := TypeExpr.sizeOf_lt_of_mem hp
    have : sizeOf u < sizeOf t := Nat.lt_trans hlt hlt'
    TypeExpr.induct h u
termination_by sizeOf t

/-- A question mark is the last field of an alternative. -/
theorem TypePart.node_eq (p : TypePart) : ∃ span fields,
    (∀ nullable, p.node nullable = ⟨"TypeSpecPart", span, fields ++ nullableFields nullable⟩) ∧
      ∀ name ∈ fields.map Prod.fst, name ≠ "nullable" := by
  cases p with
  | named name generics span => exact ⟨span, [_, _], fun _ => rfl, by simp⟩
  | callable word params result call span => exact ⟨span, [_, _], fun _ => rfl, by simp⟩

/-- The nodes of the alternatives of a type. -/
theorem TypeExpr.node_eq (t : TypeExpr) : ∃ span, t.node = ⟨"TypeSpecList", span,
    [("ts", nodes (t.parts.map fun p => p.1.node p.2))]⟩ := by
  obtain ⟨firsts, last, nullable, span⟩ := t
  refine ⟨span, ?_⟩
  rw [TypeExpr.node, partNodes_eq, TypeExpr.parts, List.map_append, List.map_map]
  rfl

/-! ## Making parentheses explicit -/

namespace Parentheses

theorem explicitFields_eq_self {parent : Node} {keys : List String} {fs : Fields}
    (h : ∀ f ∈ fs, (explicitValue parent f.1 f.2).result = f.2) :
    (explicitFields parent keys fs).result = fs := by
  induction fs with
  | nil => rfl
  | cons f fs ih =>
    rw [List.forall_mem_cons] at h
    rw [explicitFields_cons, ih h.2, h.1, ite_self]

/-- A node stays as it is if it holds no statements and its fields stay as they are. -/
theorem made_eq_self {kind : String} {span : Span} {fields : Fields}
    (hbody : bodyFields kind = [])
    (h : ∀ f ∈ fields, (explicitValue ⟨kind, span, fields⟩ f.1 f.2).result = f.2) :
    made ⟨kind, span, fields⟩ = ⟨kind, span, fields⟩ := by
  rw [made_eq hbody, explicitFields_eq_self h]

theorem explicitValue_nodes_eq_self {parent : Node} {key : String} {ns : List Node}
    (h : ∀ n ∈ ns, made n = n) : (explicitValue parent key (nodes ns)).result = nodes ns := by
  rw [nodes, explicitValue_nodes, List.map_congr_left h, List.map_id']

theorem explicitValue_node_eq_self {kind key : String} {span : Span} {fields : Fields} {n : Node}
    (h : made n = n) (hkind : kind ∉ wrappingKinds) :
    (explicitValue ⟨kind, span, fields⟩ key (.node n)).result = .node n := by
  rw [explicitValue_node, madeUnder_of_parent hkind, h]

theorem made_parameter {p : Parameter} (h : ∀ t ∈ p.nested, made t.node = t.node) :
    made p.node = p.node := by
  cases p with
  | plain name span => rfl
  | typed name first type span =>
    have hname := madeUnder_of_quiet (made_name name first) (kind_dottedName (.name name first))
      (Joint.cast.apply span (name.node first) type.node) "left"
    rw [Parameter.node, made_apply (List.mem_cons_of_mem _ List.mem_cons_self), hname, madeUnder,
      needed_right_of_cast, h type (List.mem_singleton_self _)]
    rfl

theorem made_typeResult {r : TypeResult} (h : ∀ t ∈ r.nested, made t.node = t.node) :
    ∀ n ∈ r.node?, made n = n := by
  cases r with
  | none => rintro n ⟨⟩
  | typed type span =>
    rintro n ⟨⟩
    refine made_eq_self rfl ?_
    simp only [List.forall_mem_cons]
    exact ⟨rfl, explicitValue_node_eq_self (h type (List.mem_singleton_self _)) (by decide), rfl,
      by simp⟩

theorem made_typePart {p : TypePart} (h : ∀ t ∈ p.nested, made t.node = t.node) (nullable : Bool) :
    made (p.node nullable) = p.node nullable := by
  have hmark (parent : Node) : ∀ f ∈ nullableFields nullable,
      (explicitValue parent f.1 f.2).result = f.2 := by
    cases nullable <;> simp [nullableFields, explicitValue]
  cases p with
  | named name generics span =>
    refine made_eq_self rfl ?_
    simp only [List.forall_mem_cons]
    refine ⟨explicitValue_node_eq_self (made_dottedName name) (by decide), ?_, hmark _⟩
    rw [someNodes, typeNodes_eq]
    split
    · rfl
    · exact explicitValue_nodes_eq_self (List.forall_mem_map.2 h)
  | callable word params result call span =>
    have hparams : ∀ p ∈ params, made p.node = p.node := fun p hp => made_parameter fun t ht =>
      h t (List.mem_append_left _ (List.mem_flatMap.2 ⟨p, hp, ht⟩))
    have hresult := made_typeResult fun t ht => h t (List.mem_append_right _ ht)
    refine made_eq_self rfl ?_
    simp only [List.forall_mem_cons]
    refine ⟨rfl, explicitValue_node_eq_self (made_eq_self rfl ?_) (by decide), hmark _⟩
    simp only [List.forall_mem_cons, parameterNodes_eq]
    refine ⟨rfl, rfl, explicitValue_nodes_eq_self (List.forall_mem_map.2 hparams), ?_, by simp⟩
    cases hn : result.node? with
    | none => rfl
    | some n => exact explicitValue_node_eq_self (hresult n hn) (by decide)

/-- There are no parentheses to make explicit in a type. -/
theorem made_type (t : TypeExpr) : made t.node = t.node := by
  induction t using TypeExpr.induct with
  | h t ih =>
    obtain ⟨span, hnode⟩ := t.node_eq
    rw [hnode]
    refine made_eq_self rfl ?_
    simp only [List.forall_mem_cons]
    exact ⟨explicitValue_nodes_eq_self
      (List.forall_mem_map.2 fun p hp => made_typePart (ih p hp) _),
      by simp⟩

end Parentheses

end MonkeyFormat
