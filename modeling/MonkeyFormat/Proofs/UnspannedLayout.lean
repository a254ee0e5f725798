import MonkeyFormat.Proofs.Effects
import MonkeyFormat.Proofs.Shape
import MonkeyFormat.Proofs.UnspannedRules

set_option autoImplicit false

/-! # Layouts of trees without spans

A tree without comments in which the layout finds nothing to keep is laid out as if there were no
source, wherever its nodes stand in it. The induction is on the fuel, and a step of it is one case
for each kind of node. -/

namespace MonkeyFormat

theorem Value.Fits.unspanned_suffix {P : Node → Prop} {v : Value}
    (h : Value.Fits P .suffix v) : v.unspanned = v := by
  cases h with
  | suffix h => rfl
  | noSuffix => rfl

namespace Layout

/-- The layout finds nothing in the source that it would keep: no blank line behind the node, and
in a dictionary no line break before the first entry. -/
structure Calm (cx : Context) (n : Node) : Prop where
  after : blankLineAfter cx (.node n) = .ok false
  entries : n.kind = "ObjectExpression" → (n.get "properties").truthy = true →
    isExpanded cx n = .ok false

/-- Trees in which the layout finds nothing to keep are laid out with this fuel as if there were no
source, and wherever they stand in it. -/
def Placeless (cx : Context) (fuel : Nat) : Prop :=
  ∀ (n : Node) (above : List (Step × Value)), n.Shaped (Calm cx) →
    tree cx fuel ⟨.node n, above⟩ = tree cx.free fuel (Cursor.unspanned ⟨.node n, above⟩)

section Children

variable {cx : Context} {fuel : Nat} {n : Node} {above : List (Step × Value)}

/-- A field that holds a node or nothing. -/
theorem Placeless.child (h : Placeless cx fuel) (name : String) {type : FieldType}
    (htype : type = .node ∨ type = .optional) (hfits : Value.Fits (Calm cx) type (n.get name)) :
    below cx fuel ⟨.node n, above⟩ name =
      below cx.free fuel (Cursor.unspanned ⟨.node n, above⟩) name := by
  change tree cx fuel ⟨n.get name, _⟩ = tree cx.free fuel (Cursor.field (Cursor.unspanned _) name)
  rw [Cursor.field_unspanned]
  change tree cx fuel ⟨n.get name, _⟩ = tree cx.free fuel (Cursor.unspanned ⟨n.get name, _⟩)
  generalize n.get name = v at hfits
  cases hfits with
  | node hm => exact h _ _ hm
  | some hm => exact h _ _ hm
  | none =>
    cases fuel with
    | zero => rfl
    | succ fuel => rfl
  | _ => simp at htype

theorem Placeless.element (h : Placeless cx fuel) (name : String) {type : FieldType}
    (htype : type = .nodes ∨ type = .types) (hfits : Value.Fits (Calm cx) type (n.get name)) :
    eachOf (below cx fuel) ⟨.node n, above⟩ name =
      eachOf (below cx.free fuel) (Cursor.unspanned ⟨.node n, above⟩) name := by
  unfold eachOf
  rw [Cursor.field_unspanned, Cursor.elements_unspanned]
  change (liftM (Cursor.elements ⟨n.get name, _⟩) >>= _) =
    (liftM (Except.map _ (Cursor.elements ⟨n.get name, _⟩)) >>= _)
  have hitems (ns : List Node) (hns : ∀ m ∈ ns, m.Shaped (Calm cx)) :
      ∀ e ∈ itemCursors (.list (ns.map .node)) ((.field name, .node n) :: above) 0 (ns.map .node),
        below cx fuel e none = below cx.free fuel e.unspanned none := by
    intro e he
    simp only [itemCursors, List.mem_map, Prod.exists] at he
    obtain ⟨v, i, hv, rfl⟩ := he
    obtain ⟨m, hm, rfl⟩ := List.mem_map.1 (List.fst_mem_of_mem_zipIdx hv)
    exact h _ _ (hns m hm)
  generalize n.get name = v at hfits
  cases hfits with
  | nodes hns =>
    rw [elements_list]
    exact mapM_congr_map (hitems _ hns)
  | types hns =>
    rw [elements_list]
    exact mapM_congr_map (hitems _ hns)
  | noTypes => rfl
  | _ => simp at htype

theorem Placeless.statements (h : Placeless cx fuel) (name : String)
    (hfits : Value.Fits (Calm cx) .nodes (n.get name)) :
    statements cx (below cx fuel) ⟨.node n, above⟩ n name =
      statements cx.free (below cx.free fuel) (Cursor.unspanned ⟨.node n, above⟩) n.unspanned
        name := by
  generalize hget : n.get name = v at hfits
  cases hfits with
  | nodes hns =>
    have hget' : n.unspanned.get name = (Value.list _).unspanned :=
      (n.get_unspanned name).trans (congrArg Value.unspanned hget)
    rw [Value.unspanned_list] at hget'
    rw [statements_eq cx _ hget, Cursor.unspanned_mk, Value.unspanned_node,
      statements_eq cx.free _ hget', ← Value.unspanned_list]
    change _ = (((itemCursors (Value.list _).unspanned
      (List.map (fun s => (s.1, s.2.unspanned)) ((.field name, .node n) :: above)) 0 _).zipIdx.mapM
        _) >>= _)
    rw [itemCursors_unspanned, List.zipIdx_map]
    simp only [List.length_map]
    congr 1
    refine mapM_congr_map (u := Prod.map Cursor.unspanned id) fun e he => ?_
    obtain ⟨e, i⟩ := e
    have hmem := List.fst_mem_of_mem_zipIdx he
    simp only [itemCursors, List.mem_map, Prod.exists] at hmem
    obtain ⟨v, j, hv, rfl⟩ := hmem
    obtain ⟨m, hm, rfl⟩ := List.mem_map.1 (List.fst_mem_of_mem_zipIdx hv)
    apply bodyPart_unspanned
    · exact h m _ (hns m hm)
    · exact (hns m hm).here.after

end Children

/-! ## Chains -/

section Chains

variable {cx : Context} {fuel : Nat} {n : Node} {above : List (Step × Value)}

theorem isBinaryish_iff {v : Value} : isBinaryish v = true ↔
    ∃ n, v = .node n ∧ (n.kind = "BinaryExpression" ∨ n.kind = "LogicalExpression") := by
  cases v with
  | node n => simp [isBinaryish]
  | _ => simp [isBinaryish]

theorem kind_of_chainsLeft {l : Node} (hl : n.get "left" = .node l) (h : chainsLeft n = true) :
    l.kind = "BinaryExpression" ∨ l.kind = "LogicalExpression" := by
  unfold chainsLeft at h
  rw [hl, Bool.and_eq_true] at h
  obtain ⟨m, hm, hkind⟩ := isBinaryish_iff.1 h.1
  cases hm
  exact hkind

theorem fieldTypes_binary {kind : String}
    (h : kind = "BinaryExpression" ∨ kind = "LogicalExpression") :
    fieldTypes? kind = some [("operator", .text), ("left", .node), ("right", .node)] := by
  rcases h with rfl | rfl
  · rfl
  · rfl

/-- A chain is laid out alike down to its innermost operand. -/
theorem chain_unspanned (hcx : cx.attached = []) (h : Placeless cx fuel)
    (hkind : n.kind = "BinaryExpression" ∨ n.kind = "LogicalExpression")
    (hn : n.Shaped (Calm cx)) (links : Nat) (nested : Bool) :
    chain cx (below cx fuel) links nested ⟨.node n, above⟩ n =
      chain cx.free (below cx.free fuel) links nested (Cursor.unspanned ⟨.node n, above⟩)
        n.unspanned := by
  induction links generalizing n above nested with
  | zero => rfl
  | succ links ih =>
    have hknown := fieldTypes_binary hkind
    have hleft : Agree (below cx fuel) (below cx.free fuel) ⟨.node n, above⟩ "left" :=
      h.child "left" (.inl rfl) (hn.get hknown (by simp))
    have hright : Agree (below cx fuel) (below cx.free fuel) ⟨.node n, above⟩ "right" :=
      h.child "right" (.inl rfl) (hn.get hknown (by simp))
    obtain ⟨l, hl, hshaped⟩ := (hn.get hknown (show ("left", .node) ∈ _ by simp)).eq_node
    obtain ⟨s, hs⟩ := (hn.get hknown (show ("operator", .text) ∈ _ by simp)).eq_str
    have hbelow : chainsLeft n = true → (chain cx (below cx fuel) links true
          (Cursor.field ⟨.node n, above⟩ "left") l =
        chain cx.free (below cx.free fuel) links true
          (Cursor.field (Cursor.unspanned ⟨.node n, above⟩) "left") l.unspanned) := by
      intro hchains
      have hkind := kind_of_chainsLeft hl hchains
      rw [Cursor.field_unspanned, Cursor.field_eq hl]
      exact ih hkind hshaped true
    have hsame : isKind n.kind (.node l.unspanned) = isKind n.kind (.node l) :=
      isKind_unspanned _ (.node l)
    have hparent := Cursor.parent_unspanned ⟨.node n, above⟩
    simp only [chain, Node.get_unspanned, hl, hs, Value.unspanned_node, Value.unspanned_str,
      chainsLeft_unspanned, inlinesRight_unspanned, hleft, hright, own_of_nil hcx, own_free,
      Node.kind_unspanned, isKind_unspanned, hparent, hsame, withComments_nil]
    by_cases hchains : chainsLeft n = true
    · rw [if_pos hchains, if_pos hchains, hbelow hchains]
      cases Cursor.parent ⟨.node n, above⟩ with
      | none => rfl
      | some p => simp only [Option.map_some, Node.kind_unspanned]
    · rw [if_neg hchains, if_neg hchains]
      cases Cursor.parent ⟨.node n, above⟩ with
      | none => rfl
      | some p => simp only [Option.map_some, Node.kind_unspanned]

theorem binaryExpression_unspanned (hcx : cx.attached = []) (h : Placeless cx fuel)
    (hkind : n.kind = "BinaryExpression" ∨ n.kind = "LogicalExpression")
    (hn : n.Shaped (Calm cx)) :
    binaryExpression cx (below cx fuel) ⟨.node n, above⟩ n =
      binaryExpression cx.free (below cx.free fuel) (Cursor.unspanned ⟨.node n, above⟩)
        n.unspanned := by
  unfold binaryExpression
  rw [Node.depth_unspanned, ← chain_unspanned hcx h hkind hn, Cursor.ancestors_unspanned]
  cases Cursor.ancestors ⟨.node n, above⟩ with
  | nil => rfl
  | cons parent above =>
    simp only [List.map_cons, List.head?_map, Node.kind_unspanned, Cursor.key_unspanned,
      Cursor.index_unspanned, inlinesRight_unspanned, chainsLeft_unspanned, breaksFlush_unspanned]

end Chains

/-! ## All rules -/

section All

variable {cx : Context} {fuel : Nat} {n : Node} {above : List (Step × Value)}

/-- The callbacks agree on the fields of a node that has the given ones. -/
structure Agreement (cx : Context) (fuel : Nat) (n : Node) (above : List (Step × Value))
    (types : List (String × FieldType)) : Prop where
  child : ∀ name, (name, .node) ∈ types ∨ (name, .optional) ∈ types →
    Agree (below cx fuel) (below cx.free fuel) ⟨.node n, above⟩ name
  each : ∀ name, (name, .nodes) ∈ types ∨ (name, .types) ∈ types →
    AgreeEach (below cx fuel) (below cx.free fuel) ⟨.node n, above⟩ name
  statements : ∀ name, (name, .nodes) ∈ types →
    AgreeStatements cx (below cx fuel) (below cx.free fuel) ⟨.node n, above⟩ n name
  sole : ∀ name, (name, .nodes) ∈ types → ∀ e,
    (Cursor.field ⟨.node n, above⟩ name).down (.index 0) = .ok e →
      below cx fuel e none = below cx.free fuel e.unspanned none

theorem Placeless.agreement (h : Placeless cx fuel) (hn : n.Shaped (Calm cx)) {kind : String}
    {types : List (String × FieldType)} (hkind : n.kind = kind)
    (known : fieldTypes? kind = some types) : Agreement cx fuel n above types := by
  subst hkind
  refine ⟨fun name hname => ?_, fun name hname => ?_, fun name hname => ?_,
    fun name hname e he => ?_⟩
  · rcases hname with hname | hname
    · exact h.child name (.inl rfl) (hn.get known hname)
    · exact h.child name (.inr rfl) (hn.get known hname)
  · rcases hname with hname | hname
    · exact h.element name (.inl rfl) (hn.get known hname)
    · exact h.element name (.inr rfl) (hn.get known hname)
  · exact h.statements name (hn.get known hname)
  · obtain ⟨ns, hns, hshaped⟩ := (hn.get known hname).eq_nodes
    obtain ⟨v, hv, he⟩ := bind_eq_ok he
    cases he
    change (n.get name).child (.index 0) = .ok v at hv
    rw [hns, Value.child] at hv
    obtain ⟨m, hm, rfl⟩ := List.mem_map.1 (mem_of_pickAt hv)
    exact h m _ (hshaped m hm)

theorem known_of {kind : String} {types : List (String × FieldType)} (hkind : n.kind = kind)
    (known : fieldTypes? kind = some types) : fieldTypes? n.kind = some types := by
  rw [hkind, known]

/-- The node is laid out by its rule as if there were no source. -/
def Rewrites (cx : Context) (fuel : Nat) (n : Node) (above : List (Step × Value)) : Prop :=
  monkeyRule cx (below cx fuel) ⟨.node n, above⟩ n (snake n.kind) =
    monkeyRule cx.free (below cx.free fuel) (Cursor.unspanned ⟨.node n, above⟩) n.unspanned
      (snake n.kind)

theorem Rewrites.of_rule {kind : String} (rule : String) (hkind : n.kind = kind)
    (hmem : (kind, rule) ∈ ruleNames)
    (h : monkeyRule cx (below cx fuel) ⟨.node n, above⟩ n rule =
      monkeyRule cx.free (below cx.free fuel) (Cursor.unspanned ⟨.node n, above⟩) n.unspanned
        rule) : Rewrites cx fuel n above := by
  unfold Rewrites
  rw [hkind, snake_of_mem hmem]
  exact h

theorem Rewrites.of_generic {kind : String} (rule : String) (hkind : n.kind = kind)
    (hmem : (kind, rule) ∈ ruleNames)
    (hmonkey : ∀ cx child c n, monkeyRule cx child c n rule = generic cx child c)
    (h : genericRule cx (below cx fuel) ⟨.node n, above⟩ n rule =
      genericRule cx.free (below cx.free fuel) (Cursor.unspanned ⟨.node n, above⟩) n.unspanned
        rule) : Rewrites cx fuel n above := by
  have hrule : snake n.kind = rule := by rw [hkind, snake_of_mem hmem]
  refine .of_rule rule hkind hmem ?_
  rw [hmonkey, hmonkey]
  exact generic_unspanned rule hrule h

theorem Rewrites.of_attributed {kind : String} (rule : String) (hkind : n.kind = kind)
    (hmem : (kind, rule) ∈ ruleNames)
    (hmonkey : ∀ cx child c n, monkeyRule cx child c n rule = attributed cx child c n)
    (hattrs : Agree (below cx fuel) (below cx.free fuel) ⟨.node n, above⟩ "attrs")
    (h : genericRule cx (below cx fuel) ⟨.node n, above⟩ n rule =
      genericRule cx.free (below cx.free fuel) (Cursor.unspanned ⟨.node n, above⟩) n.unspanned
        rule) : Rewrites cx fuel n above := by
  have hrule : snake n.kind = rule := by rw [hkind, snake_of_mem hmem]
  refine .of_rule rule hkind hmem ?_
  rw [hmonkey, hmonkey]
  exact attributed_unspanned hattrs (generic_unspanned rule hrule h)

theorem rewrites_declaration (hcx : cx.attached = []) (h : Placeless cx fuel)
    (hn : n.Shaped (Calm cx)) (hkind : n.kind ∈ declarationKinds) : Rewrites cx fuel n above := by
  simp only [declarationKinds, List.mem_cons, List.not_mem_nil, or_false] at hkind
  rcases hkind with hkind | hkind | hkind | hkind | hkind | hkind | hkind | hkind | hkind | hkind
    | hkind | hkind | hkind | hkind | hkind | hkind | hkind
  · have p : Agreement cx fuel n above _ := h.agreement hn hkind rfl
    exact .of_generic "program" hkind (by decide) (fun _ _ _ _ => rfl)
      (program_unspanned hcx (p.statements "body" (by simp)))
  · have p : Agreement cx fuel n above _ := h.agreement hn hkind rfl
    exact .of_rule "module_declaration" hkind (by decide)
      (moduleDeclaration_unspanned (p.child "attrs" (by simp)) (p.child "id" (by simp))
        (p.child "body" (by simp)))
  · have p : Agreement cx fuel n above _ := h.agreement hn hkind rfl
    exact .of_attributed "class_declaration" hkind (by decide) (fun _ _ _ _ => rfl)
      (p.child "attrs" (by simp))
      (classDeclaration_unspanned (p.child "id" (by simp)) (p.child "superClass" (by simp))
        (p.child "body" (by simp)))
  · have p : Agreement cx fuel n above _ := h.agreement hn hkind rfl
    exact .of_generic "class_body" hkind (by decide) (fun _ _ _ _ => rfl)
      (bracedBody_unspanned hcx (p.statements "body" (by simp)))
  · have p : Agreement cx fuel n above _ := h.agreement hn hkind rfl
    exact .of_rule "class_element" hkind (by decide)
      (p.child "item" (by simp))
  · have p : Agreement cx fuel n above _ := h.agreement hn hkind rfl
    exact .of_attributed "function_declaration" hkind (by decide) (fun _ _ _ _ => rfl)
      (p.child "attrs" (by simp))
      (functionDeclaration_unspanned (p.each "params" (by simp)) (p.child "returnType" (by simp))
        (p.child "id" (by simp)) (p.child "body" (by simp)))
  · have p : Agreement cx fuel n above _ := h.agreement hn hkind rfl
    obtain ⟨s, ht⟩ := (hn.get (known_of hkind rfl) (show ("key", .text) ∈ _ by simp)).eq_str
    exact .of_generic "method_definition" hkind (by decide) (fun _ _ _ _ => rfl)
      (methodDefinition_unspanned (p.each "params" (by simp)) (p.child "returnType" (by simp)) ht)
  · have p : Agreement cx fuel n above _ := h.agreement hn hkind rfl
    obtain ⟨s, ht⟩ := (hn.get (known_of hkind rfl) (show ("kind", .text) ∈ _ by simp)).eq_str
    exact .of_attributed "variable_declaration" hkind (by decide) (fun _ _ _ _ => rfl)
      (p.child "attrs" (by simp))
      (variableDeclaration_unspanned (p.each "declarations" (by simp)) ht)
  · have p : Agreement cx fuel n above _ := h.agreement hn hkind rfl
    exact .of_generic "variable_declarator" hkind (by decide) (fun _ _ _ _ => rfl)
      (initialized_unspanned (p.child "id" (by simp)) (p.child "init" (by simp)))
  · have p : Agreement cx fuel n above _ := h.agreement hn hkind rfl
    exact .of_rule "enum_declaration" hkind (by decide)
      (enumDeclaration_unspanned (p.child "attrs" (by simp)) (p.child "id" (by simp))
        (p.child "body" (by simp)))
  · have p : Agreement cx fuel n above _ := h.agreement hn hkind rfl
    exact .of_generic "enum_string_body" hkind (by decide) (fun _ _ _ _ => rfl)
      (enumBody_unspanned hcx (p.each "members" (by simp)))
  · have p : Agreement cx fuel n above _ := h.agreement hn hkind rfl
    exact .of_generic "enum_string_member" hkind (by decide) (fun _ _ _ _ => rfl)
      (initialized_unspanned (p.child "id" (by simp)) (p.child "init" (by simp)))
  · have p : Agreement cx fuel n above _ := h.agreement hn hkind rfl
    exact .of_rule "typedef_declaration" hkind (by decide)
      (typedefDeclaration_unspanned (p.child "attrs" (by simp)) (p.child "id" (by simp))
        (p.child "ts" (by simp)))
  · have p : Agreement cx fuel n above _ := h.agreement hn hkind rfl
    exact .of_rule "import_module" hkind (by decide)
      (importModule_unspanned (p.child "id" (by simp)))
  · have p : Agreement cx fuel n above _ := h.agreement hn hkind rfl
    exact .of_rule "using" hkind (by decide)
      (usingImport_unspanned (p.child "id" (by simp)) (p.child "as" (by simp)))
  · have p : Agreement cx fuel n above _ := h.agreement hn hkind rfl
    exact .of_rule "attribute_list" hkind (by decide)
      (attributeList_unspanned (p.child "attributes" (by simp)))
  · have p : Agreement cx fuel n above _ := h.agreement hn hkind rfl
    exact .of_rule "attributes" hkind (by decide)
      (attributes_unspanned (p.each "elements" (by simp)))

theorem rewrites_statement (hcx : cx.attached = []) (h : Placeless cx fuel)
    (hn : n.Shaped (Calm cx)) (hkind : n.kind ∈ statementKinds) : Rewrites cx fuel n above := by
  simp only [statementKinds, List.mem_cons, List.not_mem_nil, or_false] at hkind
  rcases hkind with hkind | hkind | hkind | hkind | hkind | hkind | hkind | hkind | hkind | hkind
    | hkind | hkind | hkind | hkind | hkind | hkind
  · have p : Agreement cx fuel n above _ := h.agreement hn hkind rfl
    exact .of_generic "block_statement" hkind (by decide) (fun _ _ _ _ => rfl)
      (bracedBody_unspanned hcx (p.statements "body" (by simp)))
  · have p : Agreement cx fuel n above _ := h.agreement hn hkind rfl
    exact .of_generic "expression_statement" hkind (by decide) (fun _ _ _ _ => rfl)
      (Agree.bind (p.child "expression" (by simp)) _)
  · have p : Agreement cx fuel n above _ := h.agreement hn hkind rfl
    exact .of_generic "if_statement" hkind (by decide) (fun _ _ _ _ => rfl)
      (ifStatement_unspanned (p.child "test" (by simp)) (p.child "consequent" (by simp))
        (p.child "alternate" (by simp)))
  · have p : Agreement cx fuel n above _ := h.agreement hn hkind rfl
    exact .of_generic "while_statement" hkind (by decide) (fun _ _ _ _ => rfl)
      (whileStatement_unspanned (p.child "test" (by simp)) (p.child "body" (by simp)))
  · have p : Agreement cx fuel n above _ := h.agreement hn hkind rfl
    exact .of_generic "do_while_statement" hkind (by decide) (fun _ _ _ _ => rfl)
      (doStatement_unspanned (p.child "test" (by simp)) (p.child "body" (by simp)))
  · have p : Agreement cx fuel n above _ := h.agreement hn hkind rfl
    exact .of_generic "for_statement" hkind (by decide) (fun _ _ _ _ => rfl)
      (forStatement_unspanned (p.child "init" (by simp)) (p.child "test" (by simp))
        (p.child "update" (by simp)) (p.child "body" (by simp)))
  · have p : Agreement cx fuel n above _ := h.agreement hn hkind rfl
    exact .of_generic "switch_statement" hkind (by decide) (fun _ _ _ _ => rfl)
      (switchStatement_unspanned hcx (p.child "discriminant" (by simp))
        (p.statements "cases" (by simp)))
  · have p : Agreement cx fuel n above _ := h.agreement hn hkind rfl
    refine .of_generic "switch_case" hkind (by decide) (fun _ _ _ _ => rfl) ?_
    exact switchCase_unspanned (p.child "test" (by simp)) (p.statements "consequent" (by simp))
      (p.sole "consequent" (by simp))
  · have p : Agreement cx fuel n above _ := h.agreement hn hkind rfl
    exact .of_rule "instance_of_case" hkind (by decide) (Agree.bind (p.child "id" (by simp)) _)
  · have p : Agreement cx fuel n above _ := h.agreement hn hkind rfl
    exact .of_generic "try_statement" hkind (by decide) (fun _ _ _ _ => rfl)
      (tryStatement_unspanned (p.child "block" (by simp)) (p.child "handler" (by simp))
        (p.child "finalizer" (by simp)))
  · have p : Agreement cx fuel n above _ := h.agreement hn hkind rfl
    exact .of_rule "catch_clauses" hkind (by decide) (AgreeEach.bind (p.each "catches" (by simp)) _)
  · have p : Agreement cx fuel n above _ := h.agreement hn hkind rfl
    exact .of_generic "catch_clause" hkind (by decide) (fun _ _ _ _ => rfl)
      (catchClause_unspanned (p.child "param" (by simp)) (p.child "body" (by simp)))
  · have p : Agreement cx fuel n above _ := h.agreement hn hkind rfl
    exact .of_generic "return_statement" hkind (by decide) (fun _ _ _ _ => rfl)
      (returnStatement_unspanned (p.child "argument" (by simp)))
  · have p : Agreement cx fuel n above _ := h.agreement hn hkind rfl
    exact .of_generic "throw_statement" hkind (by decide) (fun _ _ _ _ => rfl)
      (Agree.bind (p.child "argument" (by simp)) _)
  · exact .of_generic "break_statement" hkind (by decide) (fun _ _ _ _ => rfl)
      (show (pure (.bare "break;") : Layout Doc) = pure (.bare "break;") from rfl)
  · exact .of_generic "continue_statement" hkind (by decide) (fun _ _ _ _ => rfl)
      (show (pure (.bare "continue;") : Layout Doc) = pure (.bare "continue;") from rfl)

theorem rewrites_expression (hcx : cx.attached = []) (h : Placeless cx fuel)
    (hn : n.Shaped (Calm cx)) (hkind : n.kind ∈ expressionKinds) : Rewrites cx fuel n above := by
  simp only [expressionKinds, List.mem_cons, List.not_mem_nil, or_false] at hkind
  rcases hkind with hkind | hkind | hkind | hkind | hkind | hkind | hkind | hkind | hkind | hkind
    | hkind | hkind | hkind | hkind | hkind | hkind | hkind | hkind | hkind | hkind
  · refine .of_rule "identifier" hkind (by decide) ?_
    obtain ⟨s, hs⟩ := (hn.get (known_of hkind rfl) (show ("name", .text) ∈ _ by simp)).eq_str
    exact congrArg pure (identifier_unspanned hs
      (hn.get (known_of hkind rfl) (show ("original", .absent) ∈ _ by simp)).eq_null)
  · refine .of_rule "literal" hkind (by decide) ?_
    obtain ⟨s, hs, hne⟩ := (hn.get (known_of hkind rfl) (show ("raw", .raw) ∈ _ by simp)).eq_raw
    exact monkeyLiteral_unspanned hs
      (generic_unspanned "literal" (snake_of_mem (by rw [hkind]; decide))
        (literal_unspanned hs hne))
  · obtain ⟨s, ht⟩ := (hn.get (known_of hkind rfl) (show ("text", .text) ∈ _ by simp)).eq_str
    exact .of_rule "this_expression" hkind (by decide)
      (congrArg pure (fieldOr_unspanned (by rw [ht]; rfl) "self"))
  · have p : Agreement cx fuel n above _ := h.agreement hn hkind rfl
    obtain ⟨s, ht⟩ := (hn.get (known_of hkind rfl) (show ("operator", .text) ∈ _ by simp)).eq_str
    exact .of_generic "unary_expression" hkind (by decide) (fun _ _ _ _ => rfl)
      (unaryExpression_unspanned (p.child "argument" (by simp)) ht)
  · have p : Agreement cx fuel n above _ := h.agreement hn hkind rfl
    obtain ⟨s, ht⟩ := (hn.get (known_of hkind rfl) (show ("operator", .text) ∈ _ by simp)).eq_str
    exact .of_generic "update_expression" hkind (by decide) (fun _ _ _ _ => rfl)
      (updateExpression_unspanned (p.child "argument" (by simp)) ht)
  · exact .of_generic "binary_expression" hkind (by decide) (fun _ _ _ _ => rfl)
      (binaryExpression_unspanned hcx h (.inl hkind) hn)
  · exact .of_generic "logical_expression" hkind (by decide) (fun _ _ _ _ => rfl)
      (binaryExpression_unspanned hcx h (.inr hkind) hn)
  · have p : Agreement cx fuel n above _ := h.agreement hn hkind rfl
    obtain ⟨s, ht⟩ := (hn.get (known_of hkind rfl) (show ("operator", .text) ∈ _ by simp)).eq_str
    exact .of_generic "assignment_expression" hkind (by decide) (fun _ _ _ _ => rfl)
      (assignmentExpression_unspanned (p.child "left" (by simp)) (p.child "right" (by simp)) ht)
  · have p : Agreement cx fuel n above _ := h.agreement hn hkind rfl
    exact .of_generic "member_expression" hkind (by decide) (fun _ _ _ _ => rfl)
      (memberExpression_unspanned (p.child "object" (by simp)) (p.child "property" (by simp)))
  · have p : Agreement cx fuel n above _ := h.agreement hn hkind rfl
    exact .of_generic "call_expression" hkind (by decide) (fun _ _ _ _ => rfl)
      (call_unspanned hcx (p.child "callee" (by simp)) (p.each "arguments" (by simp)) _)
  · have p : Agreement cx fuel n above _ := h.agreement hn hkind rfl
    exact .of_generic "new_expression" hkind (by decide) (fun _ _ _ _ => rfl)
      (call_unspanned hcx (p.child "callee" (by simp)) (p.each "arguments" (by simp)) _)
  · have p : Agreement cx fuel n above _ := h.agreement hn hkind rfl
    exact .of_generic "conditional_expression" hkind (by decide) (fun _ _ _ _ => rfl)
      (conditionalExpression_unspanned (p.child "test" (by simp)) (p.child "consequent" (by simp))
        (p.child "alternate" (by simp)))
  · have p : Agreement cx fuel n above _ := h.agreement hn hkind rfl
    exact .of_generic "sequence_expression" hkind (by decide) (fun _ _ _ _ => rfl)
      (AgreeEach.bind (p.each "expressions" (by simp)) _)
  · have p : Agreement cx fuel n above _ := h.agreement hn hkind rfl
    have hsuffix :=
      (hn.get (known_of hkind rfl) (show ("byte", .suffix) ∈ _ by simp)).unspanned_suffix
    obtain ⟨ns, hns, hshaped⟩ :=
      (hn.get (known_of hkind rfl) (show ("elements", .nodes) ∈ _ by simp)).eq_nodes
    have hblank : ∀ v ∈ ns.map Value.node, blankLineAfter cx v = .ok false := by
      intro v hv
      obtain ⟨m, hm, rfl⟩ := List.mem_map.1 hv
      exact (hshaped m hm).here.after
    exact .of_rule "array_expression" hkind (by decide) (suffixed_unspanned
      (generic_unspanned "array_expression" (snake_of_mem (by rw [hkind]; decide))
        (arrayExpression_unspanned hcx (p.each "elements" (by simp)) hns hblank)) hsuffix)
  · have p : Agreement cx fuel n above _ := h.agreement hn hkind rfl
    refine .of_rule "sized_array_expression" hkind (by decide) ?_
    exact sizedArray_unspanned (p.child "ts" (by simp)) (p.child "size" (by simp))
      (hn.get (known_of hkind rfl) (show ("byte", .suffix) ∈ _ by simp)).unspanned_suffix
  · have p : Agreement cx fuel n above _ := h.agreement hn hkind rfl
    exact .of_generic "object_expression" hkind (by decide) (fun _ _ _ _ => rfl)
      (objectExpression_unspanned hcx (p.each "properties" (by simp)) (hn.here.entries hkind))
  · have p : Agreement cx fuel n above _ := h.agreement hn hkind rfl
    exact .of_rule "property" hkind (by decide)
      (property_unspanned (p.child "key" (by simp)) (p.child "value" (by simp)))
  · have p : Agreement cx fuel n above _ := h.agreement hn hkind rfl
    refine .of_rule "parenthesized_expression" hkind (by decide) ?_
    have hexpression := p.child "expression" (by simp)
    refine parenthesizedExpression_unspanned hexpression ?_
    exact generic_unspanned "parenthesized_expression" (snake_of_mem (by rw [hkind]; decide))
      (Agree.bind hexpression _)
  · have p : Agreement cx fuel n above _ := h.agreement hn hkind rfl
    exact .of_rule "type_spec_list" hkind (by decide)
      (typeSpecList_unspanned (p.each "ts" (by simp)))
  · have p : Agreement cx fuel n above _ := h.agreement hn hkind rfl
    exact .of_rule "type_spec_part" hkind (by decide)
      (typeSpecPart_unspanned (p.child "name" (by simp)) (p.each "generics" (by simp))
        (p.child "callspec" (by simp)))

/-- One step down: every rule lays its node out alike if the callbacks lay out what is below. -/
theorem Placeless.rewrites (hcx : cx.attached = []) (h : Placeless cx fuel)
    (hn : n.Shaped (Calm cx)) : Rewrites cx fuel n above := by
  cases hn with
  | intro _ types known here fits number =>
    have hn : n.Shaped (Calm cx) := .intro n types known here fits number
    rcases kind_cases known with hkind | hkind | hkind
    · exact rewrites_declaration hcx h hn hkind
    · exact rewrites_statement hcx h hn hkind
    · exact rewrites_expression hcx h hn hkind

/-- Without comments, a tree in which the layout finds nothing to keep is laid out as if there were
no source, wherever it stands in it. -/
theorem placeless (hcx : cx.attached = []) (fuel : Nat) : Placeless cx fuel := by
  induction fuel with
  | zero =>
    intro n above hn
    rfl
  | succ fuel ih =>
    intro n above hn
    have hstep : Rewrites cx fuel n above := ih.rewrites hcx hn
    obtain ⟨kind, span, fields⟩ := n
    rw [tree_node hcx fuel kind _ rfl]
    exact hstep.trans (tree_node rfl fuel kind _ rfl {} _ _).symm

end All

end Layout

end MonkeyFormat
