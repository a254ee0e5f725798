import MonkeyFormat.Layout.Monkey
import MonkeyFormat.Proofs.Parsing

set_option autoImplicit false

/-! # Trees without spans

What a rule of the layout asks about a tree, places aside, has the same answer when all spans are
erased. -/

namespace MonkeyFormat

/-! ## Values and nodes -/

theorem itemsUnspanned_eq_map (vs : List Value) : itemsUnspanned vs = vs.map Value.unspanned := by
  induction vs with
  | nil => rfl
  | cons v vs ih => rw [itemsUnspanned, ih, List.map_cons]

theorem lookup_fieldsUnspanned (fs : Fields) (key : String) :
    (fieldsUnspanned fs).lookup key = (fs.lookup key).map Value.unspanned := by
  induction fs with
  | nil => rfl
  | cons f fs ih =>
    obtain ⟨k, v⟩ := f
    rw [fieldsUnspanned, List.lookup_cons, List.lookup_cons, ih]
    split
    · rfl
    · rfl

theorem names_fieldsUnspanned (fs : Fields) :
    (fieldsUnspanned fs).map Prod.fst = fs.map Prod.fst := by
  induction fs with
  | nil => rfl
  | cons f fs ih => rw [fieldsUnspanned, List.map_cons, ih, List.map_cons]

theorem length_fieldsUnspanned (fs : Fields) : (fieldsUnspanned fs).length = fs.length := by
  induction fs with
  | nil => rfl
  | cons f fs ih => rw [fieldsUnspanned, List.length_cons, List.length_cons, ih]

namespace Node

@[simp] theorem get_unspanned (n : Node) (key : String) :
    n.unspanned.get key = (n.get key).unspanned := by
  obtain ⟨kind, span, fields⟩ := n
  rw [unspanned, get, get, lookup_fieldsUnspanned]
  cases fields.lookup key with
  | none => rfl
  | some v => rfl

@[simp] theorem kind_unspanned (n : Node) : n.unspanned.kind = n.kind := by
  obtain ⟨kind, span, fields⟩ := n
  rfl

end Node

namespace Value

variable (v : Value)

@[simp] theorem unspanned_node (n : Node) : (node n).unspanned = node n.unspanned := rfl

@[simp] theorem unspanned_list (vs : List Value) :
    (list vs).unspanned = list (vs.map unspanned) := by
  rw [unspanned, itemsUnspanned_eq_map]

@[simp] theorem unspanned_str (s : String) : (str s).unspanned = str s := rfl

@[simp] theorem unspanned_null : null.unspanned = null := rfl

@[simp] theorem truthy_unspanned : v.unspanned.truthy = v.truthy := by
  cases v with
  | list vs => simp [truthy]
  | dict es =>
    cases es with
    | nil => rfl
    | cons e es => rfl
  | _ => rfl

@[simp] theorem isNull_unspanned : v.unspanned.isNull = v.isNull := by
  cases v <;> rfl

@[simp] theorem isNode_unspanned : v.unspanned.isNode = v.isNode := by
  cases v <;> rfl

@[simp] theorem isNumber_unspanned : v.unspanned.isNumber = v.isNumber := by
  cases v <;> rfl

@[simp] theorem isStr_unspanned (s : String) : v.unspanned.isStr s = v.isStr s := by
  cases v <;> rfl

@[simp] theorem str?_unspanned : v.unspanned.str? = v.str? := by
  cases v <;> rfl

@[simp] theorem count_unspanned : v.unspanned.count = v.count := by
  unfold count
  rw [truthy_unspanned]
  cases v with
  | list vs => simp
  | dict es => simp [unspanned, length_fieldsUnspanned]
  | _ => rfl

theorem node?_unspanned : v.unspanned.node? = v.node?.map Node.unspanned := by
  cases v <;> rfl

end Value

mutual

theorem Value.depth_unspanned (v : Value) : v.unspanned.depth = v.depth := by
  match v with
  | .node n => exact n.depth_unspanned
  | .list vs => exact itemsDepth_unspanned vs
  | .dict es => exact entriesDepth_unspanned es
  | .null | .bool _ | .int _ | .float _ | .str _ => rfl

@[simp] theorem Node.depth_unspanned (n : Node) : n.unspanned.depth = n.depth := by
  match n with
  | ⟨kind, span, fields⟩ =>
    rw [Node.unspanned, Node.depth, Node.depth, entriesDepth_unspanned fields]

theorem itemsDepth_unspanned (vs : List Value) :
    itemsDepth (itemsUnspanned vs) = itemsDepth vs := by
  match vs with
  | [] => rfl
  | v :: vs =>
    rw [itemsUnspanned, itemsDepth, itemsDepth, v.depth_unspanned, itemsDepth_unspanned vs]

theorem entriesDepth_unspanned (es : List (String × Value)) :
    entriesDepth (fieldsUnspanned es) = entriesDepth es := by
  match es with
  | [] => rfl
  | (k, v) :: es =>
    rw [fieldsUnspanned, entriesDepth, entriesDepth, v.depth_unspanned, entriesDepth_unspanned es]

end

/-! ## Cursors -/

namespace Cursor

/-- The cursor at the same place of the tree without spans. -/
def unspanned (c : Cursor) : Cursor :=
  ⟨c.focus.unspanned, c.above.map fun s => (s.1, s.2.unspanned)⟩

@[simp] theorem unspanned_mk (v : Value) (above : List (Step × Value)) :
    unspanned ⟨v, above⟩ = ⟨v.unspanned, above.map fun s => (s.1, s.2.unspanned)⟩ := rfl

theorem field_unspanned (c : Cursor) (name : String) :
    c.unspanned.field name = (c.field name).unspanned := by
  obtain ⟨focus, above⟩ := c
  cases focus with
  | node n => simp [field]
  | _ => rfl

@[simp] theorem key_unspanned (c : Cursor) : c.unspanned.key = c.key := by
  simp only [key, unspanned, List.findSome?_map]
  congr 1
  funext s
  obtain ⟨step, v⟩ := s
  cases step <;> rfl

@[simp] theorem index_unspanned (c : Cursor) : c.unspanned.index = c.index := by
  obtain ⟨focus, above⟩ := c
  cases above with
  | nil => rfl
  | cons s above =>
    obtain ⟨step, v⟩ := s
    cases step <;> rfl

theorem ancestors_unspanned (c : Cursor) :
    c.unspanned.ancestors = c.ancestors.map Node.unspanned := by
  simp only [ancestors, unspanned, List.filterMap_map, List.map_filterMap]
  congr 1
  funext s
  exact Value.node?_unspanned s.2

theorem parent_unspanned (c : Cursor) : c.unspanned.parent = c.parent.map Node.unspanned := by
  rw [parent, ancestors_unspanned, List.head?_map, parent]

end Cursor

/-! ## Operators and parentheses -/

@[simp] theorem Operator.rankOf_unspanned (v : Value) :
    Operator.rankOf v.unspanned = Operator.rankOf v := by
  rw [Operator.rankOf, Operator.rankOf, Value.str?_unspanned]

@[simp] theorem Operator.flattens_unspanned (v w : Value) :
    Operator.flattens v.unspanned w.unspanned = Operator.flattens v w := by
  unfold Operator.flattens
  rw [rankOf_unspanned, rankOf_unspanned]
  cases v <;> cases w <;> rfl

namespace Nesting

@[simp] theorem isSign_unspanned (v : Value) : isSign v.unspanned = isSign v := by
  simp [isSign]

@[simp] theorem betweenOperators_unspanned (v w : Value) (key : Option String) :
    betweenOperators v.unspanned w.unspanned key = betweenOperators v w key := by
  simp [betweenOperators]

@[simp] theorem isLeftmost_unspanned (n : Node) (key : String) :
    isLeftmost n.unspanned key = isLeftmost n key := by
  simp [isLeftmost]

theorem startsStatement_unspanned (above : List (Step × Value)) :
    startsStatement (above.map fun s => (s.1, s.2.unspanned)) = startsStatement above := by
  induction above with
  | nil => rfl
  | cons s above ih =>
    obtain ⟨step, v⟩ := s
    cases step with
    | index i => rfl
    | field key =>
      cases v with
      | node n =>
        rw [List.map_cons, startsStatement, ← ih]
        simp [startsStatement]
      | _ => rfl

@[simp] theorem needed_unspanned (n parent : Node) (key : Option String) :
    needed n.unspanned parent.unspanned key = needed n parent key := by
  simp [needed]

/-- Parentheses do not depend on places. -/
@[simp] theorem parenthesized_unspanned (c : Cursor) :
    parenthesized c.unspanned = parenthesized c := by
  unfold parenthesized
  rw [Cursor.parent_unspanned, Cursor.index_unspanned, Cursor.key_unspanned]
  obtain ⟨focus, above⟩ := c
  cases focus with
  | node n =>
    cases Cursor.parent ⟨.node n, above⟩ with
    | none => rfl
    | some p =>
      simp only [Cursor.unspanned_mk, Value.unspanned_node, Option.map_some, Node.kind_unspanned,
        startsStatement_unspanned, needed_unspanned]
  | _ => rfl

end Nesting

/-! ## Questions of the layout -/

theorem pickAt_map {α β : Type} (f : α → β) (xs : List α) (i : Int) :
    pickAt (xs.map f) i = (pickAt xs i).map f := by
  unfold pickAt
  rw [List.length_map]
  generalize (if i < 0 then i + (xs.length : Int) else i) = j
  dsimp only
  split
  · rfl
  · rw [List.getElem?_map]
    cases xs[j.toNat]? with
    | none => rfl
    | some x => rfl

theorem mem_of_pickAt {α : Type} {xs : List α} {i : Int} {x : α} (h : pickAt xs i = .ok x) :
    x ∈ xs := by
  unfold pickAt at h
  generalize (if i < 0 then i + (xs.length : Int) else i) = j at h
  dsimp only at h
  split at h
  · cases h
  · split at h
    · next hx =>
      cases h
      exact List.mem_of_getElem? hx
    · cases h

theorem Value.child_unspanned (v : Value) (s : Step) :
    v.unspanned.child s = (v.child s).map Value.unspanned := by
  cases s with
  | index i =>
    cases v with
    | list vs => rw [unspanned_list, child, child, pickAt_map]
    | str t =>
      rw [unspanned_str, child]
      cases pickAt t.toList i with
      | error e => rfl
      | ok c => rfl
    | _ => rfl
  | field name =>
    cases v with
    | node n =>
      rw [unspanned_node, child, child, Node.get_unspanned]
      rfl
    | dict es =>
      rw [unspanned, child, child, lookup_fieldsUnspanned]
      cases es.lookup name with
      | none => rfl
      | some w => rfl
    | _ => rfl

theorem Value.elements_unspanned (v : Value) :
    v.unspanned.elements = v.elements.map fun vs => vs.map Value.unspanned := by
  unfold elements
  rw [truthy_unspanned]
  split
  · cases v with
    | list vs =>
      rw [unspanned_list]
      rfl
    | str s =>
      change Except.ok _ = Except.ok ((s.toList.map _).map unspanned)
      rw [List.map_map]
      rfl
    | _ => rfl
  · rfl

theorem Cursor.elements_unspanned (c : Cursor) :
    c.unspanned.elements = c.elements.map fun cs => cs.map Cursor.unspanned := by
  obtain ⟨focus, above⟩ := c
  simp only [elements, unspanned_mk, Value.elements_unspanned]
  cases focus.elements with
  | error e => rfl
  | ok vs =>
    change Except.ok (List.map _ (vs.map Value.unspanned).zipIdx) =
      Except.ok (List.map _ (List.map _ vs.zipIdx))
    rw [List.zipIdx_map, List.map_map, List.map_map]
    rfl

theorem Cursor.down_unspanned (c : Cursor) (s : Step) :
    c.unspanned.down s = (c.down s).map Cursor.unspanned := by
  obtain ⟨focus, above⟩ := c
  simp only [down, unspanned_mk, Value.child_unspanned]
  cases focus.child s with
  | error e => rfl
  | ok v => rfl

namespace Layout

@[simp] theorem kindOf_unspanned (v : Value) : kindOf v.unspanned = kindOf v := by
  cases v with
  | node n => simp [kindOf]
  | _ => rfl

@[simp] theorem isFilledCollection_unspanned (v : Value) :
    isFilledCollection v.unspanned = isFilledCollection v := by
  cases v with
  | node n => simp [isFilledCollection]
  | _ => rfl

@[simp] theorem staysBehindOperator_unspanned (v : Value) :
    staysBehindOperator v.unspanned = staysBehindOperator v := by
  cases v with
  | node n => simp [staysBehindOperator]
  | _ => rfl

@[simp] theorem assignment_unspanned (left : Doc) (op : String) (v : Value) (right : Doc) :
    assignment left op v.unspanned right = assignment left op v right := by
  simp [assignment]

@[simp] theorem clause_unspanned (v : Value) (d : Doc) (sameLine : Bool) :
    clause v.unspanned d sameLine = clause v d sameLine := by
  simp [clause]

@[simp] theorem isBlock_unspanned (v : Value) : isBlock v.unspanned = isBlock v := by
  cases v with
  | node n => simp [isBlock]
  | _ => rfl

@[simp] theorem isKind_unspanned (kind : String) (v : Value) :
    isKind kind v.unspanned = isKind kind v := by
  cases v with
  | node n => simp [isKind]
  | _ => rfl

theorem anyInit_unspanned (vs : List Value) : anyInit (vs.map Value.unspanned) = anyInit vs := by
  induction vs with
  | nil => rfl
  | cons v vs ih =>
    cases v with
    | node n => simp [anyInit, ih]
    | _ => rfl

@[simp] theorem chainsLeft_unspanned (n : Node) : chainsLeft n.unspanned = chainsLeft n := by
  unfold chainsLeft
  rw [Node.get_unspanned]
  cases n.get "left" with
  | node l => simp [isBinaryish]
  | _ => rfl

@[simp] theorem inlinesRight_unspanned (n : Node) :
    inlinesRight n.unspanned = inlinesRight n := by
  simp [inlinesRight]

theorem breaksFlush_unspanned (parent : Node) (grandparent : Option Node) :
    breaksFlush parent.unspanned (grandparent.map Node.unspanned) =
      breaksFlush parent grandparent := by
  cases grandparent with
  | none => simp [breaksFlush]
  | some g => simp [breaksFlush]

@[simp] theorem isNumeric_unspanned (n : Node) : isNumeric n.unspanned = isNumeric n := by
  unfold isNumeric
  simp only [Node.kind_unspanned, Node.get_unspanned, Value.isStr_unspanned]
  -- a signed number is judged by its argument, any other node by itself
  by_cases hsign : (decide (n.kind = "UnaryExpression") &&
      ((n.get "operator").isStr "-" || (n.get "operator").isStr "+")) = true
  · rw [if_pos hsign, if_pos hsign]
    cases n.get "argument" with
    | node m => simp
    | _ => rfl
  · rw [if_neg hsign, if_neg hsign]
    simp

theorem allNumeric_unspanned (vs : List Value) :
    allNumeric (vs.map Value.unspanned) = allNumeric vs := by
  unfold allNumeric
  rw [List.length_map, List.all_map]
  congr 2
  funext v
  cases v with
  | node n => simp
  | _ => rfl

theorem allLarge_unspanned (kind name : String) (vs : List Value) :
    allLarge kind name (vs.map Value.unspanned) = allLarge kind name vs := by
  induction vs with
  | nil => rfl
  | cons v vs ih =>
    cases v with
    | node n => simp [allLarge, ih]
    | _ => rfl

theorem isTable_unspanned (vs : List Value) : isTable (vs.map Value.unspanned) = isTable vs := by
  unfold isTable
  rw [List.length_map]
  cases vs with
  | nil => rfl
  | cons v vs =>
    cases v with
    | node n =>
      have hlarge (kind name : String) := allLarge_unspanned kind name (.node n :: vs)
      rw [List.map_cons, Value.unspanned_node] at hlarge ⊢
      simp only [Node.kind_unspanned, hlarge]
    | _ => rfl

theorem fieldOf_unspanned (v : Value) (name : String) :
    fieldOf v.unspanned name = (fieldOf v name).map Value.unspanned := by
  cases v with
  | node n =>
    rw [Value.unspanned_node, fieldOf, fieldOf, Node.get_unspanned]
    rfl
  | dict es =>
    rw [Value.unspanned, fieldOf, fieldOf, lookup_fieldsUnspanned]
    cases es.lookup name with
    | none => rfl
    | some w => rfl
  | _ => rfl

theorem endsInGenerics_unspanned (v : Value) : endsInGenerics v.unspanned = endsInGenerics v := by
  unfold endsInGenerics
  rw [Value.child_unspanned]
  cases v.child (.index (-1)) with
  | error e => rfl
  | ok last =>
    simp only [Except.map, bind, Except.bind, fieldOf_unspanned]
    cases fieldOf last "ts" with
    | error e => rfl
    | ok ts =>
      simp only [Except.map, Value.truthy_unspanned, Value.child_unspanned]
      split
      · cases ts.child (.index (-1)) with
        | error e => rfl
        | ok part =>
          simp only [fieldOf_unspanned]
          cases fieldOf part "generics" with
          | error e => rfl
          | ok generics => exact congrArg Except.ok (Value.truthy_unspanned generics)
      · rfl

theorem wordsOf_unspanned (v : Value) : wordsOf v.unspanned = wordsOf v := by
  cases v with
  | list vs =>
    rw [Value.unspanned_list, wordsOf, wordsOf]
    induction vs with
    | nil => rfl
    | cons v vs ih =>
      rw [List.map_cons, List.mapM_cons, List.mapM_cons, ih]
      cases v with
      | _ => rfl
  | dict es =>
    rw [Value.unspanned, wordsOf, wordsOf]
    congr 1
    induction es with
    | nil => rfl
    | cons e es ih => rw [fieldsUnspanned, List.map_cons, List.map_cons, ih]
  | _ => rfl

@[simp] theorem accessText_unspanned (v : Value) : accessText v.unspanned = accessText v := by
  unfold accessText
  rw [Value.truthy_unspanned, wordsOf_unspanned]

end Layout

end MonkeyFormat
