import MonkeyFormat.Proofs.Names

set_option autoImplicit false

/-! # What making parentheses explicit does to a node

The pass can fail, and copies only what it changes. Where it does not fail, what it makes can be
told without faults and copies; this is taken apart into what the pass does to a node, to its fields
and to the elements of lists, apart from the flags that say whether it changed anything. -/

namespace MonkeyFormat

namespace Parentheses

/-! ## The pass without faults -/

/-- Makes a block of a statement in a field; a second branch that is itself a choice stays. -/
def blockField (n : Node) (name : String) : Node :=
  match n.get name with
  | .node s =>
    if s.kind = "BlockStatement" || (name = "alternate" && s.kind = "IfStatement") then n
    else n.set name (.node (wrapBody s))
  | _ => n

/-- Would `blockField` change the node? -/
def needsBlock (n : Node) (name : String) : Bool :=
  match n.get name with
  | .node s => s.kind != "BlockStatement" && !(name = "alternate" && s.kind = "IfStatement")
  | _ => false

/-- Makes blocks of the statements below a node whose children are done. -/
def blockBodies (o : Outcome Node) : Outcome Node :=
  let names := (bodyFields o.result.kind).filter (needsBlock o.result)
  { o with
    result := names.foldl blockField o.result
    changed := o.changed || !names.isEmpty }

mutual

/-- What the pass makes of a node where it does not fail. -/
def explicit : Node → Outcome Node
  | ⟨kind, span, fields⟩ =>
    let n : Node := ⟨kind, span, fields⟩
    let fs := explicitFields n n.childKeys fields
    blockBodies ⟨⟨kind, span, fs.result⟩, fs.changed, fs.wrapped⟩

/-- What it makes of the fields of the parent, of which only those that hold children change. -/
def explicitFields (parent : Node) (keys : List String) :
    List (String × Value) → Outcome (List (String × Value))
  | [] => ⟨[], false, 0⟩
  | (k, v) :: fs =>
    let first := if keys.contains k then explicitValue parent k v else ⟨v, false, 0⟩
    let rest := explicitFields parent keys fs
    ⟨(k, first.result) :: rest.result, first.changed || rest.changed,
      first.wrapped + rest.wrapped⟩

/-- What it makes of the value of a field. -/
def explicitValue (parent : Node) (key : String) : Value → Outcome Value
  | .node c =>
    let o := wrapUnder parent key (explicit c)
    ⟨.node o.result, o.changed, o.wrapped⟩
  | .list vs =>
    let o := explicitItems vs
    ⟨.list o.result, o.changed, o.wrapped⟩
  | v => ⟨v, false, 0⟩

/-- What it makes of the elements of a list. -/
def explicitItems : List Value → Outcome (List Value)
  | [] => ⟨[], false, 0⟩
  | .node c :: vs =>
    let o := explicit c
    let rest := explicitItems vs
    ⟨.node o.result :: rest.result, o.changed || rest.changed, o.wrapped + rest.wrapped⟩
  | v :: vs =>
    let rest := explicitItems vs
    ⟨v :: rest.result, rest.changed, rest.wrapped⟩

end

/-! ## Nodes and fields -/

/-- The tree that the pass makes of a node. -/
def made (n : Node) : Node := (explicit n).result

/-- The pass makes a child whose own children are done explicit under its parent. -/
def madeUnder (parent : Node) (key : String) (n : Node) : Node :=
  if needed (made n) parent (some key) then wrap (made n) else made n

theorem explicitValue_node (parent : Node) (key : String) (n : Node) :
    (explicitValue parent key (.node n)).result = .node (madeUnder parent key n) := by
  unfold madeUnder made
  simp only [explicitValue, wrapUnder]
  split <;> rfl

theorem explicitItems_nodes (ns : List Node) :
    (explicitItems (ns.map .node)).result = (ns.map made).map .node := by
  induction ns with
  | nil => rfl
  | cons n ns ih =>
    simp only [List.map_cons, explicitItems, ih]
    rfl

theorem explicitValue_nodes (parent : Node) (key : String) (ns : List Node) :
    (explicitValue parent key (.list (ns.map .node))).result =
      .list ((ns.map made).map .node) := by
  simp only [explicitValue, explicitItems_nodes]

/-- The pass makes blocks only below the kinds that have bodies. -/
theorem made_eq {kind : String} (hkind : bodyFields kind = []) (span : Span) (fields : Fields) :
    made ⟨kind, span, fields⟩ = ⟨kind, span, (explicitFields ⟨kind, span, fields⟩
      (Node.childKeys ⟨kind, span, fields⟩) fields).result⟩ := by
  simp only [made, explicit, blockBodies, hkind]
  rfl

theorem childKeys_eq {kind : String} {keys : List String} (h : childFields? kind = some keys)
    (span : Span) (fields : Fields) : Node.childKeys ⟨kind, span, fields⟩ = keys := by
  simp only [Node.childKeys, h]
  rfl

theorem explicitFields_cons (parent : Node) (keys : List String) (k : String) (v : Value)
    (fs : Fields) : (explicitFields parent keys ((k, v) :: fs)).result =
      (k, if keys.contains k then (explicitValue parent k v).result else v) ::
        (explicitFields parent keys fs).result := by
  simp only [explicitFields]
  split <;> rfl

theorem explicitFields_nil (parent : Node) (keys : List String) :
    (explicitFields parent keys []).result = [] := rfl

/-! ## Names -/

/-- The kinds of operand that are never wrapped. -/
def quietKinds : List String := ["Identifier", "MemberExpression", "CallExpression"]

theorem needed_of_quiet {n : Node} (h : n.kind ∈ quietKinds) (parent : Node)
    (key : Option String) : needed n parent key = false := by
  have hall : ∀ kind ∈ quietKinds, isSafe kind = true ∧ kind ≠ "BinaryExpression" ∧
      kind ≠ "NewExpression" := by decide
  obtain ⟨hsafe, hbinary, hnew⟩ := hall _ h
  simp only [needed, hsafe, hbinary, hnew]
  split
  · rfl
  · split <;> simp

theorem kind_dottedName (c : DottedName) : c.node.kind ∈ quietKinds := by
  cases c
  · exact List.mem_cons_self
  · exact List.mem_cons_of_mem _ List.mem_cons_self

theorem made_name (x : Name) (span : Span) : made (x.node span) = x.node span := rfl

theorem madeUnder_of_quiet {n : Node} (h : made n = n) (hkind : n.kind ∈ quietKinds) (parent : Node)
    (key : String) : madeUnder parent key n = n := by
  rw [madeUnder, h, needed_of_quiet hkind]
  rfl

theorem made_dottedName (c : DottedName) : made c.node = c.node := by
  induction c with
  | name x span => rfl
  | member object x property span ih =>
    have hobject := madeUnder_of_quiet ih (kind_dottedName object)
      (DottedName.member object x property span).node "object"
    have hproperty := madeUnder_of_quiet (made_name x property) (kind_dottedName (.name x property))
      (DottedName.member object x property span).node "property"
    rw [DottedName.node] at hobject hproperty ⊢
    rw [made_eq rfl, childKeys_eq rfl]
    simp only [explicitFields_cons, explicitFields_nil, explicitValue_node, hobject, hproperty]
    rfl

theorem made_plainType (t : PlainType) : made t.node = t.node := by
  have hname := madeUnder_of_quiet (made_dottedName t.name) (kind_dottedName t.name)
    t.partNode "name"
  have hpart : made t.partNode = t.partNode := by
    rw [PlainType.partNode] at hname ⊢
    rw [made_eq rfl, childKeys_eq rfl]
    simp only [explicitFields_cons, explicitFields_nil, explicitValue_node, hname]
    rfl
  have hts := explicitValue_nodes t.node "ts" [t.partNode]
  rw [List.map_singleton, List.map_singleton, hpart, List.map_singleton] at hts
  rw [PlainType.node] at hts ⊢
  rw [made_eq rfl, childKeys_eq rfl]
  simp only [explicitFields_cons, explicitFields_nil, hts]
  rfl

end Parentheses

end MonkeyFormat
