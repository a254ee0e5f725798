import MonkeyFormat.Proofs.Parsing
import MonkeyFormat.Proofs.Shape
import MonkeyFormat.Proofs.WholeNumbers
import MonkeyFormat.Tree.Record

set_option autoImplicit false

/-! # Plain trees, and trees that are alike

A plain tree loses nothing when it is exchanged as a record: its fields are named like fields, all
its nodes are children, and a literal that is spelled like a whole number holds that number. Two
trees are alike if they are plain and the same, spans aside. -/

namespace MonkeyFormat

/-! ## Plain trees -/

/-- Do the names differ from each other, and from all that a node's record holds beside fields? -/
def properNames (names : List String) : Bool :=
  decide names.Nodup && names.all fun name => !isReservedKey name && !isSpanName name

/-- Are the fields named properly, and is every node in them a child, as the kind has it? -/
def properFields (kind : String) (fields : Fields) : Bool :=
  properNames (fields.map Prod.fst) &&
    match childFields? kind with
    | none => false
    | some keys => fields.all fun f => keys.contains f.1 || !f.2.holdsNode

/-- If the node is a literal that is spelled like a whole number, it holds that number. -/
def Literal.Kept (n : Node) : Prop :=
  n.kind = "Literal" → ∀ raw, n.get "raw" = .str raw → isWholeShaped raw = true →
    ∃ i, n.get "value" = .int i ∧ readWhole raw = .ok i

/-- Is the value a list? -/
def Value.isList : Value → Bool
  | .list _ => true
  | _ => false

mutual

/-- The node and all nodes below it can be read back from their records, with their numbers. -/
def Node.Plain : Node → Prop
  | ⟨kind, span, fields⟩ =>
    properFields kind fields = true ∧ Literal.Kept ⟨kind, span, fields⟩ ∧ fieldsPlain fields

/-- The value holds plain nodes only, and no dictionaries. -/
def Value.Plain : Value → Prop
  | .node n => n.Plain
  | .list vs => itemsPlain vs
  | .dict _ => False
  | _ => True

/-- The values of a list are plain, and no lists. -/
def itemsPlain : List Value → Prop
  | [] => True
  | v :: vs => v.isList = false ∧ v.Plain ∧ itemsPlain vs

/-- The values of fields are plain. -/
def fieldsPlain : List (String × Value) → Prop
  | [] => True
  | (_, v) :: fs => v.Plain ∧ fieldsPlain fs

end

theorem properNames_of_properFields {kind : String} {fields : Fields}
    (h : properFields kind fields = true) : properNames (fields.map Prod.fst) = true := by
  rw [properFields, Bool.and_eq_true] at h
  exact h.1

theorem properFields_iff {kind : String} {fields : Fields} {keys : List String}
    (known : childFields? kind = some keys) : properFields kind fields = true ↔
      properNames (fields.map Prod.fst) = true ∧
        ∀ f ∈ fields, f.1 ∈ keys ∨ f.2.holdsNode = false := by
  rw [properFields, known, Bool.and_eq_true, List.all_eq_true]
  simp only [Bool.or_eq_true, List.contains_iff_mem, Bool.not_eq_true']

theorem childFields_of_properFields {kind : String} {fields : Fields}
    (h : properFields kind fields = true) : ∃ keys, childFields? kind = some keys ∧
      ∀ f ∈ fields, f.1 ∈ keys ∨ f.2.holdsNode = false := by
  cases hkeys : childFields? kind with
  | none =>
    rw [properFields, hkeys, Bool.and_false] at h
    cases h
  | some keys => exact ⟨keys, rfl, ((properFields_iff hkeys).1 h).2⟩

theorem Literal.Kept.of_kind {n : Node} (h : n.kind ≠ "Literal") : Literal.Kept n :=
  fun hkind => absurd hkind h

/-- What is kept need not be recovered. -/
theorem Literal.Kept.lostText? {n : Node} (h : Literal.Kept n) : Literal.lostText? n = none := by
  unfold Literal.lostText?
  split
  · next raw hkind hraw =>
    split
    · rfl
    · next hvalue =>
      by_cases hshape : Literal.isWholeShaped raw = true
      · obtain ⟨i, hi, _⟩ := h hkind raw hraw hshape
        exact absurd hi (hvalue i)
      · rw [if_neg hshape]
  · rfl

/-! ## Trees that are alike -/

/-- The values are plain, and the same, spans aside. -/
structure Value.Like (v w : Value) : Prop where
  plain : v.Plain
  unspanned : v.unspanned = w.unspanned

/-- The nodes are plain, and the same, spans aside. -/
structure Node.Like (n m : Node) : Prop where
  plain : n.Plain
  unspanned : n.unspanned = m.unspanned

/-- Fields of the same names that hold values that are alike. -/
def Fields.Like : Fields → Fields → Prop
  | [], [] => True
  | (k, v) :: fs, (l, w) :: gs => k = l ∧ v.Like w ∧ Fields.Like fs gs
  | _, _ => False

theorem Value.Like.node {n m : Node} (h : n.Like m) : Value.Like (.node n) (.node m) :=
  ⟨h.plain, congrArg Value.node h.unspanned⟩

theorem Value.Like.str (s : String) : Value.Like (.str s) (.str s) := ⟨trivial, rfl⟩

theorem Value.Like.bool (b : Bool) : Value.Like (.bool b) (.bool b) := ⟨trivial, rfl⟩

theorem Value.Like.null : Value.Like .null .null := ⟨trivial, rfl⟩

theorem Value.Like.items {vs ws : List Value} (h : List.Forall₂ Value.Like vs ws)
    (hflat : ∀ v ∈ vs, v.isList = false) : Value.Like (.list vs) (.list ws) := by
  have hall : itemsPlain vs ∧ itemsUnspanned vs = itemsUnspanned ws := by
    induction h with
    | nil => exact ⟨trivial, rfl⟩
    | cons hv _ ih =>
      have hrest := ih fun v hv => hflat v (List.mem_cons_of_mem _ hv)
      refine ⟨⟨hflat _ List.mem_cons_self, hv.plain, hrest.1⟩, ?_⟩
      rw [itemsUnspanned, itemsUnspanned, hv.unspanned, hrest.2]
  exact ⟨hall.1, congrArg Value.list hall.2⟩

theorem Value.Like.nodes {ns ms : List Node} (h : List.Forall₂ Node.Like ns ms) :
    Value.Like (Parse.nodes ns) (Parse.nodes ms) := by
  refine .items ?_ fun v hv => ?_
  · exact List.forall₂_map_left_iff.2 (List.forall₂_map_right_iff.2 (h.imp fun _ _ => .node))
  · obtain ⟨n, _, rfl⟩ := List.mem_map.1 hv
    rfl

theorem Value.Like.words (ws : List String) :
    Value.Like (.list (ws.map .str)) (.list (ws.map .str)) := by
  refine .items (List.forall₂_same.2 fun v hv => ?_) fun v hv => ?_
  · obtain ⟨w, _, rfl⟩ := List.mem_map.1 hv
    exact .str w
  · obtain ⟨w, _, rfl⟩ := List.mem_map.1 hv
    rfl

/-- There are no nodes among words. -/
theorem Value.holdsNode_words (ws : List String) :
    (Value.list (ws.map .str)).holdsNode = false := by
  rw [holdsNode, List.any_eq_false]
  intro v hv
  obtain ⟨w, _, rfl⟩ := List.mem_map.1 hv
  exact Bool.false_ne_true

/-- Nodes that are alike, or none in both places. -/
def OptionLike (o o' : Option Node) : Prop := Option.Rel Node.Like o o'

theorem OptionLike.none : OptionLike .none .none := Option.Rel.none

theorem OptionLike.some {n m : Node} (h : n.Like m) : OptionLike (.some n) (.some m) :=
  Option.Rel.some h

theorem OptionLike.isNone_eq {o o' : Option Node} (h : OptionLike o o') :
    o.isNone = o'.isNone := by
  cases h <;> rfl

theorem Value.Like.optional {o o' : Option Node} (h : OptionLike o o') :
    Value.Like (Parse.optional o) (Parse.optional o') := by
  cases h with
  | none => exact .null
  | some h => exact .node h

theorem Fields.Like.names {fs gs : Fields} (h : Fields.Like fs gs) :
    fs.map Prod.fst = gs.map Prod.fst := by
  induction fs generalizing gs with
  | nil => cases gs with
    | nil => rfl
    | cons g gs => cases h
  | cons f fs ih => cases gs with
    | nil => cases h
    | cons g gs => simp [h.1, ih h.2.2]

theorem Fields.Like.plain {fs gs : Fields} (h : Fields.Like fs gs) : fieldsPlain fs := by
  induction fs generalizing gs with
  | nil => trivial
  | cons f fs ih => cases gs with
    | nil => cases h
    | cons g gs => exact ⟨h.2.1.plain, ih h.2.2⟩

theorem Fields.Like.unspanned {fs gs : Fields} (h : Fields.Like fs gs) :
    fieldsUnspanned fs = fieldsUnspanned gs := by
  induction fs generalizing gs with
  | nil => cases gs with
    | nil => rfl
    | cons g gs => cases h
  | cons f fs ih => cases gs with
    | nil => cases h
    | cons g gs =>
      rw [fieldsUnspanned, fieldsUnspanned, h.1, h.2.1.unspanned, ih h.2.2]

/-- Nodes of one kind that is not that of literals are alike if their fields are. -/
theorem Node.Like.of_fields {kind : String} {fs gs : Fields} (h : Fields.Like fs gs)
    (hkind : kind ≠ "Literal") (hfields : properFields kind fs = true) (s t : Span) :
    Node.Like ⟨kind, s, fs⟩ ⟨kind, t, gs⟩ := by
  refine ⟨⟨hfields, .of_kind hkind, h.plain⟩, ?_⟩
  rw [Node.unspanned, Node.unspanned, h.unspanned]

theorem Node.Like.kind {n m : Node} (h : n.Like m) : n.kind = m.kind := by
  obtain ⟨kind, span, fields⟩ := n
  obtain ⟨kind', span', fields'⟩ := m
  have hkind := congrArg Node.kind h.unspanned
  exact hkind

/-- Where nodes stand does not matter. -/
theorem Node.Like.respan {n m : Node} (h : n.Like m) (s t : Span) :
    Node.Like ⟨n.kind, s, n.fields⟩ ⟨m.kind, t, m.fields⟩ := by
  obtain ⟨kind, span, fields⟩ := n
  obtain ⟨kind', span', fields'⟩ := m
  exact ⟨h.plain, h.unspanned⟩

/-! ## Adding a field -/

theorem Fields.mem_names_insert {fs : Fields} {name k : String} {v : Value} :
    k ∈ (Fields.insert fs name v).map Prod.fst ↔ k = name ∨ k ∈ fs.map Prod.fst := by
  induction fs with
  | nil => simp [Fields.insert]
  | cons f fs ih =>
    rw [Fields.insert]
    split
    · next h => simp [h]
    · rw [List.map_cons, List.mem_cons, ih, List.map_cons, List.mem_cons]
      tauto

theorem properNames_insert {fs : Fields} {name : String} (v : Value)
    (h : properNames (fs.map Prod.fst) = true) (hname : properNames [name] = true) :
    properNames ((Fields.insert fs name v).map Prod.fst) = true := by
  simp only [properNames, Bool.and_eq_true, decide_eq_true_eq, List.all_eq_true] at h hname ⊢
  refine ⟨?_, fun k hk => ?_⟩
  · have hnodup := h.1
    clear h hname
    induction fs with
    | nil => simp [Fields.insert]
    | cons f fs ih =>
      rw [List.map_cons, List.nodup_cons] at hnodup
      rw [Fields.insert]
      split
      · exact List.nodup_cons.2 hnodup
      · next hne =>
        refine List.nodup_cons.2 ⟨fun hmem => ?_, ih hnodup.2⟩
        rcases Fields.mem_names_insert.1 hmem with heq | hmem
        · exact hne heq
        · exact hnodup.1 hmem
  · rcases Fields.mem_names_insert.1 hk with rfl | hk
    · exact hname.2 _ (by simp)
    · exact h.2 k hk

theorem properFields_insert {kind : String} {fs : Fields} {name : String} {v : Value}
    (h : properFields kind fs = true) (hname : properNames [name] = true)
    (hv : v.holdsNode = false) : properFields kind (Fields.insert fs name v) = true := by
  obtain ⟨keys, hkeys, hall⟩ := childFields_of_properFields h
  rw [properFields_iff hkeys]
  refine ⟨properNames_insert v (properNames_of_properFields h) hname, fun f hf => ?_⟩
  rcases Fields.mem_insert hf with hf | rfl
  · exact hall f hf
  · exact .inr hv

theorem fieldsPlain_insert {fs : Fields} (name : String) {v : Value} (h : fieldsPlain fs)
    (hv : v.Plain) : fieldsPlain (Fields.insert fs name v) := by
  induction fs with
  | nil => exact ⟨hv, trivial⟩
  | cons f fs ih =>
    rw [Fields.insert]
    split
    · exact ⟨hv, h.2⟩
    · exact ⟨h.1, ih h.2⟩

theorem fieldsUnspanned_insert (fs : Fields) (name : String) (v : Value) :
    fieldsUnspanned (Fields.insert fs name v) =
      Fields.insert (fieldsUnspanned fs) name v.unspanned := by
  induction fs with
  | nil => rfl
  | cons f fs ih =>
    rw [Fields.insert, fieldsUnspanned, Fields.insert]
    split
    · rfl
    · rw [fieldsUnspanned, ih]

/-- A flag may be added to the fields of nodes that are alike. -/
theorem Node.Like.insert {n m : Node} {name : String} {v : Value} (h : n.Like m)
    (hkind : n.kind ≠ "Literal") (hname : properNames [name] = true) (hv : v.Plain)
    (hnone : v.holdsNode = false) (s t : Span) :
    Node.Like ⟨n.kind, s, Fields.insert n.fields name v⟩
      ⟨n.kind, t, Fields.insert m.fields name v⟩ := by
  obtain ⟨kind, span, fs⟩ := n
  obtain ⟨kind', span', gs⟩ := m
  obtain ⟨hproper, _, hplain⟩ := h.plain
  have hfields : fieldsUnspanned fs = fieldsUnspanned gs := congrArg Node.fields h.unspanned
  refine ⟨⟨properFields_insert hproper hname hnone, .of_kind hkind,
    fieldsPlain_insert name hplain hv⟩, ?_⟩
  rw [Node.unspanned, Node.unspanned, fieldsUnspanned_insert, fieldsUnspanned_insert, hfields]

end MonkeyFormat
