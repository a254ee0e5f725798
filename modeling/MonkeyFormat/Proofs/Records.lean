import MonkeyFormat.Proofs.AlikeSources
import MonkeyFormat.Tree.Comparison

set_option autoImplicit false

/-! # Trees and their records

A node is written as its header, that is its type and where it stands, with its fields behind.
Reading drops the header and takes the rest for fields. So a tree is read back from its record if
no field is named like a part of the header or of the span, and if no dictionary that a field
holds could be taken for a node. Nothing else matters: neither the kinds, nor which fields a node
of a kind has, nor what the dictionaries hold. -/

namespace MonkeyFormat

/-! ## Trees that can be read back -/

mutual

/-- No node of the tree has a field that its record could not hold. -/
def Node.Recordable : Node → Prop
  | ⟨_, _, fields⟩ => properNames (fields.map Prod.fst) = true ∧ fieldsRecordable fields

/-- The nodes of the value can be read back, and no dictionary looks like one. What a dictionary
holds is never looked into. -/
def Value.Recordable : Value → Prop
  | .node n => n.Recordable
  | .list vs => itemsRecordable vs
  | .dict es => es.lookup "type" = none
  | _ => True

/-- The values of a list can be read back. -/
def itemsRecordable : List Value → Prop
  | [] => True
  | v :: vs => v.Recordable ∧ itemsRecordable vs

/-- The values of fields can be read back. -/
def fieldsRecordable : List (String × Value) → Prop
  | [] => True
  | (_, v) :: fs => v.Recordable ∧ fieldsRecordable fs

end

mutual

theorem Value.Plain.recordable (v : Value) (h : v.Plain) : v.Recordable := by
  match v with
  | .node n => exact Node.Plain.recordable n h
  | .list vs => exact itemsPlain_recordable vs h
  | .null | .bool _ | .int _ | .float _ | .str _ => trivial

theorem Node.Plain.recordable (n : Node) (h : n.Plain) : n.Recordable := by
  match n with
  | ⟨_, _, fs⟩ => exact ⟨properNames_of_properFields h.1, fieldsPlain_recordable fs h.2.2⟩

theorem itemsPlain_recordable (vs : List Value) (h : itemsPlain vs) : itemsRecordable vs := by
  match vs with
  | [] => trivial
  | v :: vs => exact ⟨Value.Plain.recordable v h.2.1, itemsPlain_recordable vs h.2.2⟩

theorem fieldsPlain_recordable (fs : List (String × Value)) (h : fieldsPlain fs) :
    fieldsRecordable fs := by
  match fs with
  | [] => trivial
  | (_, v) :: fs => exact ⟨Value.Plain.recordable v h.1, fieldsPlain_recordable fs h.2⟩

end

/-! ## Writing -/

/-- The entries of a node's record that are not fields. -/
def Node.header (kind : String) (span : Span) : Fields := ("type", .str kind) :: span.entries

theorem Fields.insert_of_not_mem {fs : Fields} {name : String} (v : Value)
    (h : name ∉ fs.map Prod.fst) : fs.insert name v = fs ++ [(name, v)] := by
  induction fs with
  | nil => rfl
  | cons f fs ih =>
    rw [List.map_cons, List.mem_cons, not_or] at h
    rw [Fields.insert, if_neg (Ne.symm h.1), ih h.2, List.cons_append]

/-- New names are put behind those that are there. -/
theorem Fields.insertAll_eq_append {base fs : Fields} (hnodup : (fs.map Prod.fst).Nodup)
    (hnew : ∀ name ∈ fs.map Prod.fst, name ∉ base.map Prod.fst) :
    Fields.insertAll base fs = base ++ fs := by
  induction fs generalizing base with
  | nil => simp [Fields.insertAll]
  | cons f fs ih =>
    obtain ⟨k, v⟩ := f
    rw [List.map_cons, List.nodup_cons] at hnodup
    have hk : k ∉ base.map Prod.fst := hnew k (by simp)
    have hstep : Fields.insertAll base ((k, v) :: fs) =
        Fields.insertAll (base ++ [(k, v)]) fs := by
      rw [Fields.insertAll, List.foldl_cons, Fields.insert_of_not_mem v hk]
      rfl
    rw [hstep, ih hnodup.2, List.append_assoc, List.singleton_append]
    intro name hname hmem
    rw [List.map_append, List.mem_append] at hmem
    rcases hmem with hmem | hmem
    · exact hnew name (by simp [hname]) hmem
    · rw [List.mem_singleton.1 hmem] at hname
      exact hnodup.1 hname

theorem names_fieldsToRecords (fs : Fields) :
    (fieldsToRecords fs).map Prod.fst = fs.map Prod.fst := by
  induction fs with
  | nil => rfl
  | cons f fs ih => rw [fieldsToRecords, List.map_cons, List.map_cons, ih]

theorem Node.toRecord_eq {kind : String} {span : Span} {fs : Fields}
    (h : properNames (fs.map Prod.fst) = true) :
    Node.toRecord ⟨kind, span, fs⟩ = Node.header kind span ++ fieldsToRecords fs := by
  rw [properNames, Bool.and_eq_true, decide_eq_true_eq, List.all_eq_true] at h
  rw [Node.toRecord, Node.header]
  refine Fields.insertAll_eq_append ?_ ?_
  · rw [names_fieldsToRecords]
    exact h.1
  · intro name hname
    rw [names_fieldsToRecords] at hname
    have hproper := h.2 name hname
    rw [Bool.and_eq_true, Bool.not_eq_true'] at hproper
    intro hmem
    have hreserved : ∀ key ∈ ["type", "start", "end", "loc"], isReservedKey key = true := by decide
    rw [hreserved name hmem] at hproper
    cases hproper.1

/-! ## Reading back -/

theorem fieldsOfRecords_cons_reserved {key : String} (v : Value) (es : Fields)
    (h : isReservedKey key = true) : fieldsOfRecords ((key, v) :: es) = fieldsOfRecords es := by
  rw [fieldsOfRecords, if_pos h]

theorem fieldsOfRecords_append_reserved {es extra : Fields}
    (h : ∀ e ∈ extra, isReservedKey e.1 = true) :
    fieldsOfRecords (es ++ extra) = fieldsOfRecords es := by
  induction es with
  | nil =>
    induction extra with
    | nil => rfl
    | cons e extra ih =>
      obtain ⟨k, v⟩ := e
      rw [List.nil_append, fieldsOfRecords_cons_reserved v extra (h (k, v) (by simp))]
      exact ih fun e he => h e (by simp [he])
  | cons e es ih =>
    obtain ⟨k, v⟩ := e
    rw [List.cons_append, fieldsOfRecords, fieldsOfRecords, ih]

theorem not_reserved_of_properNames {fs : Fields} (h : properNames (fs.map Prod.fst) = true) :
    ∀ f ∈ fs, isReservedKey f.1 = false := by
  rw [properNames, Bool.and_eq_true, List.all_eq_true] at h
  intro f hf
  have hname := h.2 f.1 (List.mem_map_of_mem hf)
  simp only [Bool.and_eq_true, Bool.not_eq_true'] at hname
  exact hname.1

theorem any_isSpanName_eq_false {fs : Fields} (h : properNames (fs.map Prod.fst) = true) :
    (fs.any fun kv => isSpanName kv.1) = false := by
  rw [properNames, Bool.and_eq_true, List.all_eq_true] at h
  rw [List.any_eq_false]
  intro kv hkv
  have hname := h.2 kv.1 (List.mem_map_of_mem hkv)
  simp only [Bool.and_eq_true, Bool.not_eq_true'] at hname
  simp [hname.2]

/-- An offset is read back whether it is zero or not. -/
theorem offset_int {es : Fields} {key : String} {n : Int} (h : es.lookup key = some (.int n)) :
    Fields.offset es key = .ok n := by
  unfold Fields.offset Fields.getD
  rw [h]
  by_cases hn : n = 0
  · subst hn
    rfl
  · have htruthy : (Value.int n).truthy = true := by simp [Value.truthy, hn]
    simp only [Option.getD_some, htruthy, if_true]
    rfl

/-- Behind its header, a record gives back the node that its fields are read as, unless one of
them is named like a part of the span. -/
theorem Node.ofRecord_header {kind : String} {span : Span} {es fs : Fields}
    (hread : fieldsOfRecords es = .ok fs) :
    Node.ofRecord (Node.header kind span ++ es) =
      if fs.any fun kv => isSpanName kv.1 then .error .wrongType else .ok ⟨kind, span, fs⟩ := by
  have hfields : fieldsOfRecords (Node.header kind span ++ es) = .ok fs := by
    rw [← hread, Node.header, Span.entries]
    simp only [List.cons_append, List.nil_append]
    repeat rw [fieldsOfRecords_cons_reserved _ _ (by decide)]
  have hstart : Fields.offset (Node.header kind span ++ es) "start" = .ok span.start :=
    offset_int rfl
  have hstop : Fields.offset (Node.header kind span ++ es) "end" = .ok span.stop := offset_int rfl
  rw [Node.ofRecord]
  change (do
    let fields ← fieldsOfRecords (Node.header kind span ++ es)
    let start ← Fields.offset (Node.header kind span ++ es) "start"
    let stop ← Fields.offset (Node.header kind span ++ es) "end"
    if fields.any fun kv => isSpanName kv.1 then throw Fault.wrongType
    pure (⟨kind, ⟨start, stop, span.line, span.col, span.endLine, span.endCol⟩, fields⟩ : Node)) = _
  rw [hfields, hstart, hstop]
  change (if fs.any fun kv => isSpanName kv.1 then throw Fault.wrongType else _) = _
  split
  · rfl
  · rfl

/-- Fields with proper names are read back with the header before them. -/
theorem Node.ofRecord_proper {kind : String} {span : Span} {es fs : Fields}
    (hread : fieldsOfRecords es = .ok fs) (hnames : properNames (fs.map Prod.fst) = true) :
    Node.ofRecord (Node.header kind span ++ es) = .ok ⟨kind, span, fs⟩ := by
  rw [Node.ofRecord_header hread, any_isSpanName_eq_false hnames]
  rfl

theorem lookup_type_toRecord {n : Node} (h : n.Recordable) :
    (List.lookup "type" n.toRecord).isSome = true := by
  obtain ⟨kind, span, fs⟩ := n
  rw [Node.toRecord_eq h.1]
  rfl

mutual

theorem Value.ofRecord_toRecord (v : Value) (h : v.Recordable) :
    Value.ofRecord v.toRecord = .ok v := by
  match v with
  | .node n =>
    rw [Value.toRecord, Value.ofRecord, if_pos (lookup_type_toRecord h), n.ofRecord_toRecord h]
    rfl
  | .list vs =>
    rw [Value.toRecord, Value.ofRecord, itemsOfRecords_itemsToRecords vs h]
    rfl
  | .dict es =>
    have hlookup : es.lookup "type" = none := h
    simp only [Value.toRecord, Value.ofRecord, hlookup]
    rfl
  | .null | .bool _ | .int _ | .float _ | .str _ =>
    simp only [Value.toRecord, Value.ofRecord]
    rfl

theorem Node.ofRecord_toRecord (n : Node) (h : n.Recordable) :
    Node.ofRecord n.toRecord = .ok n := by
  match n with
  | ⟨kind, span, fs⟩ =>
    rw [Node.toRecord_eq h.1]
    have hfields := fieldsOfRecords_fieldsToRecords fs h.2 (not_reserved_of_properNames h.1)
    exact Node.ofRecord_proper hfields h.1

theorem itemsOfRecords_itemsToRecords (vs : List Value) (h : itemsRecordable vs) :
    itemsOfRecords (itemsToRecords vs) = .ok vs := by
  match vs with
  | [] =>
    rw [itemsToRecords, itemsOfRecords]
    rfl
  | v :: vs =>
    rw [itemsToRecords, itemsOfRecords, v.ofRecord_toRecord h.1,
      itemsOfRecords_itemsToRecords vs h.2]
    rfl

theorem fieldsOfRecords_fieldsToRecords (fs : List (String × Value)) (h : fieldsRecordable fs)
    (hnames : ∀ f ∈ fs, isReservedKey f.1 = false) :
    fieldsOfRecords (fieldsToRecords fs) = .ok fs := by
  match fs with
  | [] =>
    rw [fieldsToRecords, fieldsOfRecords]
    rfl
  | (k, v) :: fs =>
    have hk : isReservedKey k = false := hnames (k, v) (by simp)
    rw [fieldsToRecords, fieldsOfRecords, hk, v.ofRecord_toRecord h.1,
      fieldsOfRecords_fieldsToRecords fs h.2 fun f hf => hnames f (by simp [hf])]
    rfl

end

/-- The fields of a node, and other reserved entries behind them, are read back as the node. -/
theorem Node.ofRecord_append {n : Node} (h : n.Recordable) {extra : Fields}
    (hextra : ∀ e ∈ extra, isReservedKey e.1 = true) :
    Node.ofRecord (n.toRecord ++ extra) = .ok n := by
  obtain ⟨kind, span, fs⟩ := n
  have hfields := fieldsOfRecords_fieldsToRecords fs h.2 (not_reserved_of_properNames h.1)
  rw [Node.toRecord_eq h.1, List.append_assoc]
  exact Node.ofRecord_proper ((fieldsOfRecords_append_reserved hextra).trans hfields) h.1

/-- A tree is read back from its record as it was, and written again gives the same record. This
holds of every parsed tree. -/
theorem Node.record_roundtrip :
    (∀ n : Node, n.Recordable → Node.ofRecord n.toRecord = .ok n ∧
      Node.toRecord <$> Node.ofRecord n.toRecord = .ok n.toRecord) ∧
    ∀ (source : String) (o : Options) (root : Node) (comments : List Comment),
      parse source o = .ok (root, comments) → root.Recordable := by
  constructor
  · intro n hn
    have hread := n.ofRecord_toRecord hn
    refine ⟨hread, ?_⟩
    rw [hread]
    rfl
  · intro source o root comments hparse
    exact Node.Plain.recordable root (parse_plain hparse)

/-- A tree with a list of nodes and values, a list in a list, a dictionary, a field without a
value and one named like what is called the kind of a node elsewhere. -/
def mixedTree : Node :=
  ⟨"VariableDeclaration", ⟨0, 9, 1, 1, 1, 10⟩,
    [("kind", .str "var"),
      ("declarations", .list [.node ⟨"Identifier", ⟨4, 5, 1, 5, 1, 6⟩, [("name", .str "a")]⟩,
        .list [.null, .int 7], .node ⟨"Empty", {}, []⟩]),
      ("extra", .dict [("start", .bool true), ("inner", .dict [("type", .str "x")])]),
      ("attrs", .null)]⟩

theorem mixedTree_roundtrip :
    Node.ofRecord mixedTree.toRecord = .ok mixedTree ∧
      ∃ root, parse "a.b" { rule := .expression } = .ok (root, []) ∧ root.Recordable := by
  have hmixed : mixedTree.Recordable := by
    refine ⟨by decide, trivial, ⟨⟨by decide, trivial, trivial⟩, ⟨trivial, trivial, trivial⟩,
      ⟨by decide, trivial⟩, trivial⟩, rfl, trivial, trivial⟩
  let root : Node := ⟨"MemberExpression", ⟨0, 3, 1, 1, 1, 4⟩,
    [("object", .node ⟨"Identifier", ⟨0, 1, 1, 1, 1, 2⟩, [("name", .str "a")]⟩),
      ("property", .node ⟨"Identifier", ⟨2, 3, 1, 3, 1, 4⟩, [("name", .str "b")]⟩),
      ("computed", .bool false)]⟩
  have hparse : parse "a.b" { rule := .expression } = .ok (root, []) := by decide +kernel
  exact ⟨(Node.record_roundtrip.1 mixedTree hmixed).1, root, hparse,
    Node.record_roundtrip.2 _ _ _ _ hparse⟩

/-- A node with a field that is named like a part of the span. -/
def lineField : Node := ⟨"Foo", {}, [("line", .int 5)]⟩

/-- Such a field is written, and is not dropped with the header, but the record cannot be read. -/
theorem not_ofRecord_lineField :
    (lineField.fields.all fun f => !isReservedKey f.1) = true ∧
      List.lookup "line" lineField.toRecord = some (.int 5) ∧
        Node.ofRecord lineField.toRecord = .error .wrongType := by
  have hrecord : lineField.toRecord =
      Node.header lineField.kind lineField.span ++ fieldsToRecords lineField.fields := by
    decide +kernel
  have hread := fieldsOfRecords_fieldsToRecords lineField.fields ⟨trivial, trivial⟩ (by decide)
  refine ⟨by decide, by decide +kernel, ?_⟩
  rw [hrecord, Node.ofRecord_header hread]
  rfl

end MonkeyFormat
