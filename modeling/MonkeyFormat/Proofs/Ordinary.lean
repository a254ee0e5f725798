import MonkeyFormat.Proofs.Addresses
import MonkeyFormat.Proofs.AlikeSources
import MonkeyFormat.Proofs.Rewriting

set_option autoImplicit false

/-! # Trees that can be made explicit

The pass that makes parentheses explicit fails where it has to look up an operator that no table
can hold, and where it has to copy a node that has a field named like a part of its span, or with a
change of a certain field. Neither happens in a tree of known kinds whose operators are texts and
whose fields have other names, such as every tree that comes from a source. -/

namespace MonkeyFormat

namespace Node

variable {n c : Node}

theorem mem_walk_self (n : Node) : n ∈ n.walk := by
  rw [walk_eq]
  exact List.mem_cons_self

theorem mem_walk_of_child {m : Node} (hc : c ∈ n.children) (hm : m ∈ c.walk) : m ∈ n.walk := by
  rw [walk_eq]
  exact List.mem_cons_of_mem n (List.mem_flatMap.2 ⟨c, hc, hm⟩)

/-- The children are the nodes in the fields for children. -/
theorem mem_children : c ∈ n.children ↔ ∃ key ∈ n.childKeys, c ∈ (n.get key).held := by
  rw [children_eq, List.mem_flatMap]

/-- What holds of a node if it holds of its children holds of every node. -/
theorem children_induction {motive : Node → Prop}
    (step : ∀ n, (∀ c ∈ n.children, motive c) → motive n) (n : Node) : motive n :=
  step n fun c _ => children_induction step c
termination_by sizeOf n
decreasing_by exact sizeOf_lt_of_mem_children ‹_›

/-- What holds of every node on the walk, node by node. -/
theorem forall_walk_iff {Q : Node → Prop} :
    (∀ m ∈ n.walk, Q m) ↔ Q n ∧ ∀ c ∈ n.children, ∀ m ∈ c.walk, Q m := by
  rw [walk_eq, List.forall_mem_cons]
  simp only [List.mem_flatMap]
  exact ⟨fun h => ⟨h.1, fun c hc m hm => h.2 m ⟨c, hc, hm⟩⟩,
    fun h => ⟨h.1, fun m ⟨c, hc, hm⟩ => h.2 c hc m hm⟩⟩

/-- The children of what is met on the walk are met on it, too. -/
theorem mem_walk_of_mem_children {m : Node} (hm : m ∈ n.walk) (hc : c ∈ m.children) :
    c ∈ n.walk := by
  induction n using children_induction with
  | step n ih =>
    rw [walk_eq, List.mem_cons, List.mem_flatMap] at hm
    rcases hm with rfl | ⟨d, hd, hm⟩
    · exact mem_walk_of_child hc (mem_walk_self c)
    · exact mem_walk_of_child hd (ih d hd hm)

theorem Shaped.children {P : Node → Prop} (h : n.Shaped P) : ∀ c ∈ n.children, c.Shaped P := by
  intro c hc
  obtain ⟨s, hs, rfl⟩ := List.mem_map.1 hc
  exact h.slots s hs

theorem Shaped.walk {P : Node → Prop} (h : n.Shaped P) : ∀ m ∈ n.walk, m.Shaped P := by
  induction n using children_induction with
  | step n ih => exact forall_walk_iff.2 ⟨h, fun c hc => ih c hc (h.children c hc)⟩

end Node

/-! ## Plain trees -/

theorem Value.Plain.held {v : Value} (h : v.Plain) : ∀ c ∈ v.held, c.Plain := by
  cases v with
  | node c =>
    rw [Value.held_node, List.forall_mem_singleton]
    exact h
  | list vs =>
    rw [Value.Plain] at h
    induction vs with
    | nil => exact fun c hc => absurd hc List.not_mem_nil
    | cons v vs ih =>
      cases v with
      | node c =>
        rw [Value.held_cons_node, List.forall_mem_cons]
        exact ⟨h.2.1, ih h.2.2⟩
      | _ => exact ih h.2.2
  | _ => simp [Value.held]

theorem fieldsPlain_iff {fs : Fields} : fieldsPlain fs ↔ ∀ f ∈ fs, f.2.Plain := by
  induction fs with
  | nil => simp [fieldsPlain]
  | cons f fs ih => rw [fieldsPlain, ih, List.forall_mem_cons]

theorem Node.Plain.children {n : Node} (h : n.Plain) : ∀ c ∈ n.children, c.Plain := by
  intro c hc
  obtain ⟨key, -, hc⟩ := Node.mem_children.1 hc
  rcases n.get_mem key with hnull | hmem
  · rw [hnull] at hc
    cases hc
  · cases n
    exact (fieldsPlain_iff.1 h.2.2 _ hmem).held c hc

/-- The fields of a plain node have names of their own. -/
theorem Node.Plain.names {n : Node} (h : n.Plain) :
    (n.fields.map Prod.fst).Nodup ∧ ∀ f ∈ n.fields, isSpanName f.1 = false := by
  cases n
  have hnames := properNames_of_properFields h.1
  rw [properNames, Bool.and_eq_true, decide_eq_true_eq, List.all_eq_true] at hnames
  refine ⟨hnames.1, fun f hf => ?_⟩
  have hproper := hnames.2 f.1 (List.mem_map_of_mem hf)
  rw [Bool.and_eq_true, Bool.not_eq_true', Bool.not_eq_true'] at hproper
  exact hproper.2

namespace Parentheses

variable {n : Node}

/-- No two fields of the node have one name; each child that is an operation can be judged under the
node; and if the pass changes one of its fields, it can be copied. -/
structure Rewritable (n : Node) : Prop where
  once : (n.fields.map Prod.fst).Nodup
  ranked : ∀ key ∈ n.childKeys, (n.get key).node?.any (unranked · n) = false
  copies : (explicit n).changed = true → Copies n

instance (n : Node) : Decidable (Rewritable n) :=
  decidable_of_iff ((n.fields.map Prod.fst).Nodup ∧
    (∀ key ∈ n.childKeys, (n.get key).node?.any (unranked · n) = false) ∧
    ((explicit n).changed = true → Copies n)) ⟨fun ⟨once, ranked, copies⟩ => ⟨once, ranked, copies⟩,
      fun h => ⟨h.once, h.ranked, h.copies⟩⟩

/-- The pass returns of every tree of such nodes. -/
theorem runs_of_rewritable (h : ∀ m ∈ n.walk, Rewritable m) : Runs n := by
  induction n using Node.children_induction with
  | step n ih =>
    obtain ⟨hn, hbelow⟩ := Node.forall_walk_iff.1 h
    refine runs_iff.2 ⟨fun f hf hkey => ?_, hn.copies⟩
    have hget := Node.get_of_mem hn.once hf
    constructor
    · intro c hc
      have hchild := Node.mem_children.2 ⟨f.1, hkey, hget ▸ hc⟩
      exact ih c hchild (hbelow c hchild)
    · intro c hc
      have hranked := hn.ranked f.1 hkey
      rw [hget, hc] at hranked
      exact hranked

/-- Of other trees it does not return, as long as no two fields of a node have one name. -/
theorem runs_iff_rewritable (honce : ∀ m ∈ n.walk, (m.fields.map Prod.fst).Nodup) :
    Runs n ↔ ∀ m ∈ n.walk, Rewritable m := by
  refine ⟨fun hruns => ?_, runs_of_rewritable⟩
  induction n using Node.children_induction with
  | step n ih =>
    -- the pass has returned of each child, so the conditions hold from the leaves up
    obtain ⟨hn, hbelow⟩ := Node.forall_walk_iff.1 honce
    refine Node.forall_walk_iff.2 ⟨⟨hn, fun key hkey => ?_, (runs_iff.1 hruns).2⟩, fun c hc => ?_⟩
    · cases hnode : n.get key with
      | node c => exact (hruns.judged hkey).ranked c hnode
      | _ => rfl
    · obtain ⟨key, hkey, hheld⟩ := Node.mem_children.1 hc
      exact ih c hc (hbelow c hc) ((hruns.judged hkey).runs c hheld)

/-! ## Ordinary nodes -/

/-- A node of a known kind, whose operator can be looked up if it joins two operands, and whose
fields have names of their own. -/
structure Ordinary (n : Node) : Prop where
  known : (childFields? n.kind).isSome
  operator : n.kind = "BinaryExpression" → (n.get "operator").isHashable = true
  once : (n.fields.map Prod.fst).Nodup
  free : ∀ f ∈ n.fields, isSpanName f.1 = false

theorem Ordinary.of_names (names : List String) (hnames : n.fields.map Prod.fst = names)
    (hproper : names.Nodup ∧ ∀ name ∈ names, isSpanName name = false)
    (known : (childFields? n.kind).isSome)
    (operator : n.kind = "BinaryExpression" → (n.get "operator").isHashable = true) :
    Ordinary n where
  known := known
  operator := operator
  once := hnames ▸ hproper.1
  free := List.forall_mem_map.1 (hnames ▸ hproper.2)

/-- No known kind has a child in the field that no copy can change. -/
theorem self_not_mem_childFields {kind : String} {keys : List String}
    (h : childFields? kind = some keys) : "self" ∉ keys := by
  unfold childFields? at h
  split at h
  case h_54 => cases h
  all_goals
    cases h
    decide

theorem Ordinary.copies (h : Ordinary n) : Copies n where
  once := h.once
  free := h.free
  self hself := by
    obtain ⟨keys, hkeys⟩ := Option.isSome_iff_exists.1 h.known
    have hchild := names_changes n hself
    rw [Node.childKeys, hkeys] at hchild
    exact self_not_mem_childFields hkeys hchild

theorem Ordinary.rewritable (h : Ordinary n) (hbelow : ∀ c ∈ n.children, Ordinary c) :
    Rewritable n where
  once := h.once
  copies _ := h.copies
  ranked key hkey := by
    cases hget : n.get key with
    | node c =>
      have hheld : c ∈ (n.get key).held := hget ▸ List.mem_singleton_self c
      have hc := hbelow c (Node.mem_children.2 ⟨key, hkey, hheld⟩)
      change unranked c n = false
      by_cases hkinds : c.kind = "BinaryExpression" ∧ n.kind = "BinaryExpression"
      · simp [unranked, hc.operator hkinds.1, h.operator hkinds.2]
      · rw [unranked]
        grind
    | _ => rfl

/-- The pass makes its tree of ordinary nodes without a fault. -/
theorem run_of_ordinary (h : ∀ m ∈ n.walk, Ordinary m) : run n = .ok (explicit n) :=
  (runs_of_rewritable fun m hm => (h m hm).rewritable fun c hc =>
    h c (Node.mem_walk_of_mem_children hm hc)).run_eq

/-- A plain node of some shape is ordinary. -/
theorem ordinary_of_shaped {P : Node → Prop} (h : n.Shaped P) (hplain : n.Plain) : Ordinary n := by
  obtain ⟨honce, hfree⟩ := hplain.names
  cases h with
  | intro _ types known here fits number =>
    refine ⟨by rw [(childFields_of_fieldTypes known).1]; rfl, fun hkind => ?_, honce, hfree⟩
    rw [hkind] at known
    cases known
    obtain ⟨s, hs⟩ := (fits ("operator", .text) List.mem_cons_self).eq_str
    rw [hs]
    rfl

theorem ordinary_walk {P : Node → Prop} (h : n.Shaped P) (hplain : n.Plain) :
    ∀ m ∈ n.walk, Ordinary m := by
  induction n using Node.children_induction with
  | step n ih =>
    refine Node.forall_walk_iff.2 ⟨ordinary_of_shaped h hplain, fun c hc => ?_⟩
    exact ih c hc (h.children c hc) (hplain.children c hc)

/-- All nodes of the tree of a source are ordinary. -/
theorem ordinary_of_parse {source : String} {o : Options} {root : Node} {comments : List Comment}
    (h : parse source o = .ok (root, comments)) : ∀ m ∈ root.walk, Ordinary m :=
  ordinary_walk (parse_clear h).1 (parse_plain h)

/-- The pass makes its tree of that of a source without a fault. -/
theorem run_of_parse {source : String} {o : Options} {root : Node} {comments : List Comment}
    (h : parse source o = .ok (root, comments)) : run root = .ok (explicit root) :=
  run_of_ordinary (ordinary_of_parse h)

end Parentheses

end MonkeyFormat
