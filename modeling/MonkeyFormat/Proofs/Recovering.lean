import MonkeyFormat.Proofs.AlikeSources
import MonkeyFormat.Tree.Comparison

set_option autoImplicit false

/-! # Whole numbers are recovered

A parsed literal that is spelled like a whole number holds that number. So whatever takes the
place of such values, other than whole numbers, recovering puts back exactly what was there, and
counts what it puts back: it comes by every literal, because all nodes of a parsed tree are
children, and leaves everything else alone. -/

namespace MonkeyFormat

/-! ## Lost values -/

mutual

/-- The second tree is the first one but for `k` literals that are spelled like whole numbers:
these hold values that are none. -/
inductive Node.Damaged : Nat → Node → Node → Prop where
  | lost {n : Node} {raw : String} {v : Value} (hkind : n.kind = "Literal")
      (hraw : n.get "raw" = .str raw) (hshape : Literal.isWholeShaped raw = true)
      (hv : ∀ i, v ≠ .int i) : Node.Damaged 1 n (n.set "value" v)
  | fields {kind : String} {span : Span} {fs gs : List (String × Value)} {k : Nat}
      (h : fieldsDamaged k fs gs) : Node.Damaged k ⟨kind, span, fs⟩ ⟨kind, span, gs⟩

/-- The values are the same but for `k` literals in them. -/
inductive Value.Damaged : Nat → Value → Value → Prop where
  | node {n m : Node} {k : Nat} (h : n.Damaged k m) : Value.Damaged k (.node n) (.node m)
  | list {vs ws : List Value} {k : Nat} (h : itemsDamaged k vs ws) :
      Value.Damaged k (.list vs) (.list ws)
  | other {v : Value} (hnode : v.isNode = false) (hlist : v.isList = false) : Value.Damaged 0 v v

/-- The lists are the same but for `k` literals in their elements. -/
inductive itemsDamaged : Nat → List Value → List Value → Prop where
  | nil : itemsDamaged 0 [] []
  | cons {v w : Value} {vs ws : List Value} {j k : Nat} (hfirst : v.Damaged j w)
      (hrest : itemsDamaged k vs ws) : itemsDamaged (j + k) (v :: vs) (w :: ws)

/-- The fields are the same but for `k` literals in their values. -/
inductive fieldsDamaged : Nat → List (String × Value) → List (String × Value) → Prop where
  | nil : fieldsDamaged 0 [] []
  | cons {name : String} {v w : Value} {fs gs : List (String × Value)} {j k : Nat}
      (hfirst : v.Damaged j w) (hrest : fieldsDamaged k fs gs) :
      fieldsDamaged (j + k) ((name, v) :: fs) ((name, w) :: gs)

end

mutual

/-- Nothing is lost in the tree itself. -/
theorem Node.Damaged.refl (n : Node) : n.Damaged 0 n := by
  match n with
  | ⟨_, _, fs⟩ => exact .fields (fieldsDamaged_refl fs)

theorem Value.Damaged.refl (v : Value) : v.Damaged 0 v := by
  match v with
  | .node n => exact .node (Node.Damaged.refl n)
  | .list vs => exact .list (itemsDamaged_refl vs)
  | .null | .bool _ | .int _ | .float _ | .str _ | .dict _ => exact .other rfl rfl

theorem itemsDamaged_refl (vs : List Value) : itemsDamaged 0 vs vs := by
  match vs with
  | [] => exact .nil
  | v :: vs => exact .cons (Value.Damaged.refl v) (itemsDamaged_refl vs)

theorem fieldsDamaged_refl (fs : List (String × Value)) : fieldsDamaged 0 fs fs := by
  match fs with
  | [] => exact .nil
  | (_, v) :: fs => exact .cons (Value.Damaged.refl v) (fieldsDamaged_refl fs)

end

/-! ## Fields that hold no nodes -/

theorem itemsDamaged_eq {vs ws : List Value} {k : Nat} (h : itemsDamaged k vs ws)
    (hvs : ∀ v ∈ vs, v.isNode = false ∧ v.isList = false) : ws = vs ∧ k = 0 := by
  induction vs generalizing ws k with
  | nil =>
    cases h
    exact ⟨rfl, rfl⟩
  | cons v vs ih =>
    cases h with
    | cons hfirst hrest =>
      obtain ⟨rfl, rfl⟩ := ih hrest fun v hv => hvs v (List.mem_cons_of_mem _ hv)
      have hv := hvs v List.mem_cons_self
      cases hfirst with
      | node _ => cases hv.1
      | list _ => cases hv.2
      | other _ _ => exact ⟨rfl, rfl⟩

theorem itemsPlain_isList {vs : List Value} (h : itemsPlain vs) : ∀ v ∈ vs, v.isList = false := by
  induction vs with
  | nil => exact fun _ hv => absurd hv List.not_mem_nil
  | cons v vs ih =>
    intro w hw
    rcases List.mem_cons.1 hw with rfl | hw
    · exact h.1
    · exact ih h.2.2 w hw

/-- Nothing is lost where there are no nodes. -/
theorem Value.Damaged.eq_of_holdsNode {v w : Value} {k : Nat} (h : v.Damaged k w) (hv : v.Plain)
    (hnone : v.holdsNode = false) : w = v ∧ k = 0 := by
  cases h with
  | node _ => cases hnone
  | list h =>
    have hnode := List.any_eq_false.1 hnone
    obtain ⟨rfl, rfl⟩ := itemsDamaged_eq h fun v hmem =>
      ⟨Bool.eq_false_iff.2 (hnode v hmem), itemsPlain_isList hv v hmem⟩
    exact ⟨rfl, rfl⟩
  | other _ _ => exact ⟨rfl, rfl⟩

/-! ## A single literal -/

theorem Fields.insert_insert (fs : Fields) (name : String) (v w : Value) :
    Fields.insert (Fields.insert fs name v) name w = Fields.insert fs name w := by
  induction fs with
  | nil => simp [Fields.insert]
  | cons f fs ih =>
    rw [Fields.insert, Fields.insert]
    split
    · next heq => simp [Fields.insert, heq]
    · next hne => rw [Fields.insert, if_neg hne, ih]

theorem Fields.insert_eq_self {fs : Fields} {name : String} {v : Value}
    (h : fs.lookup name = some v) : Fields.insert fs name v = fs := by
  induction fs with
  | nil => cases h
  | cons f fs ih =>
    obtain ⟨k, w⟩ := f
    rw [Fields.lookup_cons] at h
    rw [Fields.insert]
    by_cases hk : k = name
    · rw [if_pos hk.symm] at h
      cases h
      rw [if_pos hk]
    · rw [if_neg (Ne.symm hk)] at h
      rw [if_neg hk, ih h]

namespace Literal

/-- The value of a literal is put back in its place. -/
theorem recoverNode_lost {n : Node} (hkept : Kept n) {raw : String} {v : Value}
    (hkind : n.kind = "Literal") (hraw : n.get "raw" = .str raw)
    (hshape : isWholeShaped raw = true) (hv : ∀ i, v ≠ .int i) :
    recoverNode (n.set "value" v) = .ok (n, 1) := by
  obtain ⟨i, hvalue, hread⟩ := hkept hkind raw hraw hshape
  have hlost : lostText? (n.set "value" v) = some raw := by
    have hkind' : (n.set "value" v).kind = "Literal" := hkind
    have hraw' : (n.set "value" v).get "raw" = .str raw := by
      rw [Node.get_set, if_neg (by decide), hraw]
    have hvalue' : (n.set "value" v).get "value" = v := by rw [Node.get_set, if_pos rfl]
    unfold lostText?
    rw [hkind', hraw', hvalue']
    cases v with
    | int i => exact absurd rfl (hv i)
    | _ => exact if_pos hshape
  have hback : (n.set "value" v).set "value" (.int i) = n := by
    obtain ⟨kind, span, fs⟩ := n
    have hlookup : fs.lookup "value" = some (.int i) := by
      change (fs.lookup "value").getD .null = .int i at hvalue
      cases hfound : fs.lookup "value" with
      | none =>
        rw [hfound] at hvalue
        cases hvalue
      | some w =>
        rw [hfound] at hvalue
        exact congrArg some hvalue
    change (⟨kind, span, Fields.insert (Fields.insert fs "value" v) "value" (.int i)⟩ : Node) = _
    rw [Fields.insert_insert, Fields.insert_eq_self hlookup]
  unfold recoverNode
  rw [hlost]
  simp only [hread]
  change Except.ok ((n.set "value" v).set "value" (.int i), 1) = _
  rw [hback]

/-- Where there are no children, there is nothing to recover. -/
theorem recoverFields_nil (fs : Fields) : recoverFields [] fs = .ok (fs, 0) := by
  induction fs with
  | nil =>
    rw [recoverFields]
    rfl
  | cons f fs ih =>
    rw [recoverFields, ih]
    rfl

/-- Whatever value a literal has lost, recovering it alone is recovering the tree. -/
theorem recover_literal {n : Node} (hkind : n.kind = "Literal") : recover n = recoverNode n := by
  obtain ⟨kind, span, fs⟩ := n
  obtain rfl : kind = "Literal" := hkind
  have hkeys : Node.childKeys ⟨"Literal", span, fs⟩ = [] := rfl
  rw [recover, hkeys, recoverFields_nil]
  change (recoverNode ⟨"Literal", span, fs⟩ >>= fun r => pure (r.1, r.2 + 0)) = _
  cases recoverNode ⟨"Literal", span, fs⟩ with
  | error e => rfl
  | ok r => rfl

/-! ## Whole trees -/

mutual

/-- From a damaged tree the plain one is recovered. -/
theorem recover_damaged (n : Node) (hn : n.Plain) {m : Node} {k : Nat} (h : n.Damaged k m) :
    recover m = .ok (n, k) := by
  match n, hn, h with
  | n, hn, .lost hkind hraw hshape hv =>
    rw [recover_literal (show (n.set "value" _).kind = "Literal" from hkind)]
    obtain ⟨kind, span, fs⟩ := n
    exact recoverNode_lost hn.2.1 hkind hraw hshape hv
  | ⟨kind, span, fs⟩, hn, @Node.Damaged.fields _ _ _ gs _ hfields =>
    obtain ⟨hproper, hkept, hplain⟩ := hn
    obtain ⟨keys, hkeys, hall⟩ := childFields_of_properFields hproper
    have hchild : Node.childKeys ⟨kind, span, gs⟩ = keys := by
      rw [Node.childKeys, hkeys]
      rfl
    rw [recover, hchild, recoverFields_damaged keys fs hplain hall hfields]
    change (do
      let (n, here) ← recoverNode ⟨kind, span, fs⟩
      pure (n, here + k)) = _
    rw [recoverNode, hkept.lostText?]
    change Except.ok (_, 0 + k) = _
    rw [Nat.zero_add]
termination_by structural n

theorem recoverFields_damaged (keys : List String) (fs : List (String × Value))
    (hfs : fieldsPlain fs) (hall : ∀ f ∈ fs, f.1 ∈ keys ∨ f.2.holdsNode = false)
    {gs : List (String × Value)} {k : Nat} (h : fieldsDamaged k fs gs) :
    recoverFields keys gs = .ok (fs, k) := by
  match fs, hfs, hall, h with
  | _, _, _, .nil =>
    rw [recoverFields]
    rfl
  | (name, v) :: fs, hfs, hall, .cons (w := w) (j := j) hfirst hrest =>
    have hbelow := recoverFields_damaged keys fs hfs.2
      (fun f hf => hall f (List.mem_cons_of_mem _ hf)) hrest
    rw [recoverFields]
    by_cases hkey : keys.contains name = true
    · rw [if_pos hkey, recoverValue_damaged v hfs.1 hfirst, hbelow]
      rfl
    · have hname : name ∉ keys := by simpa using hkey
      have hnone := (hall (name, v) List.mem_cons_self).resolve_left hname
      obtain ⟨rfl, rfl⟩ := hfirst.eq_of_holdsNode hfs.1 hnone
      rw [if_neg hkey, hbelow]
      rfl
termination_by structural fs

theorem recoverValue_damaged (v : Value) (hv : v.Plain) {w : Value} {k : Nat}
    (h : v.Damaged k w) : recoverValue w = .ok (v, k) := by
  match v, hv, h with
  | .node n, hv, .node hn =>
    rw [recoverValue, recover_damaged n hv hn]
    rfl
  | .list vs, hv, .list hvs =>
    rw [recoverValue, recoverItems_damaged vs hv hvs]
    rfl
  | v, _, .other hnode hlist =>
    cases v with
    | node n => cases hnode
    | list vs => cases hlist
    | _ =>
      simp only [recoverValue]
      rfl
termination_by structural v

theorem recoverItems_damaged (vs : List Value) (hvs : itemsPlain vs) {ws : List Value} {k : Nat}
    (h : itemsDamaged k vs ws) : recoverItems ws = .ok (vs, k) := by
  match vs, hvs, h with
  | _, _, .nil =>
    rw [recoverItems]
    rfl
  | .node n :: vs, hvs, .cons (.node hn) hrest =>
    rw [recoverItems, recover_damaged n hvs.2.1 hn, recoverItems_damaged vs hvs.2.2 hrest]
    rfl
  | .list _ :: _, hvs, .cons _ _ => cases hvs.1
  | v :: vs, hvs, .cons (.other hnode hlist) hrest =>
    have hbelow := recoverItems_damaged vs hvs.2.2 hrest
    cases v with
    | node n => cases hnode
    | list vs => cases hlist
    | _ =>
      simp only [recoverItems, hbelow]
      simp [bind, Except.bind, pure, Except.pure]
termination_by structural vs

end

/-- Nothing is recovered in a plain tree. -/
theorem recover_plain (n : Node) (h : n.Plain) : recover n = .ok (n, 0) :=
  recover_damaged n h (.refl n)

/-- From a parsed tree in which the values of any literals that are spelled like whole numbers
were replaced, by values that are no whole numbers, recovering gives back the parsed tree and the
number of these literals. Nothing is left to recover then. -/
theorem recover_parsed {source : String} {o : Options} {root damaged : Node}
    {comments : List Comment} {k : Nat} (h : parse source o = .ok (root, comments))
    (hdamaged : root.Damaged k damaged) :
    recover damaged = .ok (root, k) ∧ recover root = .ok (root, 0) := by
  have hplain := parse_plain h
  exact ⟨recover_damaged root hplain hdamaged, recover_plain root hplain⟩

/-- The tree of `[1, 0xAl, 2.5]` with given values for the numbers. -/
def numbersWith (v w x : Value) : Node :=
  ⟨"ArrayExpression", ⟨0, 14, 1, 1, 1, 15⟩,
    [("elements", .list [
        .node ⟨"Literal", ⟨1, 2, 1, 2, 1, 3⟩, [("value", v), ("raw", .str "1")]⟩,
        .node ⟨"Literal", ⟨4, 8, 1, 5, 1, 9⟩, [("value", w), ("raw", .str "0xAl")]⟩,
        .node ⟨"Literal", ⟨10, 13, 1, 11, 1, 14⟩, [("value", x), ("raw", .str "2.5")]⟩]),
      ("byte", .null)]⟩

theorem recover_numbers :
    let x := .float ⟨0x4004000000000000⟩
    recover (numbersWith (.str "x") (.float .nan) x) =
      .ok (numbersWith (.int 1) (.int 10) x, 2) := by
  intro x
  have hparse : parse "[1, 0xAl, 2.5]" { rule := .expression } =
      .ok (numbersWith (.int 1) (.int 10) x, []) := by decide +kernel
  have hfirst :
      Node.Damaged 1 ⟨"Literal", ⟨1, 2, 1, 2, 1, 3⟩, [("value", .int 1), ("raw", .str "1")]⟩
      ⟨"Literal", ⟨1, 2, 1, 2, 1, 3⟩, [("value", .str "x"), ("raw", .str "1")]⟩ :=
    .lost rfl rfl (by decide +kernel) nofun
  have hsecond : Node.Damaged 1
      ⟨"Literal", ⟨4, 8, 1, 5, 1, 9⟩, [("value", .int 10), ("raw", .str "0xAl")]⟩
      ⟨"Literal", ⟨4, 8, 1, 5, 1, 9⟩, [("value", .float .nan), ("raw", .str "0xAl")]⟩ :=
    .lost rfl rfl (by decide +kernel) nofun
  have hdamaged : (numbersWith (.int 1) (.int 10) x).Damaged 2
      (numbersWith (.str "x") (.float .nan) x) :=
    .fields (.cons (.list (.cons (.node hfirst) (.cons (.node hsecond)
      (itemsDamaged_refl _)))) (fieldsDamaged_refl _))
  exact (recover_parsed hparse hdamaged).1

end Literal

end MonkeyFormat
