import MonkeyFormat.Proofs.Effects
import MonkeyFormat.Proofs.ExplicitShape
import MonkeyFormat.Proofs.SpanNesting
import Mathlib.Data.List.Nodup

set_option autoImplicit false

/-! # What the pass returns

The pass that makes parentheses explicit collects the changes of the fields of a node and copies the
node with them. Where no fault ends it, it returns what is told without faults and copies. It
returns exactly where each node that it meets can be judged under its parent, and copied if one of
its fields changes. -/

namespace MonkeyFormat

/-! ## Fields with changes put in -/

namespace Fields

variable {fs gs cs : Fields} {name key : String} {v : Value}

theorem isSome_lookup : (fs.lookup key).isSome = true ↔ key ∈ fs.map Prod.fst := by
  rw [List.lookup_isSome_iff, List.mem_map]
  exact ⟨fun ⟨f, hf, heq⟩ => ⟨f, hf, (beq_iff_eq.1 heq).symm⟩,
    fun ⟨f, hf, heq⟩ => ⟨f, hf, beq_iff_eq.2 heq.symm⟩⟩

theorem lookup_eq_none_of_not_mem (h : key ∉ fs.map Prod.fst) : fs.lookup key = none := by
  rwa [← isSome_lookup, Option.not_isSome_iff_eq_none] at h

/-- Fields with the same names in order that hold the same are the same. -/
theorem ext_lookup (hnames : gs.map Prod.fst = fs.map Prod.fst) (hnodup : (fs.map Prod.fst).Nodup)
    (h : ∀ key, gs.lookup key = fs.lookup key) : gs = fs := by
  induction fs generalizing gs with
  | nil => exact List.map_eq_nil_iff.1 hnames
  | cons f fs ih =>
    cases gs with
    | nil => cases hnames
    | cons g gs =>
      obtain ⟨k, w⟩ := f
      obtain ⟨k', w'⟩ := g
      rw [List.map_cons, List.map_cons, List.cons_eq_cons] at hnames
      obtain ⟨hk, hnames⟩ := hnames
      dsimp only at hk
      subst hk
      rw [List.map_cons, List.nodup_cons] at hnodup
      -- under the first name both have their first value, and no other field has that name
      have hhead := h k'
      rw [lookup_cons, lookup_cons, if_pos rfl, if_pos rfl] at hhead
      rw [Option.some.inj hhead, ih hnames hnodup.2 fun key => ?_]
      have htail := h key
      rw [lookup_cons, lookup_cons] at htail
      by_cases hkey : key = k'
      · subst hkey
        rw [lookup_eq_none_of_not_mem hnodup.1, lookup_eq_none_of_not_mem (hnames ▸ hnodup.1)]
      · rwa [if_neg hkey, if_neg hkey] at htail

theorem names_insert_of_mem (v : Value) (h : name ∈ fs.map Prod.fst) :
    (insert fs name v).map Prod.fst = fs.map Prod.fst := by
  induction fs with
  | nil => cases h
  | cons f fs ih =>
    obtain ⟨k, w⟩ := f
    rw [insert]
    split
    · rfl
    · next hne =>
      rw [List.map_cons, List.mem_cons] at h
      rw [List.map_cons, List.map_cons, ih (h.resolve_left (Ne.symm hne))]

theorem names_insert_of_not_mem (v : Value) (h : name ∉ fs.map Prod.fst) :
    (insert fs name v).map Prod.fst = fs.map Prod.fst ++ [name] := by
  induction fs with
  | nil => rfl
  | cons f fs ih =>
    obtain ⟨k, w⟩ := f
    rw [List.map_cons, List.mem_cons, not_or] at h
    rw [insert, if_neg (Ne.symm h.1), List.map_cons, List.map_cons, ih h.2, List.cons_append]

theorem names_insert_subset (fs : Fields) (name : String) (v : Value) :
    (insert fs name v).map Prod.fst ⊆ name :: fs.map Prod.fst := by
  by_cases h : name ∈ fs.map Prod.fst
  · rw [names_insert_of_mem v h]
    exact List.subset_cons_self _ _
  · rw [names_insert_of_not_mem v h]
    simp

theorem names_sublist_insert (fs : Fields) (name : String) (v : Value) :
    List.Sublist (fs.map Prod.fst) ((insert fs name v).map Prod.fst) := by
  by_cases h : name ∈ fs.map Prod.fst
  · rw [names_insert_of_mem v h]
  · rw [names_insert_of_not_mem v h]
    exact List.sublist_append_left _ _

theorem names_sublist_insertAll (fs cs : Fields) :
    List.Sublist (fs.map Prod.fst) ((insertAll fs cs).map Prod.fst) := by
  induction cs generalizing fs with
  | nil => exact .refl _
  | cons c cs ih => exact (names_sublist_insert fs c.1 c.2).trans (ih _)

theorem names_insertAll (h : cs.map Prod.fst ⊆ fs.map Prod.fst) :
    (insertAll fs cs).map Prod.fst = fs.map Prod.fst := by
  induction cs generalizing fs with
  | nil => rfl
  | cons c cs ih =>
    rw [List.map_cons, List.cons_subset] at h
    have hnames := names_insert_of_mem c.2 h.1
    exact (ih (hnames ▸ h.2)).trans hnames

/-- The value under each name is that of the field, if no name repeats. -/
theorem lookup_of_mem (hnodup : (fs.map Prod.fst).Nodup) (h : (key, v) ∈ fs) :
    fs.lookup key = some v := by
  induction fs with
  | nil => cases h
  | cons f fs ih =>
    rw [List.map_cons, List.nodup_cons] at hnodup
    rw [lookup_cons]
    rcases List.mem_cons.1 h with rfl | h
    · rw [if_pos rfl]
    · have hne : key ≠ f.1 := fun heq => hnodup.1 (heq ▸ List.mem_map_of_mem h)
      rw [if_neg hne, ih hnodup.2 h]

/-- What is put in is found before what was there. -/
theorem lookup_insertAll (h : (cs.map Prod.fst).Nodup) (key : String) :
    (insertAll fs cs).lookup key = (cs.lookup key).or (fs.lookup key) := by
  induction cs generalizing fs with
  | nil => rfl
  | cons c cs ih =>
    obtain ⟨k, w⟩ := c
    rw [List.map_cons, List.nodup_cons] at h
    change (insertAll (insert fs k w) cs).lookup key = _
    rw [ih h.2, lookup_insert, lookup_cons]
    by_cases hkey : key = k
    · subst hkey
      rw [if_pos rfl, if_pos rfl, lookup_eq_none_of_not_mem h.1]
      rfl
    · rw [if_neg hkey, if_neg hkey]

/-- `gs` is `fs` with the changes `cs`, each of which is the change of a field. -/
structure Changed (fs cs gs : Fields) : Prop where
  names : gs.map Prod.fst = fs.map Prod.fst
  known : cs.map Prod.fst ⊆ fs.map Prod.fst
  once : (cs.map Prod.fst).Nodup
  lookup : ∀ key, gs.lookup key = (cs.lookup key).or (fs.lookup key)

theorem Changed.refl (fs : Fields) : Changed fs [] fs :=
  ⟨rfl, List.nil_subset _, List.nodup_nil, fun _ => rfl⟩

/-- Putting the changes in gives the changed fields. -/
theorem Changed.insertAll_eq (h : Changed fs cs gs) (hnodup : (fs.map Prod.fst).Nodup) :
    insertAll fs cs = gs := by
  apply ext_lookup
  · rw [names_insertAll h.known, h.names]
  · rwa [h.names]
  · intro key
    rw [lookup_insertAll h.once, h.lookup]

/-- A field that is kept. -/
theorem Changed.keep (h : Changed fs cs gs) (hname : name ∉ fs.map Prod.fst) (v : Value) :
    Changed ((name, v) :: fs) cs ((name, v) :: gs) where
  names := by rw [List.map_cons, List.map_cons, h.names]
  known := fun k hk => List.mem_cons_of_mem _ (h.known hk)
  once := h.once
  lookup key := by
    rw [lookup_cons, lookup_cons, h.lookup]
    by_cases hkey : key = name
    · subst hkey
      rw [lookup_eq_none_of_not_mem fun hmem => hname (h.known hmem)]
      rfl
    · rw [if_neg hkey, if_neg hkey]

/-- A field that is changed. -/
theorem Changed.change (h : Changed fs cs gs) (hname : name ∉ fs.map Prod.fst) (v w : Value) :
    Changed ((name, v) :: fs) ((name, w) :: cs) ((name, w) :: gs) where
  names := by rw [List.map_cons, List.map_cons, h.names]
  known := List.cons_subset_cons _ h.known
  once := List.nodup_cons.2 ⟨fun hmem => hname (h.known hmem), h.once⟩
  lookup key := by
    rw [lookup_cons, lookup_cons, lookup_cons, h.lookup]
    by_cases hkey : key = name
    · rw [if_pos hkey, if_pos hkey]
      rfl
    · rw [if_neg hkey, if_neg hkey, if_neg hkey]

/-- A field that is changed, perhaps once more. -/
theorem Changed.insert (h : Changed fs cs gs) (hname : name ∈ gs.map Prod.fst) (w : Value) :
    Changed fs (Fields.insert cs name w) (Fields.insert gs name w) where
  names := by rw [names_insert_of_mem w hname, h.names]
  known := by
    by_cases hmem : name ∈ cs.map Prod.fst
    · rw [names_insert_of_mem w hmem]
      exact h.known
    · rw [names_insert_of_not_mem w hmem]
      exact List.append_subset.2 ⟨h.known, by simpa [← h.names] using hname⟩
  once := by
    by_cases hmem : name ∈ cs.map Prod.fst
    · rw [names_insert_of_mem w hmem]
      exact h.once
    · rw [names_insert_of_not_mem w hmem]
      exact List.nodup_append'.2
        ⟨h.once, List.nodup_singleton name, List.disjoint_singleton.2 hmem⟩
  lookup key := by
    rw [lookup_insert, lookup_insert, h.lookup]
    split <;> rfl

end Fields

/-- What is found under a name is nothing, or the value of a field. -/
theorem Node.get_mem (n : Node) (key : String) :
    n.get key = .null ∨ (key, n.get key) ∈ n.fields := by
  rw [Node.get]
  cases hlookup : n.fields.lookup key with
  | none => exact .inl rfl
  | some v =>
    obtain ⟨before, after, hfields, _⟩ := List.lookup_eq_some_iff.1 hlookup
    simp [hfields]

theorem Value.held_cons_node (c : Node) (vs : List Value) :
    (Value.list (.node c :: vs)).held = c :: (Value.list vs).held := rfl

theorem Node.get_of_mem {n : Node} {f : String × Value} (honce : (n.fields.map Prod.fst).Nodup)
    (hf : f ∈ n.fields) : n.get f.1 = f.2 := by
  rw [Node.get, Fields.lookup_of_mem honce hf]
  rfl

namespace Parentheses

variable {n m : Node} {name : String}

/-! ## What says that it is unchanged is unchanged -/

theorem blockBodies_result {o : Outcome Node} (h : (blockBodies o).changed = false) :
    o.changed = false ∧ (blockBodies o).result = o.result := by
  rw [blockBodies, Bool.or_eq_false_iff, Bool.not_eq_false', List.isEmpty_iff] at h
  exact ⟨h.1, by rw [blockBodies, h.2]; rfl⟩

mutual

theorem explicit_result {n : Node} (h : (explicit n).changed = false) :
    (explicit n).result = n := by
  match n with
  | ⟨kind, span, fields⟩ =>
    rw [explicit] at h ⊢
    obtain ⟨hfields, hresult⟩ := blockBodies_result h
    rw [hresult, explicitFields_result hfields]

theorem explicitFields_result {parent : Node} {keys : List String} {fs : List (String × Value)}
    (h : (explicitFields parent keys fs).changed = false) :
    (explicitFields parent keys fs).result = fs := by
  match fs with
  | [] => rfl
  | (k, v) :: fs =>
    rw [explicitFields, Bool.or_eq_false_iff] at h
    rw [explicitFields_cons, explicitFields_result h.2]
    split
    · next hkey =>
      rw [if_pos hkey] at h
      rw [explicitValue_result h.1]
    · rfl

theorem explicitValue_result {parent : Node} {key : String} {v : Value}
    (h : (explicitValue parent key v).changed = false) :
    (explicitValue parent key v).result = v := by
  match v with
  | .node c =>
    rw [explicitValue, wrapUnder] at h ⊢
    split at h
    · cases h
    · next hneeded => rw [if_neg hneeded, explicit_result h]
  | .list vs =>
    rw [explicitValue] at h ⊢
    rw [explicitItems_result h]
  | .null | .bool _ | .int _ | .float _ | .str _ | .dict _ => rfl

theorem explicitItems_result {vs : List Value} (h : (explicitItems vs).changed = false) :
    (explicitItems vs).result = vs := by
  match vs with
  | [] => rfl
  | .node c :: vs =>
    rw [explicitItems, Bool.or_eq_false_iff] at h
    rw [explicitItems, explicit_result h.1, explicitItems_result h.2]
  | .null :: vs | .bool _ :: vs | .int _ :: vs | .float _ :: vs | .str _ :: vs | .list _ :: vs
  | .dict _ :: vs =>
    simp only [explicitItems] at h ⊢
    rw [explicitItems_result h]

end

/-! ## The changes that are collected -/

/-- The change of a field, if it holds children and the pass changes them. -/
def fieldChange (parent : Node) (keys : List String) (f : String × Value) :
    Option (String × Value) :=
  if keys.contains f.1 && (explicitValue parent f.1 f.2).changed then
    some (f.1, (explicitValue parent f.1 f.2).result)
  else none

/-- The changes of the fields that hold children. -/
def childChanges (parent : Node) (keys : List String) (fs : Fields) : Fields :=
  fs.filterMap (fieldChange parent keys)

/-- All changes of the fields of a node, with the blocks of its bodies. -/
def changes (n : Node) : Fields :=
  (bodyFields n.kind).foldl (blockChange n) (childChanges n n.childKeys n.fields)

/-- The outcome of going through the fields: their changes, and what is told of them. -/
def collected (parent : Node) (keys : List String) (fs : Fields) : Outcome Fields :=
  ⟨childChanges parent keys fs, (explicitFields parent keys fs).changed,
    (explicitFields parent keys fs).wrapped⟩

theorem explicitFields_changed (parent : Node) (keys : List String) (fs : Fields) :
    (explicitFields parent keys fs).changed = !(childChanges parent keys fs).isEmpty := by
  induction fs with
  | nil => rfl
  | cons f fs ih =>
    obtain ⟨k, v⟩ := f
    rw [explicitFields, ih, childChanges, childChanges, List.filterMap_cons, fieldChange]
    cases hkey : keys.contains k <;> cases hchanged : (explicitValue parent k v).changed <;>
      simp [hchanged]

/-- The fields that the pass makes are the given ones with the changes of those that hold
children. -/
theorem changed_childChanges (parent : Node) (keys : List String) {fs : Fields}
    (h : (fs.map Prod.fst).Nodup) : Fields.Changed fs (childChanges parent keys fs)
      (explicitFields parent keys fs).result := by
  induction fs with
  | nil => exact .refl []
  | cons f fs ih =>
    obtain ⟨k, v⟩ := f
    rw [List.map_cons, List.nodup_cons] at h
    rw [explicitFields_cons, childChanges, List.filterMap_cons, fieldChange]
    cases hkey : keys.contains k with
    | false => exact (ih h.2).keep h.1 v
    | true =>
      cases hchanged : (explicitValue parent k v).changed with
      | false =>
        rw [explicitValue_result hchanged]
        exact (ih h.2).keep h.1 v
      | true => exact (ih h.2).change h.1 v _

/-! ## Blocks among the changes -/

theorem blockField_of_not_needsBlock (h : needsBlock n name = false) : blockField n name = n := by
  unfold needsBlock at h
  unfold blockField
  split
  · split
    · rfl
    · next s hget hnot => simp_all
  · rfl

theorem foldl_blockField_filter {names : List String} (h : names.Nodup) (n : Node) :
    (names.filter (needsBlock n)).foldl blockField n = names.foldl blockField n := by
  induction names generalizing n with
  | nil => rfl
  | cons name names ih =>
    rw [List.nodup_cons] at h
    rw [List.foldl_cons, ← ih h.2, List.filter_cons]
    split
    · rw [List.foldl_cons]
      congr 1
      -- a block under this name changes nothing under the names to come
      refine List.filter_congr fun other hother => ?_
      have hne : other ≠ name := fun heq => h.1 (heq ▸ hother)
      rw [needsBlock_blockField hne]
    · next hneeds => rw [blockField_of_not_needsBlock (Bool.eq_false_iff.2 hneeds)]

theorem changed_blockChange {cs : Fields} (h : Fields.Changed n.fields cs m.fields)
    (name : String) :
    Fields.Changed n.fields (blockChange n cs name) (blockField m name).fields := by
  have hget : (cs.lookup name).getD (n.get name) = m.get name := by
    rw [Node.get, Node.get, h.lookup]
    cases cs.lookup name <;> rfl
  rw [blockChange, blockField, hget]
  cases hnode : m.get name with
  | node s =>
    dsimp only
    split
    · exact h
    · refine h.insert ?_ _
      rcases m.get_mem name with hnull | hmem
      · rw [hnode] at hnull
        cases hnull
      · exact List.mem_map_of_mem hmem
  | _ => exact h

theorem changed_foldl_blockChange (names : List String) {cs : Fields}
    (h : Fields.Changed n.fields cs m.fields) :
    Fields.Changed n.fields (names.foldl (blockChange n) cs)
      (names.foldl blockField m).fields := by
  induction names generalizing cs m with
  | nil => exact h
  | cons name names ih => exact ih (changed_blockChange h name)

theorem blockChange_eq_nil {cs : Fields} :
    blockChange n cs name = [] ↔ cs = [] ∧ needsBlock n name = false := by
  have hinsert (fs : Fields) (v : Value) : Fields.insert fs name v ≠ [] := by
    cases fs with
    | nil => exact List.cons_ne_nil _ _
    | cons f fs =>
      rw [Fields.insert]
      split <;> exact List.cons_ne_nil _ _
  cases cs with
  | nil =>
    rw [blockChange, needsBlock]
    cases n.get name with
    | node s =>
      rw [List.lookup_nil, Option.getD_none]
      dsimp only
      split
      · next hstays =>
        rw [Bool.or_eq_true, decide_eq_true_eq] at hstays
        rcases hstays with hkind | hchoice
        · simp [hkind]
        · simp [hchoice]
      · next hchanges =>
        rw [Bool.not_eq_true, Bool.or_eq_false_iff, decide_eq_false_iff_not] at hchanges
        simp [hinsert, hchanges]
    | _ => simp
  | cons c cs =>
    rw [blockChange]
    split
    · split <;> simp [hinsert]
    · simp

theorem foldl_blockChange_eq_nil (names : List String) {cs : Fields} :
    names.foldl (blockChange n) cs = [] ↔ cs = [] ∧ names.filter (needsBlock n) = [] := by
  induction names generalizing cs with
  | nil => simp
  | cons name names ih =>
    rw [List.foldl_cons, ih, blockChange_eq_nil, List.filter_cons, and_assoc]
    cases needsBlock n name <;> simp

/-- Only fields that hold children change. -/
theorem names_changes (n : Node) : (changes n).map Prod.fst ⊆ n.childKeys := by
  have hchildren : (childChanges n n.childKeys n.fields).map Prod.fst ⊆ n.childKeys := by
    intro key hkey
    obtain ⟨c, hc, rfl⟩ := List.mem_map.1 hkey
    obtain ⟨f, -, hf⟩ := List.mem_filterMap.1 hc
    rw [fieldChange] at hf
    split at hf
    · next hchanged =>
      cases hf
      rw [Bool.and_eq_true] at hchanged
      exact List.contains_iff_mem.1 hchanged.1
    · cases hf
  have hblock {cs : Fields} (h : cs.map Prod.fst ⊆ n.childKeys) {name : String}
      (hname : name ∈ n.childKeys) : (blockChange n cs name).map Prod.fst ⊆ n.childKeys := by
    rw [blockChange]
    split
    · split
      · exact h
      · exact List.Subset.trans (Fields.names_insert_subset cs name _)
          (List.cons_subset.2 ⟨hname, h⟩)
    · exact h
  have hblocks {names : List String} (hnames : names ⊆ n.childKeys) {cs : Fields}
      (h : cs.map Prod.fst ⊆ n.childKeys) :
      (names.foldl (blockChange n) cs).map Prod.fst ⊆ n.childKeys := by
    induction names generalizing cs with
    | nil => exact h
    | cons name names ih =>
      rw [List.cons_subset] at hnames
      exact ih hnames.2 (hblock h hnames.1)
  exact hblocks (bodyFields_subset n) hchildren

/-- A node changes if one of its fields does. -/
theorem explicit_changed (n : Node) : (explicit n).changed = !(changes n).isEmpty := by
  have hparts : (explicit n).changed = (!(childChanges n n.childKeys n.fields).isEmpty ||
      !((bodyFields n.kind).filter (needsBlock (madeBelow n))).isEmpty) := by
    cases n
    rw [explicit, blockBodies, explicitFields_changed]
    rfl
  rw [hparts, ← Bool.not_and, changes]
  congr 1
  rw [Bool.eq_iff_iff, Bool.and_eq_true, List.isEmpty_iff, List.isEmpty_iff, List.isEmpty_iff,
    foldl_blockChange_eq_nil]
  refine and_congr_right fun hnone => ?_
  -- the bodies are the given ones, since no child has changed
  have hsame : (explicitFields n n.childKeys n.fields).changed = false := by
    rw [explicitFields_changed, hnone]
    rfl
  have hbelow : madeBelow n = n := by
    rw [madeBelow, explicitFields_result hsame]
    cases n
    rfl
  rw [hbelow]

/-- What the pass makes of a node has the changes put in. -/
theorem changed_made (h : (n.fields.map Prod.fst).Nodup) :
    Fields.Changed n.fields (changes n) (made n).fields := by
  have hbelow : Fields.Changed n.fields (childChanges n n.childKeys n.fields)
      (madeBelow n).fields := changed_childChanges n n.childKeys h
  rw [made_eq_foldl, foldl_blockField_filter (nodup_bodyFields n.kind)]
  exact changed_foldl_blockChange _ hbelow

/-! ## What is returned -/

theorem copy_eq_ok {cs : Fields} : n.copy cs = .ok m ↔
    ("self" ∉ cs.map Prod.fst ∧
      (∀ name ∈ (Fields.insertAll n.fields cs).map Prod.fst, isSpanName name = false) ∧
      ((Fields.insertAll n.fields cs).map Prod.fst).Nodup) ∧
    m = { n with fields := Fields.insertAll n.fields cs } := by
  rw [Node.copy, ← Fields.isSome_lookup]
  constructor
  · intro h
    split at h
    · cases h
    · next hfine =>
      cases h
      simp only [Bool.or_eq_true, List.any_eq_true, Bool.not_eq_true', decide_eq_false_iff_not,
        not_or, not_exists, not_and, not_not, Bool.not_eq_true] at hfine
      exact ⟨⟨Bool.eq_false_iff.1 hfine.1.1, hfine.1.2, hfine.2⟩, rfl⟩
  · rintro ⟨⟨hself, hfree, hnodup⟩, rfl⟩
    have hnone : ((Fields.insertAll n.fields cs).map Prod.fst).any isSpanName = false :=
      List.any_eq_false.2 fun name hname => Bool.eq_false_iff.1 (hfree name hname)
    simp [hself, hnone, hnodup]
    rfl

/-- The node can be copied with the changes that the pass makes of its fields. -/
structure Copies (n : Node) : Prop where
  once : (n.fields.map Prod.fst).Nodup
  free : ∀ f ∈ n.fields, isSpanName f.1 = false
  self : "self" ∉ (changes n).map Prod.fst

instance (n : Node) : Decidable (Copies n) :=
  decidable_of_iff ((n.fields.map Prod.fst).Nodup ∧ (∀ f ∈ n.fields, isSpanName f.1 = false) ∧
    "self" ∉ (changes n).map Prod.fst) ⟨fun ⟨once, free, self⟩ => ⟨once, free, self⟩,
      fun h => ⟨h.once, h.free, h.self⟩⟩

theorem copy_changes : n.copy (changes n) = .ok m ↔ Copies n ∧ m = made n := by
  have hmade (h : (n.fields.map Prod.fst).Nodup) :
      made n = { n with fields := Fields.insertAll n.fields (changes n) } := by
    rw [(changed_made h).insertAll_eq h, ← made_kind n, ← made_span n]
    cases made n
    rfl
  have hnames (h : (n.fields.map Prod.fst).Nodup) :
      (Fields.insertAll n.fields (changes n)).map Prod.fst = n.fields.map Prod.fst :=
    Fields.names_insertAll (changed_made h).known
  rw [copy_eq_ok]
  constructor
  · rintro ⟨⟨hself, hfree, hnodup⟩, rfl⟩
    have honce := hnodup.sublist (Fields.names_sublist_insertAll n.fields (changes n))
    rw [hnames honce, List.forall_mem_map] at hfree
    exact ⟨⟨honce, hfree, hself⟩, (hmade honce).symm⟩
  · rintro ⟨⟨honce, hfree, hself⟩, rfl⟩
    rw [hnames honce, List.forall_mem_map]
    exact ⟨⟨hself, hfree, honce⟩, hmade honce⟩

theorem explicit_eq (n : Node) : explicit n = ⟨made n, !(changes n).isEmpty,
    (collected n n.childKeys n.fields).wrapped⟩ := by
  rw [← explicit_changed]
  cases n
  rfl

/-- A node whose fields are done is copied if it changes. -/
theorem finish_eq_ok {o : Outcome Node} :
    finish n (collected n n.childKeys n.fields) = .ok o ↔
      ((explicit n).changed = true → Copies n) ∧ o = explicit n := by
  have hfinish : finish n (collected n n.childKeys n.fields) =
      if (changes n).isEmpty then .ok ⟨n, false, (collected n n.childKeys n.fields).wrapped⟩
      else n.copy (changes n) >>= fun copy =>
        pure ⟨copy, true, (collected n n.childKeys n.fields).wrapped⟩ := rfl
  rw [hfinish, explicit_changed, explicit_eq]
  cases hempty : (changes n).isEmpty with
  | true =>
    have hsame : made n = n := explicit_result (by rw [explicit_changed, hempty]; rfl)
    rw [hsame, if_pos rfl]
    simp [eq_comm]
  | false =>
    rw [if_neg Bool.false_ne_true]
    -- of the steps behind the changes, only the copy can fail
    constructor
    · intro h
      obtain ⟨copy, hcopy, h⟩ := bind_eq_ok h
      obtain ⟨hcopies, rfl⟩ := copy_changes.1 hcopy
      cases h
      exact ⟨fun _ => hcopies, rfl⟩
    · rintro ⟨hcopies, rfl⟩
      rw [copy_changes.2 ⟨hcopies rfl, rfl⟩]
      rfl

mutual

/-- What the pass returns is what is told without faults and copies. -/
theorem run_result {n : Node} {o : Outcome Node} (h : run n = .ok o) : o = explicit n := by
  match n with
  | ⟨kind, span, fields⟩ =>
    rw [run] at h
    obtain ⟨below, hbelow, h⟩ := bind_eq_ok h
    cases runFields_result hbelow
    exact (finish_eq_ok.1 h).2

theorem runFields_result {parent : Node} {keys : List String} {fs : List (String × Value)}
    {o : Outcome (List (String × Value))} (h : runFields parent keys fs = .ok o) :
    o = collected parent keys fs := by
  match fs with
  | [] =>
    rw [runFields] at h
    cases h
    rfl
  | (k, v) :: fs =>
    rw [runFields] at h
    obtain ⟨first, hfirst, h⟩ := bind_eq_ok h
    obtain ⟨rest, hrest, h⟩ := bind_eq_ok h
    cases runFields_result hrest
    cases h
    simp only [collected, childChanges, List.filterMap_cons, fieldChange, explicitFields]
    cases hkey : keys.contains k with
    | true =>
      rw [hkey] at hfirst
      cases runValue_result hfirst
      cases hchanged : (explicitValue parent k v).changed <;> simp [hchanged]
    | false =>
      rw [hkey] at hfirst
      cases hfirst
      simp

theorem runValue_result {parent : Node} {key : String} {v : Value} {o : Outcome Value}
    (h : runValue parent key v = .ok o) : o = explicitValue parent key v := by
  match v with
  | .node c =>
    rw [runValue] at h
    obtain ⟨below, hbelow, h⟩ := bind_eq_ok h
    cases run_result hbelow
    split at h
    · cases h
    · cases h
      rfl
  | .list vs =>
    rw [runValue] at h
    obtain ⟨below, hbelow, h⟩ := bind_eq_ok h
    cases runItems_result hbelow
    cases h
    rfl
  | .null | .bool _ | .int _ | .float _ | .str _ | .dict _ =>
    cases h
    rfl

theorem runItems_result {vs : List Value} {o : Outcome (List Value)}
    (h : runItems vs = .ok o) : o = explicitItems vs := by
  match vs with
  | [] =>
    rw [runItems] at h
    cases h
    rfl
  | .node c :: vs =>
    rw [runItems] at h
    obtain ⟨first, hfirst, h⟩ := bind_eq_ok h
    obtain ⟨rest, hrest, h⟩ := bind_eq_ok h
    cases run_result hfirst
    cases runItems_result hrest
    cases h
    rfl
  | .null :: vs | .bool _ :: vs | .int _ :: vs | .float _ :: vs | .str _ :: vs | .list _ :: vs
  | .dict _ :: vs =>
    simp only [runItems] at h
    obtain ⟨rest, hrest, h⟩ := bind_eq_ok h
    cases runItems_result hrest
    cases h
    simp only [explicitItems]

end

/-! ## Where something is returned -/

/-- A computation succeeds if its first step does and what follows it does. -/
theorem exists_bind_iff {ε α β : Type} {m : Except ε α} {f : α → Except ε β} {P : Prop}
    (h : ∀ a, m = .ok a → ((∃ b, f a = .ok b) ↔ P)) :
    (∃ b, m >>= f = .ok b) ↔ (∃ a, m = .ok a) ∧ P := by
  constructor
  · rintro ⟨b, hb⟩
    obtain ⟨a, ha, hb⟩ := bind_eq_ok hb
    exact ⟨⟨a, ha⟩, (h a ha).1 ⟨b, hb⟩⟩
  · rintro ⟨⟨a, ha⟩, hP⟩
    rw [ha]
    exact (h a ha).2 hP

/-- A computation that ends with a value succeeds if its first step does. -/
theorem exists_bind_pure_iff {ε α β : Type} {m : Except ε α} {g : α → β} :
    (∃ b, (m >>= fun a => pure (g a)) = .ok b) ↔ ∃ a, m = .ok a :=
  (exists_bind_iff fun a _ => iff_of_true ⟨g a, rfl⟩ trivial).trans (and_iff_left trivial)

/-- The pass returns of the node. -/
def Runs (n : Node) : Prop := ∃ o, run n = .ok o

theorem Runs.run_eq (h : Runs n) : run n = .ok (explicit n) := by
  obtain ⟨o, hrun⟩ := h
  rw [hrun, run_result hrun]

/-- The pass returns of all nodes in the value of a field, and if that is a node, it can be judged
under its parent. -/
structure Judged (parent : Node) (v : Value) : Prop where
  runs : ∀ c ∈ v.held, Runs c
  ranked : ∀ c, v = .node c → unranked c parent = false

theorem made_operator (h : n.kind = "BinaryExpression") :
    (made n).get "operator" = n.get "operator" := by
  -- the operator is no child, and operations have no bodies
  have hbody : "operator" ∉ bodyFields n.kind := by
    rw [h]
    decide
  have hkeys : n.childKeys = ["left", "right"] := by
    rw [Node.childKeys, h]
    rfl
  rw [made_get, if_neg hbody, madeChild, hkeys]
  simp

theorem unranked_made (n parent : Node) : unranked (made n) parent = unranked n parent := by
  rw [unranked, unranked, made_kind]
  by_cases hkind : n.kind = "BinaryExpression"
  · rw [made_operator hkind]
  · simp [hkind]

theorem runItems_iff {vs : List Value} :
    (∃ o, runItems vs = .ok o) ↔ ∀ c ∈ (Value.list vs).held, Runs c := by
  induction vs with
  | nil => exact iff_of_true ⟨_, rfl⟩ (by simp [Value.held])
  | cons v vs ih =>
    cases v with
    | node c =>
      rw [Value.held_cons_node, List.forall_mem_cons, ← ih, runItems]
      exact exists_bind_iff fun _ _ => exists_bind_pure_iff
    | _ =>
      refine Iff.trans ?_ ih
      simp only [runItems]
      exact exists_bind_pure_iff

theorem runValue_iff {parent : Node} {key : String} {v : Value} :
    (∃ o, runValue parent key v = .ok o) ↔ Judged parent v := by
  cases v with
  | node c =>
    have hjudged : Judged parent (.node c) ↔ Runs c ∧ unranked c parent = false :=
      ⟨fun h => ⟨h.runs c (List.mem_singleton_self c), h.ranked c rfl⟩,
        fun h => ⟨by simpa using h.1, fun d hd => by cases hd; exact h.2⟩⟩
    rw [hjudged, runValue]
    refine exists_bind_iff fun o ho => ?_
    -- what is judged is the child with its own children done, which has the operator it had
    cases run_result ho
    change (∃ b, (if unranked (made c) parent then _ else _) = _) ↔ _
    rw [unranked_made]
    split
    · next hunranked => simp [hunranked, throw, throwThe, MonadExceptOf.throw]
    · next hranked => exact iff_of_true ⟨_, rfl⟩ (Bool.eq_false_iff.2 hranked)
  | list vs =>
    have hjudged : Judged parent (.list vs) ↔ ∀ c ∈ (Value.list vs).held, Runs c :=
      ⟨fun h => h.runs, fun h => ⟨h, fun c hc => by cases hc⟩⟩
    rw [hjudged, ← runItems_iff, runValue]
    exact exists_bind_pure_iff
  | _ => exact iff_of_true ⟨_, rfl⟩ ⟨by simp [Value.held], by simp⟩

theorem runFields_iff {parent : Node} {keys : List String} {fs : Fields} :
    (∃ o, runFields parent keys fs = .ok o) ↔ ∀ f ∈ fs, f.1 ∈ keys → Judged parent f.2 := by
  induction fs with
  | nil => exact iff_of_true ⟨_, rfl⟩ (by simp)
  | cons f fs ih =>
    obtain ⟨k, v⟩ := f
    rw [List.forall_mem_cons, ← ih, runFields]
    have hfirst : (∃ o, (if keys.contains k then runValue parent k v else
        pure ⟨v, false, 0⟩) = .ok o) ↔ (k ∈ keys → Judged parent v) := by
      rw [List.contains_eq_mem]
      split
      · next hkey => simp_all [runValue_iff]
      · next hkey => exact iff_of_true ⟨_, rfl⟩ fun h => absurd h (by simpa using hkey)
    rw [← hfirst]
    exact exists_bind_iff fun _ _ => exists_bind_pure_iff

/-- The pass returns of a node if it returns of all below it, and the node can be copied if it
changes. -/
theorem runs_iff : Runs n ↔ (∀ f ∈ n.fields, f.1 ∈ n.childKeys → Judged n f.2) ∧
    ((explicit n).changed = true → Copies n) := by
  have hrun : run n = runFields n n.childKeys n.fields >>= finish n := by
    cases n
    rw [run]
  rw [← runFields_iff, Runs, hrun]
  refine exists_bind_iff fun below hbelow => ?_
  cases runFields_result hbelow
  exact ⟨fun ⟨o, ho⟩ => (finish_eq_ok.1 ho).1, fun h => ⟨_, finish_eq_ok.2 ⟨h, rfl⟩⟩⟩

/-- A node that has a field named like a part of its span is not copied for the block of a body. -/
example : run ⟨"IfStatement", {}, [("line", .int 5),
    ("consequent", .node ⟨"ReturnStatement", {}, []⟩)]⟩ = .error .wrongType := by rfl

/-- What stands in a field that holds children can be judged. -/
theorem Runs.judged (h : Runs n) {key : String} (hkey : key ∈ n.childKeys) :
    Judged n (n.get key) := by
  rcases n.get_mem key with hnull | hmem
  · rw [hnull]
    exact ⟨by simp [Value.held], by simp⟩
  · exact (runs_iff.1 h).1 _ hmem hkey

end Parentheses

end MonkeyFormat
