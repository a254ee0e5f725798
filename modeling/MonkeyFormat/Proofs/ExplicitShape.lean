import MonkeyFormat.Proofs.Explicit
import MonkeyFormat.Proofs.Shape

set_option autoImplicit false

/-! # Making parentheses explicit keeps shapes

The pass keeps the kind of every node and what its fields may hold; the parentheses and blocks that
it puts in have the fields of their kinds. -/

namespace MonkeyFormat

namespace Parentheses

/-! ## The fields of what the pass makes -/

/-- A statement in a field that must hold a block. -/
def blocked (name : String) : Value → Value
  | .node s =>
    if s.kind = "BlockStatement" || (name = "alternate" && s.kind = "IfStatement") then .node s
    else .node (wrapBody s)
  | v => v

theorem blocked_of_not_needsBlock {n : Node} {name : String} (h : needsBlock n name = false) :
    blocked name (n.get name) = n.get name := by
  unfold needsBlock at h
  cases hget : n.get name with
  | node s =>
    rw [hget] at h
    rw [blocked]
    split
    · rfl
    · next hnot => simp_all
  | _ => rfl

theorem blockField_get (n : Node) (name key : String) :
    (blockField n name).get key = if key = name then blocked name (n.get name) else n.get key := by
  unfold blockField
  split
  · next s hget =>
    rw [hget, blocked]
    split
    · split
      · next hkey => rw [hkey, hget]
      · rfl
    · rw [Node.get_set]
  · next hnot =>
    have hblocked : blocked name (n.get name) = n.get name := by
      cases hget : n.get name with
      | node s => exact absurd hget (hnot s)
      | _ => rfl
    split
    · next hkey => rw [hkey, hblocked]
    · rfl

theorem blockField_kind (n : Node) (name : String) : (blockField n name).kind = n.kind := by
  unfold blockField
  split
  · split <;> rfl
  · rfl

theorem foldl_blockField_kind (names : List String) (n : Node) :
    (names.foldl blockField n).kind = n.kind := by
  induction names generalizing n with
  | nil => rfl
  | cons name names ih => rw [List.foldl_cons, ih, blockField_kind]

theorem needsBlock_blockField {m : Node} {name other : String} (hne : name ≠ other) :
    needsBlock (blockField m other) name = needsBlock m name := by
  rw [needsBlock, needsBlock, blockField_get, if_neg hne]

theorem nodup_bodyFields (kind : String) : (bodyFields kind).Nodup := by
  unfold bodyFields
  split <;> decide

/-- Bodies are children. -/
theorem bodyFields_subset (n : Node) : bodyFields n.kind ⊆ n.childKeys := by
  obtain ⟨kind, span, fields⟩ := n
  unfold bodyFields
  split
  case h_5 => exact List.nil_subset _
  all_goals
    next hkind =>
      dsimp only at hkind
      subst hkind
      rw [childKeys_eq rfl]
      decide

theorem blocked_blocked (name : String) (v : Value) :
    blocked name (blocked name v) = blocked name v := by
  cases v with
  | node s =>
    rw [blocked]
    split
    · next h => rw [blocked, if_pos h]
    · next h =>
      have hkind : (wrapBody s).kind = "BlockStatement" := by
        unfold wrapBody
        split
        · next hs => exact hs
        · rfl
      rw [blocked, if_pos (by simp [hkind])]
  | _ => rfl

theorem foldl_blockField_get (names : List String) (n : Node) (key : String) :
    (names.foldl blockField n).get key =
      if key ∈ names then blocked key (n.get key) else n.get key := by
  induction names generalizing n with
  | nil => simp
  | cons name names ih =>
    rw [List.foldl_cons, ih, blockField_get]
    by_cases hkey : key = name
    · subst hkey
      simp [blocked_blocked]
    · simp [hkey]

theorem lookup_explicitFields (parent : Node) (keys : List String) (fs : Fields) (key : String) :
    (explicitFields parent keys fs).result.lookup key = (fs.lookup key).map fun v =>
      if keys.contains key then (explicitValue parent key v).result else v := by
  induction fs with
  | nil => rfl
  | cons f fs ih =>
    obtain ⟨k, v⟩ := f
    rw [explicitFields_cons, Fields.lookup_cons, Fields.lookup_cons]
    by_cases hkey : key = k
    · subst hkey
      simp
    · rw [if_neg hkey, if_neg hkey, ih]

/-- What the pass makes of a field, before statements become blocks. -/
def madeChild (n : Node) (key : String) : Value :=
  if n.childKeys.contains key then (explicitValue n key (n.get key)).result else n.get key

/-- The node with its fields made explicit, before statements become blocks. -/
def madeBelow (n : Node) : Node := ⟨n.kind, n.span, (explicitFields n n.childKeys n.fields).result⟩

theorem madeBelow_get (n : Node) (key : String) : (madeBelow n).get key = madeChild n key := by
  rw [madeBelow, Node.get, lookup_explicitFields, madeChild, Node.get]
  cases n.fields.lookup key with
  | none =>
    simp only [Option.map_none, Option.getD_none]
    split
    · rfl
    · rfl
  | some v => rfl

theorem made_eq_foldl (n : Node) : made n =
    ((bodyFields n.kind).filter (needsBlock (madeBelow n))).foldl blockField (madeBelow n) := by
  obtain ⟨kind, span, fields⟩ := n
  simp only [made, explicit, blockBodies]
  rfl

/-- What the pass makes of a field. -/
theorem made_get (n : Node) (key : String) : (made n).get key =
    if key ∈ bodyFields n.kind then blocked key (madeChild n key) else madeChild n key := by
  rw [made_eq_foldl, foldl_blockField_get, madeBelow_get]
  by_cases hkey : key ∈ bodyFields n.kind
  · by_cases hneeds : needsBlock (madeBelow n) key = true
    · simp [hkey, hneeds]
    · have hsame := blocked_of_not_needsBlock (Bool.eq_false_iff.2 hneeds)
      rw [madeBelow_get] at hsame
      simp [hkey, hneeds, hsame]
  · simp [hkey]

theorem made_kind (n : Node) : (made n).kind = n.kind := by
  rw [made_eq_foldl, foldl_blockField_kind]
  rfl

theorem made_span (n : Node) : (made n).span = n.span := by
  rw [made_eq_foldl]
  generalize List.filter _ _ = names
  have hfold (m : Node) : (names.foldl blockField m).span = m.span := by
    induction names generalizing m with
    | nil => rfl
    | cons name names ih =>
      rw [List.foldl_cons, ih]
      unfold blockField
      split
      · split <;> rfl
      · rfl
  exact hfold _

/-! ## Shapes -/

/-- A property of nodes that the pass keeps, and that the nodes it puts in have. -/
structure Kept (P : Node → Prop) : Prop where
  made : ∀ n, n.Shaped P → P (made n)
  wrap : ∀ n, P n → P (wrap n)
  wrapBody : ∀ n, P n → P (wrapBody n)

variable {P : Node → Prop}

theorem shaped_wrap (hP : Kept P) {n : Node} (h : n.Shaped P) : (wrap n).Shaped P :=
  .of_fit rfl (hP.wrap n h.here) ⟨.node h, trivial⟩ rfl

theorem shaped_wrapBody (hP : Kept P) {n : Node} (h : n.Shaped P) : (wrapBody n).Shaped P := by
  have hblock := hP.wrapBody n h.here
  unfold wrapBody at hblock ⊢
  split
  · exact h
  · next hkind =>
    rw [if_neg hkind] at hblock
    have hbody : Value.Fits P .nodes (.list ([n].map .node)) := .nodes (by simpa using h)
    exact .of_fit rfl hblock ⟨hbody, trivial⟩ rfl

/-- A statement that must be a block still fits its field. -/
theorem fits_blocked (hP : Kept P) {type : FieldType} {v : Value} (name : String)
    (h : Value.Fits P type v) : Value.Fits P type (blocked name v) := by
  cases h with
  | node h =>
    rw [blocked]
    split
    · exact .node h
    · exact .node (shaped_wrapBody hP h)
  | some h =>
    rw [blocked]
    split
    · exact .some h
    · exact .some (shaped_wrapBody hP h)
  | none => exact .none
  | nodes h => exact .nodes h
  | types h hkind => exact .types h hkind
  | noTypes => exact .noTypes
  | text h => exact .text h
  | raw h hne => exact .raw h hne
  | suffix h => exact .suffix h
  | noSuffix => exact .noSuffix
  | words h => exact .words h
  | noWords => exact .noWords
  | absent => exact .absent

theorem shaped_madeUnder (hP : Kept P) {c : Node} (h : (made c).Shaped P) (parent : Node)
    (key : String) : (madeUnder parent key c).Shaped P := by
  unfold madeUnder
  split
  · exact shaped_wrap hP h
  · exact h

/-- A field that holds no tree is kept. -/
theorem made_get_text {n : Node} {key s : String} (h : n.get key = .str s) :
    (made n).get key = .str s := by
  have hchild : madeChild n key = .str s := by
    rw [madeChild, h]
    split
    · rfl
    · rfl
  rw [made_get, hchild]
  split
  · rfl
  · rfl

theorem isNumber_of_made {n : Node} {key : String} (h : ((made n).get key).isNumber = true) :
    (n.get key).isNumber = true := by
  cases hget : n.get key with
  | int _ => rfl
  | float _ => rfl
  | node c =>
    -- a tree stays a tree, whatever is put around it
    rw [made_get, madeChild, hget, explicitValue_node] at h
    have hnode (m : Node) : (blocked key (.node m)).isNumber = false := by
      rw [blocked]
      split
      · rfl
      · rfl
    split at h
    · split at h
      · rw [hnode] at h
        cases h
      · rw [hnode] at h
        cases h
    · split at h
      · cases h
      · cases h
  | _ =>
    rw [made_get, madeChild, hget] at h
    split at h
    · split at h
      · cases h
      · cases h
    · split at h
      · cases h
      · cases h

theorem explicitItems_words (ws : List String) :
    (explicitItems (ws.map .str)).result = ws.map .str := by
  induction ws with
  | nil => rfl
  | cons w ws ih =>
    rw [List.map_cons, explicitItems, ih]
    intro c hc
    cases hc

mutual

theorem shaped_made (hP : Kept P) {n : Node} (h : n.Shaped P) : (made n).Shaped P := by
  match h with
  | .intro _ types known here fits number =>
    refine .intro _ types (by rw [made_kind]; exact known) (hP.made n h) (fun f hf => ?_)
      fun hnumber => ?_
    swap
    · obtain ⟨s, hs, hslash⟩ := number (isNumber_of_made hnumber)
      exact ⟨s, made_get_text hs, hslash⟩
    have hchild : Value.Fits P f.2 (madeChild n f.1) := by
      unfold madeChild
      split
      · exact fits_explicitValue hP n f.1 (fits f hf)
      · exact fits f hf
    rw [made_get]
    split
    · exact fits_blocked hP f.1 hchild
    · exact hchild

theorem fits_explicitValue (hP : Kept P) (parent : Node) (key : String) {type : FieldType}
    {v : Value} (h : Value.Fits P type v) :
    Value.Fits P type (explicitValue parent key v).result := by
  match h with
  | .node h =>
    rw [explicitValue_node]
    exact .node (shaped_madeUnder hP (shaped_made hP h) parent key)
  | .some h =>
    rw [explicitValue_node]
    exact .some (shaped_madeUnder hP (shaped_made hP h) parent key)
  | .none => exact .none
  | .nodes h =>
    rw [explicitValue_nodes]
    refine .nodes fun m hm => ?_
    obtain ⟨c, hc, rfl⟩ := List.mem_map.1 hm
    exact shaped_made hP (h c hc)
  | .types h hkind =>
    rw [explicitValue_nodes]
    refine .types (fun m hm => ?_) fun m hm => ?_
    · obtain ⟨c, hc, rfl⟩ := List.mem_map.1 hm
      exact shaped_made hP (h c hc)
    · obtain ⟨c, hc, rfl⟩ := List.mem_map.1 hm
      rw [made_kind]
      exact hkind c hc
  | .noTypes => exact .noTypes
  | .text h => exact .text h
  | .raw h hne => exact .raw h hne
  | .suffix h => exact .suffix h
  | .noSuffix => exact .noSuffix
  | @Value.Fits.words _ ws h =>
    rw [explicitValue, explicitItems_words]
    exact .words h
  | .noWords => exact .noWords
  | .absent => exact .absent

end

end Parentheses

end MonkeyFormat
