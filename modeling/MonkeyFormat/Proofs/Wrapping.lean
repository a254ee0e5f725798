import MonkeyFormat.Proofs.ExplicitShape
import MonkeyFormat.Proofs.Terms

set_option autoImplicit false

/-! # Only wrappers are put in

The pass that makes parentheses and blocks explicit leaves a tree as it is, but for parentheses
around some children and blocks around some bodies. It says how many parentheses it has put in and
whether it has put in anything; what it puts in covers what it is put around, so that children
stay inside their parents, in order and apart. -/

namespace MonkeyFormat

namespace Parentheses

/-! ## Trees with wrappers put in -/

mutual

/-- `Enclosed n m p b`: the node `m` is `n` with `p` parentheses and `b` blocks put in below it. -/
inductive Enclosed : Node → Node → Nat → Nat → Prop where
  | intro {kind : String} {span : Span} {fs gs : Fields} {p b : Nat}
    (fields : EnclosedFields kind fs gs p b) : Enclosed ⟨kind, span, fs⟩ ⟨kind, span, gs⟩ p b

/-- The fields of a node of some kind, with wrappers put in. -/
inductive EnclosedFields : String → Fields → Fields → Nat → Nat → Prop where
  | nil {kind : String} : EnclosedFields kind [] [] 0 0
  | cons {kind key : String} {v w : Value} {fs gs : Fields} {p b p' b' : Nat}
    (value : EnclosedValue kind key v w p b) (rest : EnclosedFields kind fs gs p' b') :
    EnclosedFields kind ((key, v) :: fs) ((key, w) :: gs) (p + p') (b + b')

/-- The value of a field of a node of some kind, with wrappers put in. Only bodies are enclosed in
blocks, and only other nodes in parentheses. -/
inductive EnclosedValue : String → String → Value → Value → Nat → Nat → Prop where
  | keep {kind key : String} (v : Value) : EnclosedValue kind key v v 0 0
  | child {kind key : String} {c d : Node} {p b : Nat} (h : Enclosed c d p b) :
    EnclosedValue kind key (.node c) (.node d) p b
  | parentheses {kind key : String} {c d : Node} {p b : Nat} (h : Enclosed c d p b)
    (hkey : key ∉ bodyFields kind) : EnclosedValue kind key (.node c)
      (.node ⟨"ParenthesizedExpression", d.span, [("expression", .node d)]⟩) (p + 1) b
  | block {kind key : String} {c d : Node} {p b : Nat} (h : Enclosed c d p b)
    (hkey : key ∈ bodyFields kind) : EnclosedValue kind key (.node c)
      (.node ⟨"BlockStatement", d.span, [("body", .list [.node d])]⟩) p (b + 1)
  | items {kind key : String} {vs ws : List Value} {p b : Nat} (h : EnclosedItems vs ws p b) :
    EnclosedValue kind key (.list vs) (.list ws) p b

/-- The elements of a list, with wrappers put in below them. -/
inductive EnclosedItems : List Value → List Value → Nat → Nat → Prop where
  | nil : EnclosedItems [] [] 0 0
  | keep {vs ws : List Value} {p b : Nat} (v : Value) (h : EnclosedItems vs ws p b) :
    EnclosedItems (v :: vs) (v :: ws) p b
  | node {c d : Node} {vs ws : List Value} {p b p' b' : Nat} (h : Enclosed c d p b)
    (rest : EnclosedItems vs ws p' b') :
    EnclosedItems (.node c :: vs) (.node d :: ws) (p + p') (b + b')

end

theorem EnclosedFields.refl (kind : String) (fs : Fields) : EnclosedFields kind fs fs 0 0 := by
  induction fs with
  | nil => exact .nil
  | cons f fs ih => exact .cons (.keep f.2) ih

theorem Enclosed.refl (n : Node) : Enclosed n n 0 0 := by
  cases n
  exact .intro (.refl _ _)

/-! ## Blocks around bodies -/

/-- The statement as the only one of a block. -/
def blockOf (n : Node) : Node := ⟨"BlockStatement", n.span, [("body", .list [.node n])]⟩

/-- A body that is no block yet, and so has not been enclosed, may be enclosed in a block. -/
theorem EnclosedFields.insert_block {kind name : String} {fs gs : Fields} {p b : Nat} {s : Node}
    (h : EnclosedFields kind fs gs p b) (hname : name ∈ bodyFields kind)
    (hget : gs.lookup name = some (.node s)) (hkind : s.kind ≠ "BlockStatement") :
    EnclosedFields kind fs (Fields.insert gs name (.node (blockOf s))) p (b + 1) := by
  induction fs generalizing gs p b with
  | nil =>
    cases h
    cases hget
  | cons f fs ih =>
    cases h with
    | @cons _ key v w _ gs p b p' b' value rest =>
      rw [Fields.lookup_cons] at hget
      rw [Fields.insert]
      split at hget
      · next heq =>
        subst heq
        cases hget
        rw [if_pos rfl, Nat.add_right_comm]
        refine .cons ?_ rest
        cases value with
        | keep => exact .block (.refl s) hname
        | child h => exact .block h hname
        | parentheses h hkey => exact absurd hname hkey
        | block => exact absurd rfl hkind
      · next hne =>
        rw [if_neg (Ne.symm hne), Nat.add_assoc]
        exact .cons value (ih rest hget)

theorem needsBlock_eq_true {n : Node} {name : String} (h : needsBlock n name = true) :
    ∃ s, n.fields.lookup name = some (.node s) ∧ s.kind ≠ "BlockStatement" ∧
      blockField n name = n.set name (.node (blockOf s)) := by
  unfold needsBlock at h
  split at h
  · next s hget =>
    rw [Bool.and_eq_true, bne_iff_ne, Bool.not_eq_true'] at h
    refine ⟨s, ?_, h.1, ?_⟩
    · unfold Node.get at hget
      cases hlookup : n.fields.lookup name with
      | none =>
        rw [hlookup] at hget
        cases hget
      | some v =>
        rw [hlookup, Option.getD_some] at hget
        rw [hget]
    · have hstays : (s.kind = "BlockStatement" || (name = "alternate" && s.kind = "IfStatement")) =
          false := by
        rw [decide_eq_false h.1, Bool.false_or]
        exact h.2
      simp only [blockField, hget, hstays, wrapBody, if_neg h.1]
      rfl
  · cases h

theorem Enclosed.blockField {n m : Node} {name : String} {p b : Nat} (h : Enclosed n m p b)
    (hname : name ∈ bodyFields m.kind) (hneeds : needsBlock m name = true) :
    Enclosed n (blockField m name) p (b + 1) := by
  obtain ⟨s, hget, hkind, heq⟩ := needsBlock_eq_true hneeds
  rw [heq]
  cases h with
  | intro fields => exact .intro (fields.insert_block hname hget hkind)

theorem Enclosed.foldl_blockField {n : Node} {names : List String} {p : Nat}
    (hnodup : names.Nodup) : ∀ {m : Node} {b : Nat}, Enclosed n m p b →
    (∀ name ∈ names, name ∈ bodyFields m.kind ∧ needsBlock m name = true) →
    Enclosed n (names.foldl Parentheses.blockField m) p (b + names.length) := by
  induction names with
  | nil => exact fun h _ => h
  | cons name names ih =>
    intro m b h hall
    obtain ⟨hfresh, hnodup⟩ := List.nodup_cons.1 hnodup
    obtain ⟨⟨hname, hneeds⟩, hall⟩ := List.forall_mem_cons.1 hall
    rw [List.foldl_cons, List.length_cons, Nat.add_comm names.length, ← Nat.add_assoc]
    refine ih hnodup (h.blockField hname hneeds) fun other hother => ?_
    have hne : other ≠ name := fun heq => hfresh (heq ▸ hother)
    rw [blockField_kind, needsBlock_blockField hne]
    exact hall other hother

/-! ## What the outcome tells -/

/-- The outcome tells what has been put in: how many parentheses, and whether anything. -/
def Outcome.Tells {α : Type} (o : Outcome α) (puts : α → Nat → Nat → Prop) : Prop :=
  ∃ blocks, puts o.result o.wrapped blocks ∧ (o.changed = false ↔ o.wrapped = 0 ∧ blocks = 0)

theorem tells_blockBodies {n : Node} {o : Outcome Node} (h : o.Tells (Enclosed n)) :
    (blockBodies o).Tells (Enclosed n) := by
  obtain ⟨b, hput, hchanged⟩ := h
  refine ⟨_, hput.foldl_blockField ((nodup_bodyFields o.result.kind).filter (needsBlock o.result))
    fun name hname => List.mem_filter.1 hname, ?_⟩
  rw [blockBodies, Bool.or_eq_false_iff, hchanged, Bool.not_eq_false', List.isEmpty_iff,
    Nat.add_eq_zero_iff, List.length_eq_zero_iff, and_assoc]

/-- No parentheses are asked for around a body. -/
theorem bodyFields_of_needed {n parent : Node} {key : Option String}
    (h : needed n parent key = true) : bodyFields parent.kind = [] := by
  have hparent : parent.kind ∈ wrappingKinds := by
    by_contra hnot
    rw [needed_of_parent hnot] at h
    cases h
  have hall : ∀ kind ∈ wrappingKinds, bodyFields kind = [] := by decide
  exact hall _ hparent

theorem tells_wrapUnder {c : Node} (parent : Node) (key : String) {o : Outcome Node}
    (h : o.Tells (Enclosed c)) :
    Outcome.Tells ⟨.node (wrapUnder parent key o).result, (wrapUnder parent key o).changed,
      (wrapUnder parent key o).wrapped⟩ (EnclosedValue parent.kind key (.node c)) := by
  obtain ⟨b, hput, hchanged⟩ := h
  unfold wrapUnder
  split
  · next hneeded =>
    refine ⟨b, .parentheses hput ?_, by simp⟩
    rw [bodyFields_of_needed hneeded]
    exact List.not_mem_nil
  · exact ⟨b, .child hput, hchanged⟩

theorem tells_keep {α : Type} {puts : α → Nat → Nat → Prop} {x : α} (h : puts x 0 0) :
    Outcome.Tells ⟨x, false, 0⟩ puts := ⟨0, h, by simp⟩

mutual

/-- The pass puts only wrappers into a tree, and tells what it has put in. -/
theorem tells_explicit (n : Node) : (explicit n).Tells (Enclosed n) := by
  match n with
  | ⟨kind, span, fields⟩ =>
    obtain ⟨b, hput, hchanged⟩ := tells_explicitFields ⟨kind, span, fields⟩
      (Node.childKeys ⟨kind, span, fields⟩) fields
    rw [explicit]
    exact tells_blockBodies ⟨b, .intro hput, hchanged⟩

theorem tells_explicitFields (parent : Node) (keys : List String) (fs : List (String × Value)) :
    (explicitFields parent keys fs).Tells (EnclosedFields parent.kind fs) := by
  match fs with
  | [] => exact tells_keep .nil
  | (k, v) :: fs =>
    have hfirst :
        Outcome.Tells (if keys.contains k then explicitValue parent k v else ⟨v, false, 0⟩)
        (EnclosedValue parent.kind k v) := by
      split
      · exact tells_explicitValue parent k v
      · exact tells_keep (.keep v)
    obtain ⟨b, hput, hchanged⟩ := hfirst
    obtain ⟨b', hput', hchanged'⟩ := tells_explicitFields parent keys fs
    rw [explicitFields]
    refine ⟨b + b', .cons hput hput', ?_⟩
    simp only [Bool.or_eq_false_iff, hchanged, hchanged', Nat.add_eq_zero_iff]
    exact and_and_and_comm

theorem tells_explicitValue (parent : Node) (key : String) (v : Value) :
    (explicitValue parent key v).Tells (EnclosedValue parent.kind key v) := by
  match v with
  | .node c =>
    rw [explicitValue]
    exact tells_wrapUnder parent key (tells_explicit c)
  | .list vs =>
    obtain ⟨b, hput, hchanged⟩ := tells_explicitItems vs
    rw [explicitValue]
    exact ⟨b, .items hput, hchanged⟩
  | .null | .bool _ | .int _ | .float _ | .str _ | .dict _ => exact tells_keep (.keep _)

theorem tells_explicitItems (vs : List Value) : (explicitItems vs).Tells (EnclosedItems vs) := by
  match vs with
  | [] => exact tells_keep .nil
  | .node c :: vs =>
    obtain ⟨b, hput, hchanged⟩ := tells_explicit c
    obtain ⟨b', hput', hchanged'⟩ := tells_explicitItems vs
    rw [explicitItems]
    refine ⟨b + b', .node hput hput', ?_⟩
    simp only [Bool.or_eq_false_iff, hchanged, hchanged', Nat.add_eq_zero_iff]
    exact and_and_and_comm
  | .null :: vs | .bool _ :: vs | .int _ :: vs | .float _ :: vs | .str _ :: vs | .list _ :: vs
  | .dict _ :: vs =>
    obtain ⟨b, hput, hchanged⟩ := tells_explicitItems vs
    simp only [explicitItems]
    exact ⟨b, .keep _ hput, hchanged⟩

end

/-! ## The children of what is made -/

/-- What may stand in the place of a child: the node itself, or a wrapper around it. -/
def Wraps (d m : Node) : Prop := d = m ∨ d = wrap m ∨ d = blockOf m

theorem Wraps.span_eq {d m : Node} (h : Wraps d m) : d.span = m.span := by
  rcases h with rfl | rfl | rfl
  · rfl
  · rfl
  · rfl

theorem children_wrap (m : Node) : (wrap m).children = [m] := rfl

theorem children_blockOf (m : Node) : (blockOf m).children = [m] := rfl

theorem holdsNode_explicitItems (vs : List Value) :
    (explicitItems vs).result.any Value.isNode = vs.any Value.isNode := by
  induction vs with
  | nil => rfl
  | cons v vs ih =>
    cases v with
    | node c =>
      rw [explicitItems]
      simp [Value.isNode, Value.node?]
    | _ =>
      rw [explicitItems]
      · rw [List.any_cons, ih, List.any_cons]
      · exact fun c hc => by cases hc

theorem holdsNode_explicitValue (parent : Node) (key : String) (v : Value) :
    (explicitValue parent key v).result.holdsNode = v.holdsNode := by
  cases v with
  | node c => rfl
  | list vs =>
    rw [explicitValue]
    exact holdsNode_explicitItems vs
  | _ => rfl

/-- The pass keeps the fields that hold children. -/
theorem childKeys_made (n : Node) : (made n).childKeys = n.childKeys := by
  rw [Node.childKeys, Node.childKeys, made_kind]
  cases hkeys : childFields? n.kind with
  | some keys => rfl
  | none =>
    have hbodies : bodyFields n.kind = [] := by
      unfold bodyFields
      split
      case h_5 => rfl
      all_goals
        next hkind =>
          rw [hkind] at hkeys
          cases hkeys
    have hfields (parent : Node) (keys : List String) (fs : Fields) :
        ((explicitFields parent keys fs).result.filter fun kv => kv.2.holdsNode).map Prod.fst =
          (fs.filter fun kv => kv.2.holdsNode).map Prod.fst := by
      induction fs with
      | nil => rfl
      | cons f fs ih =>
        obtain ⟨k, v⟩ := f
        have hvalue : (if keys.contains k then (explicitValue parent k v).result else v).holdsNode =
            v.holdsNode := by
          split
          · exact holdsNode_explicitValue parent k v
          · rfl
        rw [explicitFields_cons, List.filter_cons, List.filter_cons, hvalue]
        split
        · rw [List.map_cons, List.map_cons, ih]
        · exact ih
    rw [made_eq_foldl, hbodies]
    exact hfields n n.childKeys n.fields

theorem held_explicitItems (vs : List Value) :
    (Value.list (explicitItems vs).result).held = (Value.list vs).held.map made := by
  induction vs with
  | nil => rfl
  | cons v vs ih =>
    rw [Value.held, Value.held] at ih ⊢
    cases v with
    | node c =>
      rw [explicitItems]
      simp only [List.filterMap_cons, Value.node?, List.map_cons, ih]
      rfl
    | _ =>
      rw [explicitItems]
      · simp only [List.filterMap_cons, Value.node?, ih]
      · exact fun c hc => by cases hc

/-- The nodes in a field for children are wrapped or left alone, one by one. -/
theorem wraps_held {n : Node} {key : String} (hkey : key ∈ n.childKeys) :
    List.Forall₂ Wraps ((made n).get key).held ((n.get key).held.map made) := by
  have hchild : madeChild n key = (explicitValue n key (n.get key)).result := by
    rw [madeChild, List.contains_eq_mem, decide_eq_true hkey, if_pos rfl]
  rw [made_get, hchild]
  cases hget : n.get key with
  | node c =>
    rw [explicitValue_node]
    have hunder : ∃ d, (if key ∈ bodyFields n.kind then blocked key (.node (madeUnder n key c)) else
        .node (madeUnder n key c)) = .node d ∧ Wraps d (made c) := by
      split
      · next hbody =>
        have hplain : madeUnder n key c = made c := by
          rw [madeUnder, if_neg]
          intro hneeded
          rw [bodyFields_of_needed hneeded] at hbody
          cases hbody
        rw [hplain, blocked]
        split
        · exact ⟨_, rfl, .inl rfl⟩
        · next hnot =>
          have hkind : (made c).kind ≠ "BlockStatement" := by
            intro heq
            simp [heq] at hnot
          rw [wrapBody, if_neg hkind]
          exact ⟨_, rfl, .inr (.inr rfl)⟩
      · unfold madeUnder
        split
        · exact ⟨_, rfl, .inr (.inl rfl)⟩
        · exact ⟨_, rfl, .inl rfl⟩
    obtain ⟨d, hd, hwraps⟩ := hunder
    rw [hd]
    exact .cons hwraps .nil
  | list vs =>
    have hsame : (if key ∈ bodyFields n.kind then
        blocked key (explicitValue n key (.list vs)).result else
          (explicitValue n key (.list vs)).result) = .list (explicitItems vs).result := by
      rw [explicitValue]
      split <;> rfl
    rw [hsame, held_explicitItems]
    exact List.forall₂_same.2 fun d _ => .inl rfl
  | _ =>
    split <;> exact .nil

/-- The children of what is made are those of the node, made explicit and wrapped or left alone. -/
theorem wraps_children (n : Node) :
    List.Forall₂ (fun d c => Wraps d (made c)) (made n).children n.children := by
  rw [← List.forall₂_map_right_iff, Node.children_eq, Node.children_eq, childKeys_made,
    List.map_flatMap]
  generalize hkeys : n.childKeys = keys
  have hall : ∀ key ∈ keys, List.Forall₂ Wraps ((made n).get key).held
      ((n.get key).held.map made) := fun key hkey => wraps_held (hkeys ▸ hkey)
  clear hkeys
  induction keys with
  | nil => exact .nil
  | cons key keys ih =>
    obtain ⟨hkey, hkeys⟩ := List.forall_mem_cons.1 hall
    exact List.rel_append hkey (ih hkeys)

/-! ## Bodies are blocks -/

/-- The bodies of the node are blocks; a second branch may be a choice. -/
def HasBlocks (n : Node) : Prop :=
  ∀ key ∈ bodyFields n.kind, ∀ s, n.get key = .node s →
    s.kind = "BlockStatement" ∨ key = "alternate" ∧ s.kind = "IfStatement"

theorem hasBlocks_made (n : Node) : HasBlocks (made n) := by
  intro key hkey s hget
  rw [made_kind] at hkey
  rw [made_get, if_pos hkey] at hget
  cases hchild : madeChild n key with
  | node c =>
    rw [hchild, blocked] at hget
    split at hget
    · next hstays =>
      cases hget
      simpa using hstays
    · cases hget
      left
      unfold wrapBody
      split
      · assumption
      · rfl
  | _ =>
    rw [hchild] at hget
    cases hget

theorem exists_of_mem_left {α β : Type} {R : α → β → Prop} {ds : List α} {cs : List β}
    (h : List.Forall₂ R ds cs) {d : α} (hd : d ∈ ds) : ∃ c ∈ cs, R d c := by
  induction h with
  | nil => cases hd
  | cons hr _ ih =>
    rcases List.mem_cons.1 hd with rfl | hd
    · exact ⟨_, List.mem_cons_self, hr⟩
    · obtain ⟨c, hc, hr⟩ := ih hd
      exact ⟨c, List.mem_cons_of_mem _ hc, hr⟩

/-- What holds of all that is made and of all wrappers holds wherever something is made explicit. -/
theorem forall_walk_made {P Q : Node → Prop} (hmade : ∀ m, Q m → P (made m))
    (hwrap : ∀ m, P (wrap m)) (hblock : ∀ m, P (blockOf m)) {n : Node} (h : ∀ m ∈ n.walk, Q m) :
    ∀ m ∈ (made n).walk, P m := by
  induction n using Node.children_induction with
  | step n ih =>
    rw [Node.forall_walk_iff] at h
    refine Node.forall_walk_iff.2 ⟨hmade n h.1, fun d hd => ?_⟩
    obtain ⟨c, hc, hwraps⟩ := exists_of_mem_left (wraps_children n) hd
    have hbelow := ih c hc (h.2 c hc)
    rcases hwraps with rfl | rfl | rfl
    · exact hbelow
    · refine Node.forall_walk_iff.2 ⟨hwrap _, ?_⟩
      rwa [children_wrap, List.forall_mem_singleton]
    · refine Node.forall_walk_iff.2 ⟨hblock _, ?_⟩
      rwa [children_blockOf, List.forall_mem_singleton]

/-- Wherever something is made explicit, the bodies are blocks. -/
theorem hasBlocks_walk (n : Node) : ∀ m ∈ (made n).walk, HasBlocks m :=
  forall_walk_made (Q := fun _ => True) (fun m _ => hasBlocks_made m)
    (fun _ _ hkey => absurd hkey List.not_mem_nil) (fun _ _ hkey => absurd hkey List.not_mem_nil)
    fun _ _ => trivial

/-! ## Spans stay in order -/

/-- What the check of the spans does with the next child. -/
def checkNext (n : Node) (previous : Option Node) (c : Node) : Except Fault (Option Node) := do
  n.checkChild previous c
  c.checkSpans
  pure (some c)

theorem checkSpans_eq (n : Node) :
    n.checkSpans = n.children.foldlM (checkNext n) none >>= fun _ => pure () := by
  rw [Node.checkSpans]
  conv_rhs => rw [← List.attach_map_subtype_val n.children, List.foldlM_map]
  rfl

theorem checkChild_eq_ok {parent c : Node} {previous : Option Node} :
    parent.checkChild previous c = .ok () ↔ (parent.start ≤ c.start ∧ c.stop ≤ parent.stop) ∧
      ∀ p ∈ previous, p.stop ≤ c.start := by
  have hinside : (c.start < parent.start || parent.stop < c.stop) = false ↔
      parent.start ≤ c.start ∧ c.stop ≤ parent.stop := by
    simp
  unfold Node.checkChild
  rw [← hinside]
  cases hout : (c.start < parent.start || parent.stop < c.stop : Bool) with
  | true => exact ⟨fun h => (by cases h), fun h => (by cases h.1)⟩
  | false =>
    cases previous with
    | none => exact ⟨fun _ => ⟨rfl, fun _ hp => (by cases hp)⟩, fun _ => rfl⟩
    | some p =>
      by_cases hbehind : c.start < p.stop
      · simp only [if_pos hbehind]
        refine ⟨fun h => (by cases h), fun h => ?_⟩
        have := h.2 p rfl
        omega
      · simp only [if_neg hbehind]
        refine ⟨fun _ => ⟨trivial, fun q hq => ?_⟩, fun _ => rfl⟩
        cases hq
        omega

theorem checkNext_eq_ok {n c : Node} {previous next : Option Node} :
    checkNext n previous c = .ok next ↔
      n.checkChild previous c = .ok () ∧ c.checkSpans = .ok () ∧ next = some c := by
  constructor
  · intro h
    obtain ⟨⟨⟩, hchild, h⟩ := bind_eq_ok h
    obtain ⟨⟨⟩, hspans, h⟩ := bind_eq_ok h
    cases h
    exact ⟨hchild, hspans, rfl⟩
  · rintro ⟨hchild, hspans, rfl⟩
    rw [checkNext, hchild]
    change (c.checkSpans >>= fun _ => pure (some c)) = _
    rw [hspans]
    rfl

/-- Children that have the spans of others pass where these pass. -/
theorem foldlM_checkNext {n m : Node} (hspan : m.span = n.span) {ds cs : List Node}
    (h : List.Forall₂ (fun d c => d.span = c.span ∧
      (c.checkSpans = .ok () → d.checkSpans = .ok ())) ds cs) :
    ∀ {p q last : Option Node}, q.map Node.span = p.map Node.span →
      cs.foldlM (checkNext n) p = .ok last → ∃ last', ds.foldlM (checkNext m) q = .ok last' := by
  induction h with
  | nil => exact fun _ _ => ⟨_, rfl⟩
  | @cons d c ds cs hpair _ ih =>
    intro p q last hprevious hfold
    rw [List.foldlM_cons] at hfold
    obtain ⟨next, hnext, hfold⟩ := bind_eq_ok hfold
    obtain ⟨hchild, hspans, rfl⟩ := checkNext_eq_ok.1 hnext
    obtain ⟨hinside, hbehind⟩ := checkChild_eq_ok.1 hchild
    have hchild' : m.checkChild q d = .ok () := by
      rw [checkChild_eq_ok, Node.start, Node.stop, Node.start, Node.stop, hspan, hpair.1]
      refine ⟨hinside, fun r hr => ?_⟩
      cases hr
      cases p with
      | none => cases hprevious
      | some r' =>
        have hspans : r.span = r'.span := Option.some.inj hprevious
        rw [Node.stop, hspans]
        exact hbehind r' rfl
    have hsame : (some d).map Node.span = (some c).map Node.span := congrArg some hpair.1
    obtain ⟨last', hlast⟩ := ih hsame hfold
    refine ⟨last', ?_⟩
    rw [List.foldlM_cons, checkNext_eq_ok.2 ⟨hchild', hpair.2 hspans, rfl⟩]
    exact hlast

theorem checkSpans_of_children {n m : Node} (hspan : m.span = n.span)
    (h : List.Forall₂ (fun d c => d.span = c.span ∧
      (c.checkSpans = .ok () → d.checkSpans = .ok ())) m.children n.children)
    (hn : n.checkSpans = .ok ()) : m.checkSpans = .ok () := by
  rw [checkSpans_eq] at hn ⊢
  obtain ⟨last, hlast, _⟩ := bind_eq_ok hn
  obtain ⟨last', hlast'⟩ := foldlM_checkNext hspan h rfl hlast
  rw [hlast']
  rfl

/-- A node around a single child with the same span passes where the child does. -/
theorem checkSpans_of_single {d m : Node} (hchildren : d.children = [m]) (hspan : d.span = m.span)
    (h : m.checkSpans = .ok ()) : d.checkSpans = .ok () := by
  have hinside : checkNext d none m = .ok (some m) := by
    rw [checkNext_eq_ok, checkChild_eq_ok]
    refine ⟨⟨⟨?_, ?_⟩, fun _ hp => (by cases hp)⟩, h, rfl⟩
    · rw [Node.start, Node.start, hspan]
    · rw [Node.stop, Node.stop, hspan]
  rw [checkSpans_eq, hchildren, List.foldlM_cons, hinside]
  rfl

theorem checkSpans_of_wraps {d m : Node} (hwraps : Wraps d m) (h : m.checkSpans = .ok ()) :
    d.checkSpans = .ok () := by
  have hspan := hwraps.span_eq
  rcases hwraps with rfl | rfl | rfl
  · exact h
  · exact checkSpans_of_single (children_wrap m) hspan h
  · exact checkSpans_of_single (children_blockOf m) hspan h

/-- What is made of a tree passes the check of the spans where the tree does. -/
theorem checkSpans_made {n : Node} (h : n.checkSpans = .ok ()) : (made n).checkSpans = .ok () := by
  induction n using Node.children_induction with
  | step n ih =>
    refine checkSpans_of_children (made_span n) ?_ h
    have hall := wraps_children n
    rw [List.forall₂_iff_zip] at hall ⊢
    refine ⟨hall.1, fun {d c} hdc => ?_⟩
    have hwraps := hall.2 hdc
    refine ⟨hwraps.span_eq.trans (made_span c), fun hc => ?_⟩
    exact checkSpans_of_wraps hwraps (ih c (List.of_mem_zip hdc).2 hc)

/-! ## The pass as a whole -/

/-- Where the pass does not fail, it puts only wrappers in. -/
theorem run_encloses {t : Node} (h : ∀ n ∈ t.walk, Rewritable n) :
    ∃ o blocks, run t = .ok o ∧ Enclosed t o.result o.wrapped blocks ∧
      (o.changed = false ↔ o.wrapped = 0 ∧ blocks = 0) ∧ (o.changed = false → o.result = t) ∧
      (∀ n ∈ o.result.walk, HasBlocks n) ∧
      (t.checkSpans = .ok () → o.result.checkSpans = .ok ()) := by
  obtain ⟨blocks, hput, hchanged⟩ := tells_explicit t
  exact ⟨explicit t, blocks, (runs_of_rewritable h).run_eq, hput, hchanged, explicit_result,
    hasBlocks_walk t, checkSpans_made⟩

/-- A node with two operands on the first line. -/
def joined (op : String) (first last : Int) (left right : Node) : Node :=
  ⟨"BinaryExpression", ⟨first, last, 1, first + 1, 1, last + 1⟩,
    [("operator", .str op), ("left", .node left), ("right", .node right)]⟩

/-- A choice between bits of a comparison, with a single statement as its first branch. -/
def maskedChoice : Node :=
  let name (s : String) (first : Int) : Node :=
    ⟨"Identifier", ⟨first, first + 1, 1, first + 1, 1, first + 2⟩, [("name", .str s)]⟩
  ⟨"IfStatement", ⟨0, 25, 1, 1, 1, 26⟩,
    [("test", .node (joined "&" 4 16 (joined "==" 5 11 (name "a" 5) (name "b" 10)) (name "c" 15))),
      ("consequent", .node ⟨"ReturnStatement", ⟨18, 25, 1, 19, 1, 26⟩, [("argument", .null)]⟩),
      ("alternate", .null)]⟩

/-- The comparison gets parentheses and the statement becomes a block. -/
theorem run_encloses_maskedChoice :
    (∀ n ∈ maskedChoice.walk, Rewritable n) ∧
      ∃ o blocks, run maskedChoice = .ok o ∧ o.wrapped = 1 ∧
        Enclosed maskedChoice o.result o.wrapped blocks ∧
        (o.changed = false ↔ o.wrapped = 0 ∧ blocks = 0) ∧
        (o.changed = false → o.result = maskedChoice) ∧
        (∀ n ∈ o.result.walk, HasBlocks n) ∧
        (maskedChoice.checkSpans = .ok () → o.result.checkSpans = .ok ()) := by
  have hall : ∀ n ∈ maskedChoice.walk, Rewritable n := by decide +kernel
  have hwrapped : (run maskedChoice).toOption.map Outcome.wrapped = some 1 := by decide +kernel
  obtain ⟨o, blocks, hrun, hrest⟩ := run_encloses hall
  rw [hrun] at hwrapped
  exact ⟨hall, o, blocks, hrun, Option.some.inj hwrapped, hrest⟩

/-- An operation whose operator is a list, over another operation. -/
def listedOperator : Node :=
  ⟨"BinaryExpression", {}, [("operator", .list []),
    ("left", .node ⟨"BinaryExpression", {}, [("operator", .str "+")]⟩)]⟩

/-- Not every tree can be made explicit: no rank can be asked for under a list. -/
theorem not_run_listedOperator : ¬ ∃ o, run listedOperator = .ok o := by
  have hrun : (run listedOperator).toOption.isNone := by decide +kernel
  rintro ⟨o, ho⟩
  rw [ho] at hrun
  cases hrun

end Parentheses

end MonkeyFormat
