import MonkeyFormat.Proofs.Wrapping

set_option autoImplicit false

/-! # A second pass finds nothing to do

The pass that makes parentheses and blocks explicit is done after one run: a second run puts in
nothing and leaves the tree as it is. What the rules ask of a node is its kind, the kind of its
parent and the operators of the two, and the pass keeps all of these. The wrappers it puts in are of
kinds that no rule wraps, and under which no rule wraps anything. -/

namespace MonkeyFormat

/-- What holds of a node if it holds of the nodes in all its fields holds of every node. -/
theorem Node.fields_induction {motive : Node → Prop}
    (step : ∀ n, (∀ f ∈ n.fields, ∀ c ∈ f.2.held, motive c) → motive n) (n : Node) : motive n :=
  step n fun f _ c _ => fields_induction step c
termination_by sizeOf n
decreasing_by
  rename_i hf hc
  rw [← Value.slots_map_snd f.1] at hc
  obtain ⟨⟨a, d⟩, hslot, rfl⟩ := List.mem_map.1 hc
  have hvalue := Value.sizeOf_lt_of_mem_slots hslot
  have hfield := List.sizeOf_lt_of_mem hf
  obtain ⟨kind, span, fields⟩ := n
  obtain ⟨k, v⟩ := f
  simp at hvalue hfield ⊢
  omega

namespace Parentheses

variable {n p : Node} {key : String} {v : Value}

/-! ## What the rules ask of a parent -/

/-- The rules take one node for the other when they look at a parent. -/
structure Alike (p n : Node) : Prop where
  kind : p.kind = n.kind
  operator : n.kind = "BinaryExpression" → p.get "operator" = n.get "operator"

theorem Alike.needed (h : Alike p n) (c : Node) (key : Option String) :
    needed c p key = needed c n key := by
  unfold Parentheses.needed
  rw [h.kind]
  by_cases hbinary : n.kind = "BinaryExpression"
  · simp only [h.operator hbinary]
  · simp only [hbinary, decide_false, Bool.false_and, Bool.false_eq_true, if_false]
    split
    · rfl
    · split
      · split
        · next hkind => exact absurd hkind hbinary
        all_goals rfl
      · rfl

theorem alike_made (n : Node) : Alike (made n) n := ⟨made_kind n, made_operator⟩

/-! ## What the pass leaves as it is -/

/-- The outcome of leaving something as it is. -/
def Outcome.unchanged {α : Type} (a : α) : Outcome α := ⟨a, false, 0⟩

/-- The pass leaves the node as it is. -/
def Settled (n : Node) : Prop := explicit n = .unchanged n

theorem Settled.eq (h : Settled n) : explicit n = ⟨n, false, 0⟩ := h

/-- The pass leaves the value of a field of the parent as it is. -/
def SettledIn (parent : Node) (key : String) (v : Value) : Prop :=
  explicitValue parent key v = .unchanged v

/-- Of the fields of the parent, the pass leaves those that hold children as they are. -/
def AllSettled (parent : Node) (keys : List String) (fs : Fields) : Prop :=
  ∀ f ∈ fs, f.1 ∈ keys → SettledIn parent f.1 f.2

theorem settledIn_node {c : Node} (h : Settled c) (hneeded : needed c p (some key) = false) :
    SettledIn p key (.node c) := by
  simp [SettledIn, explicitValue, wrapUnder, h.eq, Outcome.unchanged, hneeded]

/-- A child that is left as it is needs no parentheses, and nothing is done below it. -/
theorem SettledIn.child {c : Node} (h : SettledIn p key (.node c)) : Settled c := by
  simp only [SettledIn, explicitValue, wrapUnder, Outcome.unchanged] at h
  split at h
  · simp at h
  · cases hout : explicit c
    simpa [hout, Settled, Outcome.unchanged] using h

theorem AllSettled.explicitFields {keys : List String} {fs : Fields} (h : AllSettled p keys fs) :
    explicitFields p keys fs = .unchanged fs := by
  induction fs with
  | nil => rfl
  | cons f fs ih =>
    obtain ⟨k, v⟩ := f
    rw [AllSettled, List.forall_mem_cons] at h
    have hfirst : (if keys.contains k then explicitValue p k v else ⟨v, false, 0⟩) =
        Outcome.unchanged v := by
      split
      · next hkey => exact h.1 (by simpa using hkey)
      · rfl
    simp only [Parentheses.explicitFields, ih h.2, hfirst]
    rfl

/-- Where the bodies are blocks, no block is put in. -/
theorem blockBodies_of_blocks {o : Outcome Node} (h : HasBlocks o.result) : blockBodies o = o := by
  have hnone : (bodyFields o.result.kind).filter (needsBlock o.result) = [] := by
    rw [List.filter_eq_nil_iff]
    intro name hname
    have hblock := h name hname
    unfold needsBlock
    cases hget : o.result.get name with
    | node s =>
      rcases hblock s hget with hkind | ⟨hname, hkind⟩
      · simp [hkind]
      · simp [hname, hkind]
    | _ => simp
  simp [blockBodies, hnone]

/-- A node is left as it is if all its fields are and its bodies are blocks. -/
theorem settled_of_fields (h : AllSettled n n.childKeys n.fields) (hblocks : HasBlocks n) :
    Settled n := by
  obtain ⟨kind, span, fields⟩ := n
  have hfields := h.explicitFields
  rw [Settled, explicit]
  simp only [hfields, Outcome.unchanged]
  exact blockBodies_of_blocks hblocks

theorem explicitItems_settled {vs : List Value}
    (h : ∀ c ∈ (Value.list vs).held, Settled c) : explicitItems vs = .unchanged vs := by
  induction vs with
  | nil => rfl
  | cons v vs ih =>
    simp only [Value.held] at h ih
    cases v with
    | node c =>
      simp only [List.filterMap_cons, Value.node?, List.forall_mem_cons] at h
      simp only [explicitItems, ih h.2, h.1.eq]
      rfl
    | _ =>
      simp only [List.filterMap_cons, Value.node?] at h
      rw [explicitItems]
      · simp only [ih h]
        rfl
      · simp

theorem settledIn_list {vs : List Value} (h : ∀ c ∈ (Value.list vs).held, Settled c) :
    SettledIn p key (.list vs) := by
  simp only [SettledIn, explicitValue, explicitItems_settled h]
  rfl

/-! ## Wrappers -/

/-- No rule wraps what has explicit parentheses. -/
theorem needed_wrap (m parent : Node) (key : Option String) :
    needed (wrap m) parent key = false := by
  have hsafe : isSafe "ParenthesizedExpression" = true := by decide
  simp [needed, wrap, hsafe]

theorem settled_wrap {m : Node} (h : Settled m) : Settled (wrap m) := by
  apply settled_of_fields
  · intro f hf _
    rw [wrap, List.mem_singleton] at hf
    subst hf
    exact settledIn_node h (needed_of_parent (by simp [wrap, wrappingKinds]) m _)
  · intro key hkey
    cases hkey

theorem settled_wrapBody {m : Node} (h : Settled m) : Settled (wrapBody m) := by
  unfold wrapBody
  split
  · exact h
  · apply settled_of_fields
    · intro f hf _
      rw [List.mem_singleton] at hf
      subst hf
      exact settledIn_list (by simpa [Value.held, Value.node?] using h)
    · intro key hkey
      cases hkey

/-! ## What is made is left as it is -/

/-- What the pass makes of a field is left as it is, under the node that the pass makes, too. -/
theorem settledIn_explicitValue (halike : Alike p n) (key : String)
    (h : ∀ c ∈ v.held, Settled (made c)) : SettledIn p key (explicitValue n key v).result := by
  cases v with
  | node c =>
    have hc : Settled (made c) := h c (List.mem_singleton_self c)
    rw [explicitValue_node, madeUnder]
    by_cases hneeded : needed (made c) n (some key) = true
    · rw [if_pos hneeded]
      exact settledIn_node (settled_wrap hc) (needed_wrap _ p _)
    · rw [if_neg hneeded]
      apply settledIn_node hc
      rw [halike.needed]
      simpa using hneeded
  | list vs =>
    apply settledIn_list
    intro d hd
    rw [held_explicitItems, List.mem_map] at hd
    obtain ⟨c, hc, rfl⟩ := hd
    exact h c hc
  | _ => rfl

theorem AllSettled.get {keys : List String} (h : AllSettled p keys n.fields) (hkey : key ∈ keys) :
    SettledIn p key (n.get key) := by
  rcases Node.get_mem n key with hnull | hmem
  · rw [hnull]
    rfl
  · exact h _ hmem hkey

section Bodies

variable {keys : List String}

/-- Making a block of a body that is left as it is gives a body that is left as it is. -/
theorem AllSettled.blockField {m : Node} {name : String} (h : AllSettled p keys m.fields)
    (hkey : name ∈ keys) (hbody : name ∈ bodyFields p.kind) :
    AllSettled p keys (blockField m name).fields := by
  unfold Parentheses.blockField
  split
  · next s hget =>
    split
    · exact h
    · intro f hf hfkey
      rcases Fields.mem_insert hf with hf | rfl
      · exact h f hf hfkey
      · have hs : Settled s := (hget ▸ h.get hkey).child
        apply settledIn_node (settled_wrapBody hs)
        -- a rule that asked for parentheses here would have a parent without bodies
        by_contra hneeded
        rw [Bool.not_eq_false] at hneeded
        rw [bodyFields_of_needed hneeded] at hbody
        cases hbody
  · exact h

theorem AllSettled.foldl_blockField {names : List String} (hkeys : names ⊆ keys)
    (hbodies : names ⊆ bodyFields p.kind) {m : Node} (h : AllSettled p keys m.fields) :
    AllSettled p keys (names.foldl Parentheses.blockField m).fields := by
  induction names generalizing m with
  | nil => exact h
  | cons name names ih =>
    rw [List.cons_subset] at hkeys hbodies
    rw [List.foldl_cons]
    exact ih hkeys.2 hbodies.2 (h.blockField hkeys.1 hbodies.1)

theorem allSettled_explicitFields (halike : Alike p n) {fs : Fields}
    (h : ∀ f ∈ fs, ∀ c ∈ f.2.held, Settled (made c)) :
    AllSettled p keys (explicitFields n keys fs).result := by
  induction fs with
  | nil => simp [AllSettled, explicitFields]
  | cons f fs ih =>
    obtain ⟨k, v⟩ := f
    rw [List.forall_mem_cons] at h
    rw [explicitFields_cons, AllSettled, List.forall_mem_cons]
    constructor
    · intro hkey
      dsimp only at hkey ⊢
      rw [List.contains_eq_mem, decide_eq_true hkey, if_pos rfl]
      exact settledIn_explicitValue halike k h.1
    · exact ih h.2

end Bodies

theorem allSettled_made (h : ∀ f ∈ n.fields, ∀ c ∈ f.2.held, Settled (made c)) :
    AllSettled (made n) (made n).childKeys (made n).fields := by
  have hbelow : AllSettled (made n) n.childKeys (madeBelow n).fields :=
    allSettled_explicitFields (alike_made n) h
  have hnames : (bodyFields n.kind).filter (needsBlock (madeBelow n)) ⊆ bodyFields n.kind :=
    fun name hname => (List.mem_filter.1 hname).1
  have hmade := hbelow.foldl_blockField (List.Subset.trans hnames (bodyFields_subset n))
    (by rw [made_kind]; exact hnames)
  rwa [← made_eq_foldl, ← childKeys_made] at hmade

/-- The pass leaves what it has made as it is. -/
theorem settled_made (n : Node) : Settled (made n) := by
  induction n using Node.fields_induction with
  | step n ih => exact settled_of_fields (allSettled_made ih) (hasBlocks_made n)

/-! ## The pass returns of what it has made -/

/-- A child in a field of its own comes from one, wrapped or left alone. -/
theorem exists_of_made_get {d : Node} (hkey : key ∈ n.childKeys) (h : (made n).get key = .node d) :
    ∃ c, n.get key = .node c ∧ Wraps d (made c) := by
  have hwraps := wraps_held hkey
  rw [h] at hwraps
  cases hget : n.get key with
  | node c =>
    rw [hget] at hwraps
    exact ⟨c, rfl, by simpa [Value.held] using hwraps⟩
  | list vs =>
    -- a list stays a list
    rw [made_get, madeChild, hget, explicitValue] at h
    split at h <;> split at h <;> simp [blocked] at h
  | _ =>
    rw [hget] at hwraps
    simp [Value.held] at hwraps

theorem unranked_of_wraps {c d : Node} (hwraps : Wraps d (made c)) (h : unranked c n = false) :
    unranked d (made n) = false := by
  rcases hwraps with rfl | rfl | rfl
  · by_cases hkinds : c.kind = "BinaryExpression" ∧ n.kind = "BinaryExpression"
    · have hchild := (alike_made c).operator hkinds.1
      have hparent := (alike_made n).operator hkinds.2
      simpa only [unranked, made_kind, hchild, hparent] using h
    · simp only [unranked, made_kind]
      grind
  · simp [unranked, wrap]
  · simp [unranked, blockOf]

theorem runs_of_wraps {c d : Node} (hwraps : Wraps d c) (h : Runs c) : Runs d := by
  rcases hwraps with rfl | rfl | rfl
  · exact h
  · refine runs_iff.2 ⟨fun f hf _ => ?_, fun _ => Ordinary.copies <|
      .of_names ["expression"] rfl (by decide) rfl fun hkind => absurd hkind (by simp [wrap])⟩
    rw [wrap, List.mem_singleton] at hf
    subst hf
    refine ⟨by simpa using h, fun d hd => ?_⟩
    cases hd
    simp [unranked, wrap]
  · refine runs_iff.2 ⟨fun f hf _ => ?_, fun _ => Ordinary.copies <|
      .of_names ["body"] rfl (by decide) rfl fun hkind => absurd hkind (by simp [blockOf])⟩
    rw [blockOf, List.mem_singleton] at hf
    subst hf
    exact ⟨by simpa [Value.held, Value.node?] using h, fun d hd => by cases hd⟩

theorem runs_made (h : Runs n) : Runs (made n) := by
  induction n using Node.fields_induction with
  | step n ih =>
    have hcopies := (runs_iff.1 h).2
    by_cases hchanged : (explicit n).changed = true
    · have hcopied := changed_made (hcopies hchanged).once
      refine runs_iff.2 ⟨fun f hf hkey => ?_, fun hagain => ?_⟩
      · rw [childKeys_made] at hkey
        -- the copy has the names of the node, each once, so its fields are what is found by name
        have hget := Node.get_of_mem (hcopied.names ▸ (hcopies hchanged).once) hf
        have hjudged := h.judged hkey
        have hbelow : ∀ c ∈ (n.get f.1).held, Runs (made c) := by
          rcases n.get_mem f.1 with hnull | hmem
          · simp [hnull]
          · exact fun c hc => ih _ hmem c hc (hjudged.runs c hc)
        constructor
        · intro d hd
          have hwraps := wraps_held hkey
          rw [hget] at hwraps
          obtain ⟨m, hm, hwraps⟩ := exists_of_mem_left hwraps hd
          obtain ⟨c, hc, rfl⟩ := List.mem_map.1 hm
          exact runs_of_wraps hwraps (hbelow c hc)
        · intro d hd
          obtain ⟨c, hc, hwraps⟩ := exists_of_made_get hkey (hget.trans hd)
          exact unranked_of_wraps hwraps (hjudged.ranked c hc)
      · -- nothing changes in the second run, so that nothing is copied
        rw [(settled_made n).eq] at hagain
        cases hagain
    · rw [made, explicit_result (Bool.eq_false_iff.2 hchanged)]
      exact h

/-- Where the pass returns, a second run puts in nothing and gives the same tree back. -/
theorem run_run {t : Node} {o : Outcome Node} (h : run t = .ok o) :
    run o.result = .ok ⟨o.result, false, 0⟩ := by
  cases run_result h
  exact (runs_made ⟨_, h⟩).run_eq.trans (congrArg _ (settled_made t).eq)

/-- The parentheses and the block of a choice are made once. -/
theorem run_run_maskedChoice : ∃ o, run maskedChoice = .ok o ∧ o.changed = true ∧ o.wrapped = 1 ∧
    run o.result = .ok ⟨o.result, false, 0⟩ := by
  have hrun : ∃ o, run maskedChoice = .ok o ∧ o.changed = true ∧ o.wrapped = 1 :=
    ⟨_, rfl, rfl, rfl⟩
  obtain ⟨o, ho, hchanged, hwrapped⟩ := hrun
  exact ⟨o, ho, hchanged, hwrapped, run_run ho⟩

end Parentheses

end MonkeyFormat
