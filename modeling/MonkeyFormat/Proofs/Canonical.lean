import MonkeyFormat.Proofs.AlikeSources
import MonkeyFormat.Proofs.BlankLines
import MonkeyFormat.Proofs.ExplicitShape
import MonkeyFormat.Proofs.Ordinary
import MonkeyFormat.Proofs.TokenPlaces
import MonkeyFormat.Proofs.UnspannedLayout
import MonkeyFormat.Tree.Comparison

set_option autoImplicit false

/-! # Canonical output

Two comment-free sources with the same tokens are formatted as the same text, unless one of them
has blank lines or dictionaries that it breaks behind the brace: of all the ways to lay out the
tokens, these are the ones that the formatter keeps. -/

namespace MonkeyFormat

/-! ## Parentheses without places -/

namespace Parentheses

theorem needed_unspanned (n parent : Node) (key : Option String) :
    needed n.unspanned parent.unspanned key = needed n parent key := by
  simp [needed, betweenOperators]

theorem wrap_unspanned (n : Node) : (wrap n).unspanned = wrap n.unspanned := by
  obtain ⟨kind, span, fields⟩ := n
  rfl

theorem wrapBody_unspanned (n : Node) : (wrapBody n).unspanned = wrapBody n.unspanned := by
  unfold wrapBody
  rw [Node.kind_unspanned]
  split
  · rfl
  · obtain ⟨kind, span, fields⟩ := n
    rfl

theorem set_unspanned (n : Node) (name : String) (v : Value) :
    (n.set name v).unspanned = n.unspanned.set name v.unspanned := by
  obtain ⟨kind, span, fields⟩ := n
  rw [Node.set, Node.set, Node.unspanned, Node.unspanned, fieldsUnspanned_insert]

theorem blockField_unspanned (n : Node) (name : String) :
    (blockField n name).unspanned = blockField n.unspanned name := by
  unfold blockField
  rw [Node.get_unspanned]
  cases n.get name with
  | node s =>
    simp only [Value.unspanned_node, Node.kind_unspanned]
    split
    · rfl
    · rw [set_unspanned, Value.unspanned_node, wrapBody_unspanned]
  | _ => rfl

theorem needsBlock_unspanned (n : Node) (name : String) :
    needsBlock n.unspanned name = needsBlock n name := by
  unfold needsBlock
  rw [Node.get_unspanned]
  cases n.get name with
  | node s => simp
  | _ => rfl

theorem foldl_blockField_unspanned (names : List String) (n : Node) :
    (names.foldl blockField n).unspanned = names.foldl blockField n.unspanned := by
  induction names generalizing n with
  | nil => rfl
  | cons name names ih => rw [List.foldl_cons, ih, blockField_unspanned, List.foldl_cons]

theorem holdsNode_unspanned (v : Value) : v.unspanned.holdsNode = v.holdsNode := by
  cases v with
  | list vs =>
    rw [Value.unspanned_list, Value.holdsNode, Value.holdsNode, List.any_map]
    congr 1
    funext v
    exact v.isNode_unspanned
  | _ => rfl

theorem childKeys_unspanned (n : Node) : n.unspanned.childKeys = n.childKeys := by
  obtain ⟨kind, span, fields⟩ := n
  have hfields : ((fieldsUnspanned fields).filter fun kv => kv.2.holdsNode).map Prod.fst =
      (fields.filter fun kv => kv.2.holdsNode).map Prod.fst := by
    induction fields with
    | nil => rfl
    | cons f fs ih =>
      obtain ⟨k, v⟩ := f
      rw [fieldsUnspanned, List.filter_cons, List.filter_cons, holdsNode_unspanned]
      split
      · rw [List.map_cons, List.map_cons, ih]
      · exact ih
  rw [Node.unspanned, Node.childKeys, Node.childKeys, hfields]

mutual

/-- What the pass makes of a tree does not depend on places. -/
theorem made_unspanned (n : Node) : (made n).unspanned = made n.unspanned := by
  match n with
  | ⟨kind, span, fields⟩ =>
    have hfields := explicitFields_unspanned ⟨kind, span, fields⟩
      (Node.childKeys ⟨kind, span, fields⟩) fields
    have hbelow : (madeBelow ⟨kind, span, fields⟩).unspanned =
        madeBelow (Node.unspanned ⟨kind, span, fields⟩) := by
      rw [madeBelow, madeBelow, childKeys_unspanned, Node.unspanned, hfields]
      rfl
    have hneeds : needsBlock (madeBelow (Node.unspanned ⟨kind, span, fields⟩)) =
        needsBlock (madeBelow ⟨kind, span, fields⟩) := by
      funext name
      rw [← hbelow, needsBlock_unspanned]
    rw [made_eq_foldl, made_eq_foldl, foldl_blockField_unspanned, hbelow, hneeds,
      Node.kind_unspanned]

theorem explicitFields_unspanned (parent : Node) (keys : List String)
    (fs : List (String × Value)) :
    fieldsUnspanned (explicitFields parent keys fs).result =
      (explicitFields parent.unspanned keys (fieldsUnspanned fs)).result := by
  match fs with
  | [] => rfl
  | (k, v) :: fs =>
    rw [explicitFields_cons, fieldsUnspanned, fieldsUnspanned, explicitFields_cons,
      explicitFields_unspanned parent keys fs]
    split
    · rw [explicitValue_unspanned parent k v]
    · rfl

theorem explicitValue_unspanned (parent : Node) (key : String) (v : Value) :
    (explicitValue parent key v).result.unspanned =
      (explicitValue parent.unspanned key v.unspanned).result := by
  match v with
  | .node c =>
    rw [explicitValue_node, Value.unspanned_node, Value.unspanned_node, explicitValue_node,
      madeUnder, madeUnder, ← made_unspanned c, needed_unspanned]
    split
    · rw [wrap_unspanned]
    · rfl
  | .list vs =>
    simp only [explicitValue, Value.unspanned]
    rw [explicitItems_unspanned vs]
  | .null | .bool _ | .int _ | .float _ | .str _ | .dict _ => rfl

theorem explicitItems_unspanned (vs : List Value) :
    itemsUnspanned (explicitItems vs).result = (explicitItems (itemsUnspanned vs)).result := by
  match vs with
  | [] => rfl
  | .node c :: vs =>
    simp only [explicitItems, itemsUnspanned, Value.unspanned]
    rw [explicitItems_unspanned vs]
    congr 2
    exact made_unspanned c
  | .null :: vs | .bool _ :: vs | .int _ :: vs | .float _ :: vs | .str _ :: vs | .list _ :: vs
  | .dict _ :: vs =>
    simp only [explicitItems, itemsUnspanned, Value.unspanned]
    rw [explicitItems_unspanned vs]

end

theorem held_unspanned (v : Value) : v.unspanned.held = v.held.map Node.unspanned := by
  cases v with
  | list vs =>
    rw [Value.unspanned_list, Value.held, Value.held, List.filterMap_map, List.map_filterMap]
    congr 1
    funext v
    exact v.node?_unspanned
  | _ => rfl

theorem children_unspanned (n : Node) : n.unspanned.children = n.children.map Node.unspanned := by
  rw [Node.children_eq, Node.children_eq, childKeys_unspanned, List.map_flatMap]
  congr 1
  funext key
  rw [Node.get_unspanned, held_unspanned]

theorem ordinary_unspanned {n : Node} (h : Ordinary n) : Ordinary n.unspanned := by
  have hnames : n.unspanned.fields.map Prod.fst = n.fields.map Prod.fst := by
    cases n
    exact names_fieldsUnspanned _
  refine .of_names _ hnames ⟨h.once, List.forall_mem_map.2 h.free⟩ ?_ fun hkind => ?_
  · rw [Node.kind_unspanned]
    exact h.known
  · rw [Node.kind_unspanned] at hkind
    have hhash := h.operator hkind
    rw [Node.get_unspanned]
    cases hop : n.get "operator" with
    | _ =>
      rw [hop] at hhash
      exact hhash

/-- The pass makes its tree of ordinary nodes without places, too. -/
theorem run_unspanned {n : Node} (h : ∀ m ∈ n.walk, Ordinary m) :
    run n.unspanned = .ok (explicit n.unspanned) := by
  refine run_of_ordinary ?_
  induction n using Node.children_induction with
  | step n ih =>
    obtain ⟨hn, hbelow⟩ := Node.forall_walk_iff.1 h
    refine Node.forall_walk_iff.2 ⟨ordinary_unspanned hn, ?_⟩
    rw [children_unspanned, List.forall_mem_map]
    exact fun c hc => ih c hc (hbelow c hc)

end Parentheses

/-! ## What holds of every node of a tree -/

mutual

/-- What holds of the nodes on the walk holds all over a shaped tree. -/
theorem Node.Shaped.of_walk {P Q : Node → Prop} {n : Node} (h : n.Shaped P)
    (hwalk : ∀ m ∈ n.walk, m.Shaped P → Q m) : n.Shaped Q := by
  match h with
  | .intro _ types known here fits number =>
    have hhere : Q n := hwalk n (Node.mem_walk_self n) h
    refine .intro _ types known hhere (fun f hf => ?_) number
    refine (fits f hf).of_held fun hholds c hc m hm => hwalk m ?_
    have hmem := Node.mem_children.2 ⟨f.1, Node.mem_childKeys known hf hholds, hc⟩
    exact Node.mem_walk_of_child hmem hm

theorem Value.Fits.of_held {P Q : Node → Prop} {type : FieldType} {v : Value}
    (h : Value.Fits P type v) (hwalk : type.holdsNodes = true →
      ∀ c ∈ v.held, ∀ m ∈ c.walk, m.Shaped P → Q m) : Value.Fits Q type v := by
  match h with
  | .node hn => exact .node (hn.of_walk (hwalk rfl _ (by simp)))
  | .some hn => exact .some (hn.of_walk (hwalk rfl _ (by simp)))
  | .none => exact .none
  | @Value.Fits.nodes _ ns hns =>
    have hheld : (Value.list (ns.map .node)).held = ns := Value.held_nodes ns
    exact .nodes fun n hn => (hns n hn).of_walk (hwalk rfl n (by rwa [hheld]))
  | @Value.Fits.types _ ns hns hkind =>
    have hheld : (Value.list (ns.map .node)).held = ns := Value.held_nodes ns
    exact .types (fun n hn => (hns n hn).of_walk (hwalk rfl n (by rwa [hheld]))) hkind
  | .noTypes => exact .noTypes
  | .text ht => exact .text ht
  | .raw ht hne => exact .raw ht hne
  | .suffix ht => exact .suffix ht
  | .noSuffix => exact .noSuffix
  | .words hw => exact .words hw
  | .noWords => exact .noWords
  | .absent => exact .absent

end

/-! ## Calm trees -/

namespace Layout

theorem blankLineAfter_of_no_blank {source : String} (widths : Doc.Widths)
    (hblank : Text.hasBlankLine source.toList = false) {n : Node} (hstop : 0 ≤ n.stop) :
    blankLineAfter ⟨widths, Source.ofString source, []⟩ (.node n) = .ok false := by
  unfold blankLineAfter
  split
  · rfl
  · exact Source.nextLineEmpty_of_no_blank hblank hstop

theorem made_properties {n : Node} (hkind : n.kind = "ObjectExpression") {ns : List Node}
    (hns : n.get "properties" = .list (ns.map .node)) :
    (Parentheses.made n).get "properties" = .list ((ns.map Parentheses.made).map .node) := by
  have hkeys : n.childKeys = ["properties"] := by
    rw [Node.childKeys, hkind]
    rfl
  rw [Parentheses.made_get, Parentheses.madeChild, hkind, hkeys, hns,
    Parentheses.explicitValue_nodes]
  rfl

theorem isExpanded_node (cx : Context) {n e : Node} {es : List Value}
    (h : n.get "properties" = .list (.node e :: es)) :
    isExpanded cx n = if cx.source.isEmpty then .ok false
      else .ok ((cx.source.slice n.start e.start).toList.contains '\n') := by
  unfold isExpanded
  rw [h]
  rfl

theorem blankLineAfter_node (cx : Context) (n : Node) : blankLineAfter cx (.node n) =
    if cx.source.isEmpty then .ok false else cx.source.nextLineEmpty n.stop := by
  unfold blankLineAfter
  split
  · rfl
  · rfl

theorem made_start (n : Node) : (Parentheses.made n).start = n.start := by
  rw [Node.start, Parentheses.made_span, Node.start]

theorem made_stop (n : Node) : (Parentheses.made n).stop = n.stop := by
  rw [Node.stop, Parentheses.made_span, Node.stop]

theorem Calm.made {cx : Context} {n : Node} (h : n.Shaped (Calm cx)) :
    Calm cx (Parentheses.made n) := by
  refine ⟨?_, fun hkind hfilled => ?_⟩
  · rw [blankLineAfter_node, made_stop, ← blankLineAfter_node]
    exact h.here.after
  · rw [Parentheses.made_kind] at hkind
    have known : fieldTypes? n.kind = some [("properties", .nodes)] := by
      rw [hkind]
      rfl
    obtain ⟨ns, hns, -⟩ := (h.get known (List.mem_singleton_self _)).eq_nodes
    have hmade := made_properties hkind hns
    cases ns with
    | nil =>
      rw [hmade] at hfilled
      cases hfilled
    | cons m ns =>
      rw [List.map_cons] at hns
      rw [List.map_cons, List.map_cons] at hmade
      have hentries := h.here.entries hkind (by rw [hns]; rfl)
      rw [isExpanded_node cx hns] at hentries
      rw [isExpanded_node cx hmade, made_start, made_start]
      exact hentries

/-- Making parentheses explicit keeps a tree calm. -/
theorem kept_calm (cx : Context) : Parentheses.Kept (Calm cx) := by
  refine ⟨fun n hn => Calm.made hn, fun n hn => ⟨hn.after, fun hkind => ?_⟩, fun n hn => ?_⟩
  · exact absurd hkind (show "ParenthesizedExpression" ≠ "ObjectExpression" by decide)
  · unfold Parentheses.wrapBody
    split
    · exact hn
    · refine ⟨hn.after, fun hkind => ?_⟩
      exact absurd hkind (show "BlockStatement" ≠ "ObjectExpression" by decide)

end Layout

/-! ## Formatting -/

/-- The source has no blank lines and breaks no dictionary behind its brace: the text between the
brace and the first key has no line break in it. -/
structure Compact (source : String) (root : Node) : Prop where
  lines : Text.hasBlankLine source.toList = false
  keys : ∀ n ∈ root.walk, n.kind = "ObjectExpression" → ∀ e es,
    n.get "properties" = .list (.node e :: es) →
      '\n' ∉ ((Source.ofString source).slice n.start e.start).toList

section Sources

variable {source source' : String} {o : Options} {tokens tokens' : List Token}
  {root root' : Node}

/-- The tree of a compact source is calm. -/
theorem Compact.calm (h : parse source o = .ok (root, [])) (hcompact : Compact source root) :
    root.Shaped (Layout.Calm ⟨o.widths, Source.ofString source, []⟩) := by
  refine (parse_clear h).1.of_walk fun n hwalk hn => ⟨?_, fun hkind hfilled => ?_⟩
  · exact Layout.blankLineAfter_of_no_blank o.widths hcompact.lines hn.here.2.1
  · have known : fieldTypes? n.kind = some [("properties", .nodes)] := by
      rw [hkind]
      rfl
    obtain ⟨ns, hns, -⟩ := (hn.get known (List.mem_singleton_self _)).eq_nodes
    cases ns with
    | nil =>
      rw [hns] at hfilled
      cases hfilled
    | cons m ns =>
      have hkey := hcompact.keys n hwalk hkind m (ns.map .node) hns
      rw [Layout.isExpanded_node _ hns]
      split
      · rfl
      · rw [List.contains_eq_mem, decide_eq_false hkey]

/-- A compact source is formatted as its tree without places. -/
theorem formatSource_compact (h : parse source o = .ok (root, []))
    (hcompact : Compact source root) :
    formatSource source o = formatTree root.unspanned [] "" o := by
  have hmade := Parentheses.shaped_made (Layout.kept_calm _) (hcompact.calm h)
  have hexplicit (n : Node) : (Parentheses.explicit n).result = Parentheses.made n := rfl
  have hdocument : Layout.document ⟨o.widths, Source.ofString source, []⟩
        (Parentheses.made root) =
      Layout.document ⟨o.widths, Source.ofString "", []⟩ (Parentheses.made root.unspanned) := by
    have htree := Layout.placeless rfl ((Parentheses.made root).depth + 1) _ [] hmade
    rw [Cursor.unspanned_mk, Value.unspanned_node, List.map_nil] at htree
    unfold Layout.document Cursor.root
    rw [htree, ← Parentheses.made_unspanned, Node.depth_unspanned]
    rfl
  have hattach (n : Node) (text : Source) : attach Layout.mayOwn n text [] = .ok [] := by
    simp [attach]
    rfl
  have hordinary := Parentheses.ordinary_of_parse h
  unfold formatSource
  simp only [h, formatTree, Parentheses.run_of_ordinary hordinary,
    Parentheses.run_unspanned hordinary, hexplicit, hattach, hdocument, bind, Except.bind]

/-- The layout of the tokens in a compact source does not matter. -/
theorem formatSource_canonical
    (htokens : tokenize source o.origin = .ok (tokens, []))
    (htokens' : tokenize source' o.origin = .ok (tokens', []))
    (hsame : tokens.map Token.glyph = tokens'.map Token.glyph)
    (h : parse source o = .ok (root, [])) (h' : parse source' o = .ok (root', []))
    (hcompact : Compact source root) (hcompact' : Compact source' root') :
    formatSource source o = formatSource source' o := by
  have hlike := parse_like htokens htokens' hsame h h'
  rw [formatSource_compact h hcompact, formatSource_compact h' hcompact', hlike.unspanned]

end Sources

/-- A name in a stretch of its own. -/
def nameAt (name : String) (s : Span) : Node := ⟨"Identifier", s, [("name", .str name)]⟩

/-- An entry of a dictionary whose parts stand in stretches of their own. -/
def entryAt (entry key value : Span) : Node :=
  ⟨"Property", entry, [("key", .node (nameAt "a" key)), ("value", .node (nameAt "b" value)),
    ("kind", .str "init")]⟩

/-- A dictionary with one entry. -/
def dictionaryAt (whole : Span) (entry : Node) : Node :=
  ⟨"ObjectExpression", whole, [("properties", .list [.node entry])]⟩

theorem compact_dictionary {source : String} {whole entry key value : Span}
    (lines : Text.hasBlankLine source.toList = false)
    (first : '\n' ∉ ((Source.ofString source).slice whole.start entry.start).toList) :
    Compact source (dictionaryAt whole (entryAt entry key value)) := by
  have hname (name : String) (s : Span) : (nameAt name s).walk = [nameAt name s] := by
    rw [Node.walk_eq]
    rfl
  have hentry : (entryAt entry key value).walk =
      [entryAt entry key value, nameAt "a" key, nameAt "b" value] := by
    rw [Node.walk_eq]
    change _ :: ((nameAt "a" key).walk ++ ((nameAt "b" value).walk ++ [])) = _
    rw [hname, hname]
    rfl
  have hwalk : (dictionaryAt whole (entryAt entry key value)).walk =
      [dictionaryAt whole (entryAt entry key value), entryAt entry key value, nameAt "a" key,
        nameAt "b" value] := by
    rw [Node.walk_eq]
    change _ :: ((entryAt entry key value).walk ++ []) = _
    rw [hentry]
    rfl
  refine ⟨lines, fun n hn hkind e es hes => ?_⟩
  rw [hwalk] at hn
  simp only [List.mem_cons, List.not_mem_nil, or_false] at hn
  rcases hn with rfl | rfl | rfl | rfl
  · cases hes
    exact first
  · exact absurd hkind (show "Property" ≠ "ObjectExpression" by decide)
  · exact absurd hkind (show "Identifier" ≠ "ObjectExpression" by decide)
  · exact absurd hkind (show "Identifier" ≠ "ObjectExpression" by decide)

/-- Two layouts of one dictionary. -/
theorem formatSource_canonical_dictionary :
    formatSource "\x7ba=>b\x7d" { rule := .expression } =
      formatSource "\x7b a\n=>b\n\x7d" { rule := .expression } := by
  let root : Node := dictionaryAt ⟨0, 6, 1, 1, 1, 7⟩
    (entryAt ⟨1, 5, 1, 2, 1, 6⟩ ⟨1, 2, 1, 2, 1, 3⟩ ⟨4, 5, 1, 5, 1, 6⟩)
  let root' : Node := dictionaryAt ⟨0, 9, 1, 1, 3, 2⟩
    (entryAt ⟨2, 7, 1, 3, 2, 4⟩ ⟨2, 3, 1, 3, 1, 4⟩ ⟨6, 7, 2, 3, 2, 4⟩)
  have h : parse "\x7ba=>b\x7d" { rule := .expression } = .ok (root, []) := by decide +kernel
  have h' : parse "\x7b a\n=>b\n\x7d" { rule := .expression } = .ok (root', []) := by decide +kernel
  obtain ⟨tokens, -, htokens, -⟩ := parse_eq_ok h
  obtain ⟨tokens', -, htokens', -⟩ := parse_eq_ok h'
  have hsame : tokens.map Token.glyph = tokens'.map Token.glyph := by
    have hglyphs : ((tokenize "\x7ba=>b\x7d" none).toOption.map fun r => r.1.map Token.glyph) =
        (tokenize "\x7b a\n=>b\n\x7d" none).toOption.map fun r => r.1.map Token.glyph := by
      decide +kernel
    rw [htokens, htokens'] at hglyphs
    exact Option.some.inj hglyphs
  exact formatSource_canonical htokens htokens' hsame h h'
    (compact_dictionary (by decide) (by decide)) (compact_dictionary (by decide) (by decide))

end MonkeyFormat
