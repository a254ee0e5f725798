import MonkeyFormat.Proofs.AccountRules
import MonkeyFormat.Proofs.Addresses

set_option autoImplicit false

/-! # Trees keep account

The comments of a tree are those of its nodes, each at the address where it stands. Whatever the
layout makes of a tree holds just these comments. The induction is on the fuel: a rule gets the
comments below each field from the layouts of the children, and the node's own come around it. Of a
node that is kept as it is the comments inside are entered, since the kept source has them. -/

namespace MonkeyFormat

namespace Layout

open Doc (Holds HoldsAll)

/-! ## The comments of a tree -/

/-- Things that are sorted by where they are from are all there. -/
theorem sum_filter_eq {α ι : Type} [DecidableEq ι] (f : α → ι) {is : List ι} (his : is.Nodup)
    {l : List α} (hl : ∀ a ∈ l, f a ∈ is) :
    (is.map fun i => (↑(l.filter fun a => f a = i) : Multiset α)).sum = ↑l := by
  induction is generalizing l with
  | nil =>
    cases l with
    | nil => rfl
    | cons a l => exact absurd (hl a List.mem_cons_self) List.not_mem_nil
  | cons i is ih =>
    rw [List.nodup_cons] at his
    have hrest : ∀ a ∈ l.filter (fun a => !decide (f a = i)), f a ∈ is := by
      intro a ha
      rw [List.mem_filter] at ha
      rcases List.mem_cons.1 (hl a ha.1) with h | h
      · simp [h] at ha
      · exact h
    have hsame : (is.map fun j => (↑(l.filter fun a => f a = j) : Multiset α)) =
        is.map fun j => ↑((l.filter fun a => !decide (f a = i)).filter fun a => f a = j) := by
      refine List.map_congr_left fun j hj => ?_
      rw [List.filter_filter]
      congr 1
      refine List.filter_congr fun a _ => ?_
      by_cases hij : f a = j
      · have hne : j ≠ i := by
          rintro rfl
          exact his.1 hj
        simp [hij, hne]
      · simp [hij]
    rw [List.map_cons, List.sum_cons, hsame, ih his.2 hrest, Multiset.coe_add, Multiset.coe_eq_coe]
    exact List.filter_append_perm (fun a => decide (f a = i)) l

section Entrusted

variable (cx : Context)

/-- The comments that the node at an address owns. -/
def ownAt (addr : Address) : List Attached := cx.attached.filter fun a => a.owner = addr

/-- The comments that the nodes of a tree own, its root being at an address. -/
def entrusted (n : Node) (base : Address) : Multiset Attached :=
  ((n.places base).map fun p => (↑(ownAt cx p.1) : Multiset Attached)).sum

/-- The comments of the trees in a field of a node. -/
def fieldEntrusted (n : Node) (base : Address) (name : String) : Multiset Attached :=
  (((n.get name).slots name).map fun s => entrusted cx s.2 (base ++ s.1)).sum

variable {cx} {n : Node} {base : Address} {name : String}

theorem entrusted_eq (n : Node) (base : Address) : entrusted cx n base =
    ↑(ownAt cx base) + (n.childKeys.map (fieldEntrusted cx n base)).sum := by
  rw [entrusted, Node.places_eq, List.map_cons, List.sum_cons, Node.slots]
  congr 1
  induction n.childKeys with
  | nil => rfl
  | cons key keys ih =>
    rw [List.flatMap_cons, List.flatMap_append, List.map_append, List.sum_append, ih,
      List.map_cons, List.sum_cons]
    congr 1
    rw [fieldEntrusted]
    induction (n.get key).slots key with
    | nil => rfl
    | cons s slots ih =>
      rw [List.flatMap_cons, List.map_append, List.sum_append, ih, List.map_cons, List.sum_cons]
      rfl

theorem fieldEntrusted_null (h : n.get name = .null) : fieldEntrusted cx n base name = 0 := by
  rw [fieldEntrusted, h]
  rfl

theorem fieldEntrusted_node {m : Node} (h : n.get name = .node m) :
    fieldEntrusted cx n base name = entrusted cx m (base ++ [.field name]) := by
  rw [fieldEntrusted, h]
  exact add_zero _

theorem fieldEntrusted_nodes (base : Address) {ns : List Node}
    (h : n.get name = .list (ns.map .node)) : fieldEntrusted cx n base name =
      (ns.zipIdx.map fun s => entrusted cx s.1 (base ++ [.field name, .index s.2])).sum := by
  rw [fieldEntrusted, h, Value.slots_nodes, List.map_map]
  rfl

end Entrusted

section Sites

variable {cx : Context} {P : Node → Prop} {n : Node} {here : Address}

/-- A tree of the right shape at an address, below which there are no comments but those of its
nodes. -/
structure Site (cx : Context) (P : Node → Prop) (n : Node) (here : Address) : Prop where
  shaped : n.Shaped P
  covers : ∀ a ∈ cx.attached, here <+: a.owner → a.owner ∈ (n.places here).map Prod.fst

theorem Site.slot (h : Site cx P n here) {s : Address × Node} (hs : s ∈ n.slots) :
    Site cx P s.2 (here ++ s.1) where
  shaped := h.shaped.slots s hs
  covers a ha hthrough := h.shaped.mem_places_below
    (h.covers a ha ((List.prefix_append here s.1).trans hthrough)) hs hthrough

/-- The comments of the tree are those below its address. -/
theorem Site.entrusted_eq_filter (h : Site cx P n here) :
    entrusted cx n here = ↑(cx.attached.filter fun a => here.isPrefixOf a.owner) := by
  have hall : ∀ a ∈ cx.attached.filter fun a => here.isPrefixOf a.owner,
      a.owner ∈ (n.places here).map Prod.fst := by
    intro a ha
    obtain ⟨ha, hbelow⟩ := List.mem_filter.1 ha
    exact h.covers a ha (List.isPrefixOf_iff_prefix.1 hbelow)
  rw [← sum_filter_eq Attached.owner (h.shaped.nodup_places here) hall, List.map_map, entrusted]
  refine congrArg List.sum (List.map_congr_left fun p hp => ?_)
  have hprefix := List.isPrefixOf_iff_prefix.2 (Node.prefix_of_mem_places hp)
  rw [Function.comp_apply, List.filter_filter, ownAt]
  refine congrArg _ (List.filter_congr fun a _ => ?_)
  by_cases howner : a.owner = p.1
  · simp [howner, hprefix]
  · simp [howner]

theorem filter_split (l : List Attached) (p q : Attached → Bool) :
    (↑(l.filter p) : Multiset Attached) =
      ↑(l.filter fun a => q a && p a) + ↑(l.filter fun a => !q a && p a) := by
  rw [Multiset.coe_add, Multiset.coe_eq_coe, ← List.filter_filter, ← List.filter_filter]
  exact (List.filter_append_perm q (l.filter p)).symm

/-- The comments inside a tree: the dangling ones of its root, and those below. -/
theorem Site.inside_eq (h : Site cx P n here) :
    (↑(cx.attached.filter fun a => here.isPrefixOf a.owner &&
      (decide (a.owner ≠ here) || decide (a.role = .dangling))) : Multiset Attached) =
      ↑((ownAt cx here).filter (·.role = .dangling)) +
        (n.childKeys.map (fieldEntrusted cx n here)).sum := by
  have hself : here.isPrefixOf here = true := List.isPrefixOf_iff_prefix.2 (List.prefix_refl here)
  have hbelow : (n.childKeys.map (fieldEntrusted cx n here)).sum =
      ↑(cx.attached.filter fun a => !decide (a.owner = here) && here.isPrefixOf a.owner) := by
    have hall := (entrusted_eq n here).symm.trans h.entrusted_eq_filter
    have hroot : (cx.attached.filter fun a => decide (a.owner = here) && here.isPrefixOf a.owner) =
        ownAt cx here := by
      refine List.filter_congr fun a _ => ?_
      by_cases howner : a.owner = here
      · simp [howner, hself]
      · simp [howner]
    rw [filter_split cx.attached _ fun a => decide (a.owner = here), hroot] at hall
    exact add_left_cancel hall
  rw [hbelow, filter_split cx.attached _ fun a => decide (a.owner = here), ownAt,
    List.filter_filter]
  congr 2
  · refine List.filter_congr fun a _ => ?_
    by_cases howner : a.owner = here
    · simp [howner, hself]
    · simp [howner]
  · refine List.filter_congr fun a _ => ?_
    by_cases howner : a.owner = here
    · simp [howner]
    · simp [howner]

end Sites

/-! ## The layouts of children -/

section Children

variable {cx : Context} {P : Node → Prop} {fuel : Nat} {n : Node} {above : List (Step × Value)}
  {name : String}

/-- The tree under a cursor. -/
abbrev SiteOf (cx : Context) (P : Node → Prop) (n : Node) (above : List (Step × Value)) : Prop :=
  Site cx P n (Cursor.address ⟨.node n, above⟩)

/-- Trees that are not too deep for the fuel are laid out with the comments in them. -/
def Accounted (cx : Context) (P : Node → Prop) (fuel : Nat) : Prop :=
  ∀ (n : Node) (above : List (Step × Value)), SiteOf cx P n above → n.depth < fuel →
    Keeps (tree cx fuel ⟨.node n, above⟩) (entrusted cx n (Cursor.address ⟨.node n, above⟩))

/-- The comments below a field of the node under a cursor. -/
abbrev beneath (cx : Context) (n : Node) (above : List (Step × Value)) (name : String) :
    Multiset Attached := fieldEntrusted cx n (Cursor.address ⟨.node n, above⟩) name

theorem address_step (step : Step) (v w : Value) (above : List (Step × Value)) :
    Cursor.address ⟨v, (step, w) :: above⟩ = Cursor.address ⟨w, above⟩ ++ [step] := by
  simp [Cursor.address]

theorem Accounted.gives (h : Accounted cx P fuel)
    (hn : SiteOf cx P n above) (hdepth : n.depth ≤ fuel)
    {types : List (String × FieldType)} (known : fieldTypes? n.kind = some types)
    {type : FieldType} (hmem : (name, type) ∈ types) (htype : type = .node ∨ type = .optional) :
    Gives (below cx fuel) ⟨.node n, above⟩ n name (beneath cx n above name) := by
  have hbelow := depth_get n name
  have hkey : name ∈ n.childKeys := Node.mem_childKeys known hmem (by
    rcases htype with rfl | rfl
    · rfl
    · rfl)
  have hnode {m : Node} (hget : n.get name = .node m) :
      Gives (below cx fuel) ⟨.node n, above⟩ n name (beneath cx n above name) := by
    refine ⟨?_, .inr ⟨m, hget⟩⟩
    have hm := hn.slot (Node.mem_slots_of_node hkey hget)
    change Keeps (tree cx fuel (Cursor.field ⟨.node n, above⟩ name)) _
    rw [hget] at hbelow
    rw [Cursor.field_eq hget, beneath, fieldEntrusted_node hget]
    rw [← address_step _ (.node m)] at hm ⊢
    exact h m _ hm (Nat.lt_of_lt_of_le hbelow hdepth)
  have hfits := hn.shaped.get known hmem
  generalize hget : n.get name = v at hfits
  cases hfits with
  | node _ => exact hnode hget
  | some _ => exact hnode hget
  | none =>
    rw [beneath, fieldEntrusted_null hget]
    refine ⟨?_, .inl ⟨hget, rfl⟩⟩
    change Keeps (tree cx fuel (Cursor.field ⟨.node n, above⟩ name)) _
    rw [Cursor.field_eq hget]
    cases fuel with
    | zero => omega
    | succ fuel => exact .pure (.bare (by decide))
  | _ => simp at htype

theorem keepsAll_bodyPart {child : Child} {e : Cursor} {as : Multiset Attached}
    (h : Keeps (child e none) as) (hblank : ∃ b, blankLineAfter cx e.focus = .ok b)
    (count i : Nat) : KeepsAll (bodyPart cx child count e i) as := by
  obtain ⟨blank, hblank⟩ := hblank
  refine h.last fun d hd => ?_
  split
  · refine .look hblank (.pure ?_)
    exact HoldsAll.of_eq (.append (.front hd (.one (.line .hard)))
      (.ite (.one (.line .hard)) .nil)) (add_zero _)
  · exact .pure (.one hd)

theorem itemCursors_nodes (whole : Value) (above : List (Step × Value)) (ns : List Node) :
    itemCursors whole above 0 (ns.map .node) =
      ns.zipIdx.map fun s => ⟨.node s.1, (.index s.2, whole) :: above⟩ := by
  rw [itemCursors, List.zipIdx_map, List.map_map]
  rfl

theorem Accounted.lists (h : Accounted cx P fuel) (hP : ∀ m, P m → 0 ≤ m.stop)
    (hn : SiteOf cx P n above) (hdepth : n.depth ≤ fuel)
    (hkey : name ∈ n.childKeys) {ns : List Node} (hget : n.get name = .list (ns.map .node))
    (hns : ∀ m ∈ ns, m.Shaped P) :
    Lists cx (below cx fuel) ⟨.node n, above⟩ n name (beneath cx n above name) ns := by
  have hblank : ∀ m ∈ ns, ∃ b, blankLineAfter cx (.node m) = .ok b := fun m hm =>
    blankLineAfter_eq_ok cx (hP m (hns m hm).here)
  -- an element is laid out at its place in the list
  have hitem : ∀ (m : Node) (i : Nat), (m, i) ∈ ns.zipIdx → Keeps (below cx fuel ⟨.node m,
      (.index i, .list (ns.map .node)) :: (.field name, .node n) :: above⟩ none) (entrusted cx m
        (Cursor.address ⟨.node n, above⟩ ++ [.field name, .index i])) := by
    intro m i hm
    have hless : m.depth < n.depth :=
      @depth_element _ id _ _ _ _ hget (List.fst_mem_of_mem_zipIdx hm)
    have haddress : Cursor.address ⟨.node m, (.index i, .list (ns.map .node)) ::
        (.field name, .node n) :: above⟩ =
          Cursor.address ⟨.node n, above⟩ ++ [.field name, .index i] := by simp [Cursor.address]
    have hvalue : (Value.node m, i) ∈ (ns.map Value.node).zipIdx := by
      rw [List.zipIdx_map]
      exact List.mem_map_of_mem (f := Prod.map Value.node id) hm
    have hsite := hn.slot (Node.mem_slots_of_item hkey hget hvalue rfl)
    rw [← haddress] at hsite ⊢
    exact h m _ hsite (Nat.lt_of_lt_of_le hless hdepth)
  have hsum : fieldEntrusted cx n _ name = _ :=
    fieldEntrusted_nodes (Cursor.address ⟨.node n, above⟩) hget
  refine ⟨hget, ?_, ?_, ?_, ?_, hblank⟩
  · have hlays := keepsAll_mapM (l := ns.zipIdx) fun s hs => hitem s.1 s.2 hs
    unfold eachOf
    rw [Cursor.field_eq hget, elements_list, itemCursors_nodes, beneath, hsum]
    change Lays (List.mapM _ (List.map _ ns.zipIdx)) _ _
    rw [List.mapM_map]
    refine hlays.weaken fun ds hds => ⟨hds.1, ?_⟩
    rw [hds.2, List.length_zipIdx]
  · have hplaces := List.zipIdx_map_fst 0 ns.zipIdx
    rw [statements_eq cx _ hget, itemCursors_nodes, beneath, hsum, List.zipIdx_map, List.mapM_map,
      ← hplaces, List.map_map, hplaces]
    refine keepsAll_flatten fun s hs => ?_
    have hs' := List.fst_mem_of_mem_zipIdx hs
    exact keepsAll_bodyPart (hitem s.1.1 s.1.2 hs')
      (hblank s.1.1 (List.fst_mem_of_mem_zipIdx hs')) _ _
  · rintro rfl
    exact hsum
  · rintro m rfl
    refine ⟨⟨.node m, (.index 0, .list [.node m]) :: (.field name, .node n) :: above⟩, ?_, ?_⟩
    · rw [Cursor.field_eq hget]
      rfl
    · rw [beneath, hsum]
      exact Keeps.of_eq (hitem m 0 List.mem_cons_self) (add_zero _).symm

end Children

/-! ## Chains -/

section Chains

variable {cx : Context} {P : Node → Prop} {fuel : Nat} {n : Node} {above : List (Step × Value)}

theorem childKeys_of {kind : String} {keys : List String} (hkind : n.kind = kind)
    (h : childFields? kind = some keys) : n.childKeys = keys := by
  rw [Node.childKeys, hkind, h]
  rfl

theorem entrusted_operation (hkind : n.kind = "BinaryExpression" ∨ n.kind = "LogicalExpression") :
    entrusted cx n (Cursor.address ⟨.node n, above⟩) = ↑(own cx ⟨.node n, above⟩) +
      (beneath cx n above "left" + beneath cx n above "right") := by
  have hkeys : n.childKeys = ["left", "right"] := by
    rcases hkind with hkind | hkind
    · exact childKeys_of hkind rfl
    · exact childKeys_of hkind rfl
  rw [entrusted_eq, hkeys, List.map_cons, List.map_cons, List.sum_cons, List.sum_cons]
  exact congrArg _ (congrArg _ (add_zero _))

/-- A chain holds the comments of all its operands, and those of the operations that are flattened
into it. -/
theorem keepsAll_chain (h : Accounted cx P fuel) (hin : ∀ a ∈ cx.attached, InSource cx a)
    (hkind : n.kind = "BinaryExpression" ∨ n.kind = "LogicalExpression")
    (hn : SiteOf cx P n above) (hdepth : n.depth ≤ fuel) {links : Nat}
    (hlinks : n.depth ≤ links) (nested : Bool) :
    KeepsAll (chain cx (below cx fuel) links nested ⟨.node n, above⟩ n)
      (↑(if nested then own cx ⟨.node n, above⟩ else []) +
        (beneath cx n above "left" + beneath cx n above "right")) := by
  induction links generalizing n above nested with
  | zero =>
    have hpos := depth_get n "left"
    omega
  | succ links ih =>
    have hknown := fieldTypes_binary hkind
    have hmem : ("left", FieldType.node) ∈
        [("operator", .text), ("left", .node), ("right", .node)] := by simp
    have hleft : Keeps _ (beneath cx n above "left") :=
      (h.gives hn hdepth hknown hmem (.inl rfl)).keeps
    have hright : Keeps _ (beneath cx n above "right") :=
      (h.gives hn hdepth hknown (show ("right", .node) ∈ _ by simp) (.inl rfl)).keeps
    obtain ⟨l, hl, _⟩ := (hn.shaped.get hknown hmem).eq_node
    obtain ⟨op, hop⟩ := (hn.shaped.get hknown (show ("operator", .text) ∈ _ by simp)).eq_str
    have hop' : Text.opensComment op = false := by
      have hfits := hn.shaped.get hknown (show ("operator", .text) ∈ _ by simp)
      rw [hop] at hfits
      cases hfits
      assumption
    have hless : l.depth < n.depth := by
      have hget := depth_get n "left"
      rw [hl] at hget
      exact hget
    -- a flattened operand is laid out with its own comments around it
    have hchain : chainsLeft n = true → KeepsAll (chain cx (below cx fuel) links true
        (Cursor.field ⟨.node n, above⟩ "left") l) (beneath cx n above "left") := by
      intro hchains
      have hkind := kind_of_chainsLeft hl hchains
      have hsite := hn.slot (Node.mem_slots_of_node (Node.mem_childKeys hknown hmem rfl) hl)
      rw [← address_step _ (.node l)] at hsite
      rw [beneath, fieldEntrusted_node hl, ← address_step _ (.node l), Cursor.field_eq hl,
        entrusted_operation hkind]
      exact ih hkind hsite (by omega) (by omega) true
    unfold chain
    rw [hl, hop, add_comm, add_assoc]
    dsimp only
    refine Lays.fork (P := fun ds => HoldsAll ds (forms (beneath cx n above "left"))) hchain
      (hleft.weaken fun d hd => .one (hd.group false)) fun front hfront => ?_
    refine hright.bind fun d hd => ?_
    have hoperand : (Doc.list [Doc.ofValue (.str op),
        if inlinesRight n then .bare " " else .space, d]).Holds
          (forms (beneath cx n above "right")) :=
      .list (.plain (holds_ofText hop') (.plain (.ite (.bare (by decide)) (.line .space))
        (.one hd)))
    have hparts {p : Prop} [Decidable p] {e e' : Doc}
        (he : e.Holds (forms (beneath cx n above "right")))
        (he' : e'.Holds (forms (beneath cx n above "right"))) :
        HoldsAll (front ++ [.bare " ", if p then e else e'])
          (forms (beneath cx n above "left" + beneath cx n above "right")) := by
      rw [forms_add]
      exact hfront.append (.plain (.bare (by decide)) (.one (.ite he he')))
    have hown : ∀ a ∈ own cx ⟨.node n, above⟩, InSource cx a :=
      fun a ha => hin a (List.mem_of_mem_filter ha)
    split
    · next haround =>
      rw [Bool.and_eq_true] at haround
      rw [haround.1, ← add_assoc, forms_add, add_comm (forms _)]
      refine Lays.last (lays_allAround hown (.list (hparts (hoperand.group false) hoperand)))
        fun d hd => .pure (.one hd)
    · next hplain =>
      have hnone : (if nested then own cx ⟨.node n, above⟩ else []) = [] := by
        cases nested with
        | false => rfl
        | true => simpa using hplain
      rw [hnone]
      refine .pure ?_
      change HoldsAll _ (forms (_ + (_ + 0)))
      rw [add_zero]
      exact hparts (hoperand.group false) hoperand

end Chains

/-! ## All rules -/

section All

variable {cx : Context} {P : Node → Prop} {fuel : Nat} {n : Node} {above : List (Step × Value)}

/-- What the fields of a node that has the given ones are laid out as. -/
structure Provision (cx : Context) (fuel : Nat) (n : Node) (above : List (Step × Value))
    (types : List (String × FieldType)) : Prop where
  node : ∀ name, (name, .node) ∈ types → ∃ m, n.get name = .node m
  text : ∀ name, (name, .text) ∈ types → ∃ s, n.get name = .str s ∧ Text.opensComment s = false
  suffix : ∀ name, (name, .suffix) ∈ types → (fieldOr n name "").Holds 0
  keeps : ∀ name, (name, .node) ∈ types →
    Keeps (below cx fuel ⟨.node n, above⟩ name) (beneath cx n above name)
  gives : ∀ name, (name, .optional) ∈ types →
    Gives (below cx fuel) ⟨.node n, above⟩ n name (beneath cx n above name)
  lists : ∀ name, (name, .nodes) ∈ types → ∃ ns,
    Lists cx (below cx fuel) ⟨.node n, above⟩ n name (beneath cx n above name) ns

theorem Accounted.provision (h : Accounted cx P fuel) (hP : ∀ m, P m → 0 ≤ m.stop)
    (hn : SiteOf cx P n above) (hdepth : n.depth ≤ fuel) {kind : String}
    {types : List (String × FieldType)} (hkind : n.kind = kind)
    (known : fieldTypes? kind = some types) : Provision cx fuel n above types := by
  subst hkind
  refine ⟨fun name hname => ?_, fun name hname => ?_, fun name hname => ?_, fun name hname => ?_,
    fun name hname => ?_, fun name hname => ?_⟩
  · obtain ⟨m, hm, _⟩ := (hn.shaped.get known hname).eq_node
    exact ⟨m, hm⟩
  · have hfits := hn.shaped.get known hname
    generalize n.get name = v at hfits
    cases hfits with
    | text hs => exact ⟨_, rfl, hs⟩
  · have hfits := hn.shaped.get known hname
    generalize hget : n.get name = v at hfits
    cases hfits with
    | suffix hs => exact holds_fieldOr hget hs (by decide)
    | noSuffix =>
      unfold fieldOr
      rw [hget]
      exact .bare (by decide)
  · exact (h.gives hn hdepth known hname (.inl rfl)).keeps
  · exact h.gives hn hdepth known hname (.inr rfl)
  · obtain ⟨ns, hns, hshaped⟩ := (hn.shaped.get known hname).eq_nodes
    exact ⟨ns, h.lists hP hn hdepth (Node.mem_childKeys known hname rfl) hns hshaped⟩

/-- The rule of a node lays out the comments below it, and perhaps some of its own. -/
def Tallies (cx : Context) (fuel : Nat) (n : Node) (above : List (Step × Value)) : Prop :=
  Tells cx ⟨.node n, above⟩ (monkeyRule cx (below cx fuel) ⟨.node n, above⟩ n (snake n.kind))
    (n.childKeys.map (beneath cx n above)).sum

variable {as : Multiset Attached} {kind : String} {keys : List String}

theorem Tallies.of_rule (rule : String) (hkind : n.kind = kind) (hmem : (kind, rule) ∈ ruleNames)
    (hkeys : childFields? kind = some keys)
    (h : Tells cx ⟨.node n, above⟩ (monkeyRule cx (below cx fuel) ⟨.node n, above⟩ n rule) as)
    (hsum : as = (keys.map (beneath cx n above)).sum) : Tallies cx fuel n above := by
  unfold Tallies
  rw [childKeys_of hkind hkeys, ← hsum, hkind, snake_of_mem hmem]
  exact h

theorem Tallies.of_generic (rule : String) (hkind : n.kind = kind)
    (hmem : (kind, rule) ∈ ruleNames) (hkeys : childFields? kind = some keys)
    (hmonkey : ∀ cx child c n, monkeyRule cx child c n rule = generic cx child c)
    (h : Tells cx ⟨.node n, above⟩ (genericRule cx (below cx fuel) ⟨.node n, above⟩ n rule) as)
    (hsum : as = (keys.map (beneath cx n above)).sum) : Tallies cx fuel n above := by
  refine .of_rule rule hkind hmem hkeys ?_ hsum
  rw [hmonkey]
  exact tells_generic (by rw [hkind, snake_of_mem hmem]) h

theorem Tallies.of_attributed {bs : Multiset Attached} (rule : String) (hkind : n.kind = kind)
    (hmem : (kind, rule) ∈ ruleNames) (hkeys : childFields? kind = some keys)
    (hmonkey : ∀ cx child c n, monkeyRule cx child c n rule = attributed cx child c n)
    (hattrs : Gives (below cx fuel) ⟨.node n, above⟩ n "attrs" as)
    (h : Keeps (genericRule cx (below cx fuel) ⟨.node n, above⟩ n rule) bs)
    (hsum : as + bs = (keys.map (beneath cx n above)).sum) : Tallies cx fuel n above := by
  refine .of_rule rule hkind hmem hkeys ?_ hsum
  rw [hmonkey]
  exact (keeps_attributed (by rw [hkind, snake_of_mem hmem]) hattrs h).tells

theorem tallies_declaration (h : Accounted cx P fuel) (hP : ∀ m, P m → 0 ≤ m.stop)
    (hn : SiteOf cx P n above) (hdepth : n.depth ≤ fuel) (hkind : n.kind ∈ declarationKinds) :
    Tallies cx fuel n above := by
  simp only [declarationKinds, List.mem_cons, List.not_mem_nil, or_false] at hkind
  rcases hkind with hkind | hkind | hkind | hkind | hkind | hkind | hkind | hkind | hkind | hkind
    | hkind | hkind | hkind | hkind | hkind | hkind | hkind
  · have p : Provision cx fuel n above _ := h.provision hP hn hdepth hkind rfl
    obtain ⟨ns, hbody⟩ := p.lists "body" (by simp)
    exact .of_generic "program" hkind (by decide) rfl (fun _ _ _ _ => rfl)
      (tells_program hbody) (by simp)
  · have p : Provision cx fuel n above _ := h.provision hP hn hdepth hkind rfl
    exact .of_rule "module_declaration" hkind (by decide) rfl
      (keeps_moduleDeclaration (p.gives "attrs" (by simp)) (p.keeps "id" (by simp))
        (p.keeps "body" (by simp))).tells (by simp [add_assoc, add_comm])
  · have p : Provision cx fuel n above _ := h.provision hP hn hdepth hkind rfl
    exact .of_attributed "class_declaration" hkind (by decide) rfl (fun _ _ _ _ => rfl)
      (p.gives "attrs" (by simp)) (keeps_classDeclaration (p.keeps "id" (by simp))
        (p.gives "superClass" (by simp)) (p.keeps "body" (by simp))) (by simp)
  · have p : Provision cx fuel n above _ := h.provision hP hn hdepth hkind rfl
    obtain ⟨ns, hbody⟩ := p.lists "body" (by simp)
    exact .of_generic "class_body" hkind (by decide) rfl (fun _ _ _ _ => rfl)
      (tells_bracedBody hbody) (by simp)
  · have p : Provision cx fuel n above _ := h.provision hP hn hdepth hkind rfl
    exact .of_rule "class_element" hkind (by decide) rfl (p.keeps "item" (by simp)).tells (by simp)
  · have p : Provision cx fuel n above _ := h.provision hP hn hdepth hkind rfl
    obtain ⟨ns, hparams⟩ := p.lists "params" (by simp)
    exact .of_attributed "function_declaration" hkind (by decide) rfl (fun _ _ _ _ => rfl)
      (p.gives "attrs" (by simp)) (keeps_functionDeclaration hparams
        (p.gives "returnType" (by simp)) (p.keeps "id" (by simp)) (p.gives "body" (by simp)))
      (by simp [add_left_comm, add_assoc])
  · have p : Provision cx fuel n above _ := h.provision hP hn hdepth hkind rfl
    obtain ⟨ns, hparams⟩ := p.lists "params" (by simp)
    obtain ⟨s, hkey, hs⟩ := p.text "key" (by simp)
    exact .of_generic "method_definition" hkind (by decide) rfl (fun _ _ _ _ => rfl)
      (keeps_methodDefinition hkey hs hparams (p.gives "returnType" (by simp))).tells (by simp)
  · have p : Provision cx fuel n above _ := h.provision hP hn hdepth hkind rfl
    obtain ⟨ns, hdeclarations⟩ := p.lists "declarations" (by simp)
    obtain ⟨s, hget, hs⟩ := p.text "kind" (by simp)
    exact .of_attributed "variable_declaration" hkind (by decide) rfl (fun _ _ _ _ => rfl)
      (p.gives "attrs" (by simp)) (keeps_variableDeclaration hget hs hdeclarations) (by simp)
  · have p : Provision cx fuel n above _ := h.provision hP hn hdepth hkind rfl
    exact .of_generic "variable_declarator" hkind (by decide) rfl (fun _ _ _ _ => rfl)
      (keeps_initialized (p.keeps "id" (by simp)) (p.gives "init" (by simp))).tells (by simp)
  · have p : Provision cx fuel n above _ := h.provision hP hn hdepth hkind rfl
    exact .of_rule "enum_declaration" hkind (by decide) rfl
      (keeps_enumDeclaration (p.gives "id" (by simp)) (p.gives "attrs" (by simp))
        (p.keeps "body" (by simp))).tells (by simp [add_left_comm])
  · have p : Provision cx fuel n above _ := h.provision hP hn hdepth hkind rfl
    obtain ⟨ns, hmembers⟩ := p.lists "members" (by simp)
    exact .of_generic "enum_string_body" hkind (by decide) rfl (fun _ _ _ _ => rfl)
      (tells_enumBody hmembers) (by simp)
  · have p : Provision cx fuel n above _ := h.provision hP hn hdepth hkind rfl
    obtain ⟨m, hm⟩ := p.node "init" (by simp)
    exact .of_generic "enum_string_member" hkind (by decide) rfl (fun _ _ _ _ => rfl)
      (keeps_initialized (p.keeps "id" (by simp))
        ⟨p.keeps "init" (by simp), .inr ⟨m, hm⟩⟩).tells (by simp)
  · have p : Provision cx fuel n above _ := h.provision hP hn hdepth hkind rfl
    exact .of_rule "typedef_declaration" hkind (by decide) rfl
      (keeps_typedefDeclaration (p.gives "attrs" (by simp)) (p.keeps "id" (by simp))
        (p.keeps "ts" (by simp))).tells (by simp [add_comm, add_left_comm])
  · have p : Provision cx fuel n above _ := h.provision hP hn hdepth hkind rfl
    exact .of_rule "import_module" hkind (by decide) rfl
      (keeps_importModule (p.keeps "id" (by simp))).tells (by simp)
  · have p : Provision cx fuel n above _ := h.provision hP hn hdepth hkind rfl
    exact .of_rule "using" hkind (by decide) rfl
      (keeps_usingImport (p.keeps "id" (by simp)) (p.gives "as" (by simp))).tells (by simp)
  · have p : Provision cx fuel n above _ := h.provision hP hn hdepth hkind rfl
    obtain ⟨access, haccess, hnone⟩ := accessText_eq_ok
      (hn.shaped.get (known_of hkind rfl) (show ("access", FieldType.words) ∈ _ by simp))
    exact .of_rule "attribute_list" hkind (by decide) rfl
      (keeps_attributeList haccess hnone (p.gives "attributes" (by simp))).tells (by simp)
  · have p : Provision cx fuel n above _ := h.provision hP hn hdepth hkind rfl
    obtain ⟨ns, helements⟩ := p.lists "elements" (by simp)
    exact .of_rule "attributes" hkind (by decide) rfl (keeps_attributes helements).tells (by simp)

theorem tallies_statement (h : Accounted cx P fuel) (hP : ∀ m, P m → 0 ≤ m.stop)
    (hn : SiteOf cx P n above) (hdepth : n.depth ≤ fuel) (hkind : n.kind ∈ statementKinds) :
    Tallies cx fuel n above := by
  simp only [statementKinds, List.mem_cons, List.not_mem_nil, or_false] at hkind
  rcases hkind with hkind | hkind | hkind | hkind | hkind | hkind | hkind | hkind | hkind | hkind
    | hkind | hkind | hkind | hkind | hkind | hkind
  · have p : Provision cx fuel n above _ := h.provision hP hn hdepth hkind rfl
    obtain ⟨ns, hbody⟩ := p.lists "body" (by simp)
    exact .of_generic "block_statement" hkind (by decide) rfl (fun _ _ _ _ => rfl)
      (tells_bracedBody hbody) (by simp)
  · have p : Provision cx fuel n above _ := h.provision hP hn hdepth hkind rfl
    exact .of_generic "expression_statement" hkind (by decide) rfl (fun _ _ _ _ => rfl)
      (Keeps.tells ((p.keeps "expression" (by simp)).last fun d hd => .pure (.list (.front hd
        (.one (.bare (by decide))))))) (by simp)
  · have p : Provision cx fuel n above _ := h.provision hP hn hdepth hkind rfl
    obtain ⟨m, hm⟩ := p.node "consequent" (by simp)
    exact .of_generic "if_statement" hkind (by decide) rfl (fun _ _ _ _ => rfl)
      (keeps_ifStatement hm (p.keeps "test" (by simp)) (p.keeps "consequent" (by simp))
        (p.gives "alternate" (by simp))).tells (by simp)
  · have p : Provision cx fuel n above _ := h.provision hP hn hdepth hkind rfl
    obtain ⟨m, hm⟩ := p.node "body" (by simp)
    exact .of_generic "while_statement" hkind (by decide) rfl (fun _ _ _ _ => rfl)
      (keeps_whileStatement hm (p.keeps "test" (by simp)) (p.keeps "body" (by simp))).tells
      (by simp)
  · have p : Provision cx fuel n above _ := h.provision hP hn hdepth hkind rfl
    obtain ⟨m, hm⟩ := p.node "body" (by simp)
    exact .of_generic "do_while_statement" hkind (by decide) rfl (fun _ _ _ _ => rfl)
      (keeps_doStatement hm (p.keeps "body" (by simp)) (p.keeps "test" (by simp))).tells (by simp)
  · have p : Provision cx fuel n above _ := h.provision hP hn hdepth hkind rfl
    obtain ⟨m, hm⟩ := p.node "body" (by simp)
    exact .of_generic "for_statement" hkind (by decide) rfl (fun _ _ _ _ => rfl)
      (keeps_forStatement hm (p.keeps "body" (by simp)) (p.gives "init" (by simp))
        (p.gives "test" (by simp)) (p.gives "update" (by simp))).tells
      (by simp [add_comm, add_left_comm])
  · have p : Provision cx fuel n above _ := h.provision hP hn hdepth hkind rfl
    obtain ⟨ns, hcases⟩ := p.lists "cases" (by simp)
    exact .of_generic "switch_statement" hkind (by decide) rfl (fun _ _ _ _ => rfl)
      (tells_switchStatement (p.keeps "discriminant" (by simp)) hcases) (by simp)
  · have p : Provision cx fuel n above _ := h.provision hP hn hdepth hkind rfl
    obtain ⟨ns, hconsequent⟩ := p.lists "consequent" (by simp)
    exact .of_generic "switch_case" hkind (by decide) rfl (fun _ _ _ _ => rfl)
      (keeps_switchCase (p.gives "test" (by simp)) hconsequent).tells (by simp)
  · have p : Provision cx fuel n above _ := h.provision hP hn hdepth hkind rfl
    exact .of_rule "instance_of_case" hkind (by decide) rfl
      (Keeps.tells ((p.keeps "id" (by simp)).last fun d hd => .pure (.list (.plain
        (.bare (by decide)) (.one hd))))) (by simp)
  · have p : Provision cx fuel n above _ := h.provision hP hn hdepth hkind rfl
    exact .of_generic "try_statement" hkind (by decide) rfl (fun _ _ _ _ => rfl)
      (keeps_tryStatement (p.keeps "block" (by simp)) (p.gives "handler" (by simp))
        (p.gives "finalizer" (by simp))).tells (by simp)
  · have p : Provision cx fuel n above _ := h.provision hP hn hdepth hkind rfl
    obtain ⟨ns, hcatches⟩ := p.lists "catches" (by simp)
    exact .of_rule "catch_clauses" hkind (by decide) rfl
      (Keeps.tells (hcatches.each.last fun ds hds => .pure (.join (.bare (by decide)) hds.1)))
      (by simp)
  · have p : Provision cx fuel n above _ := h.provision hP hn hdepth hkind rfl
    exact .of_generic "catch_clause" hkind (by decide) rfl (fun _ _ _ _ => rfl)
      (keeps_catchClause (p.gives "param" (by simp)) (p.keeps "body" (by simp))).tells (by simp)
  · have p : Provision cx fuel n above _ := h.provision hP hn hdepth hkind rfl
    exact .of_generic "return_statement" hkind (by decide) rfl (fun _ _ _ _ => rfl)
      (keeps_returnStatement (p.gives "argument" (by simp))).tells (by simp)
  · have p : Provision cx fuel n above _ := h.provision hP hn hdepth hkind rfl
    exact .of_generic "throw_statement" hkind (by decide) rfl (fun _ _ _ _ => rfl)
      (Keeps.tells ((p.keeps "argument" (by simp)).last fun d hd => .pure (.list (.plain
        (.bare (by decide)) (.front hd (.one (.bare (by decide)))))))) (by simp)
  · exact .of_generic "break_statement" hkind (by decide) rfl (fun _ _ _ _ => rfl)
      (show Keeps _ 0 from .pure (.bare (by decide))).tells rfl
  · exact .of_generic "continue_statement" hkind (by decide) rfl (fun _ _ _ _ => rfl)
      (show Keeps _ 0 from .pure (.bare (by decide))).tells rfl

theorem tells_call {child : Child} {c : Cursor} {as bs : Multiset Attached} {ns : List Node}
    {f : Doc → Doc → Doc} (hf : ∀ d e fs gs, d.Holds fs → e.Holds gs → (f d e).Holds (fs + gs))
    (hcallee : Keeps (child c "callee") as) (hargs : Lists cx child c n "arguments" bs ns) :
    Tells cx c (child c "callee" >>= fun d => callArguments cx child c n >>= fun e =>
      pure (f d e)) (as + bs) := by
  obtain ⟨p, hargs⟩ := tells_callArguments hargs
  refine ⟨p, ?_⟩
  rw [add_left_comm]
  simp only [Keeps, forms_add]
  exact hcallee.bind fun d hd => hargs.last fun e he => .pure ((hf d e _ _ hd he).of_eq (by simp))

/-- A field that holds nodes, in a node of a known kind. -/
theorem nodes_of {types : List (String × FieldType)} {m : Node} (hm : m.Shaped P)
    (hkind : m.kind = kind) (known : fieldTypes? kind = some types) (name : String)
    (hmem : (name, .nodes) ∈ types) : ∃ ms : List Node, m.get name = .list (ms.map .node) := by
  obtain ⟨ms, hms, _⟩ := (hm.get (known_of hkind known) hmem).eq_nodes
  exact ⟨ms, hms⟩

theorem literal_fields (hkind : n.kind = "Literal") (hn : n.Shaped P) :
    ∃ s, n.get "raw" = .str s ∧ Text.opensComment s = false ∧ s ≠ "" ∧
      ((n.get "value").isNumber = true → '/' ∉ s.toList) := by
  cases hn with
  | intro _ types known here fits number =>
    rw [hkind] at known
    cases known
    have hraw := fits ("raw", .raw) (by simp)
    generalize hget : n.get "raw" = v at hraw number
    cases hraw with
    | raw hs hne =>
      refine ⟨_, rfl, hs, hne, fun hnumber => ?_⟩
      obtain ⟨t, ht, hslash⟩ := number hnumber
      cases ht
      exact hslash

/-- The arguments of a generic type, if there are any, are lists of types. -/
theorem generics_given (h : Accounted cx P fuel) (hP : ∀ m, P m → 0 ≤ m.stop)
    (hn : SiteOf cx P n above) (hdepth : n.depth ≤ fuel) (hkind : n.kind = "TypeSpecPart") :
    n.get "generics" = .null ∧ beneath cx n above "generics" = 0 ∨
      ∃ ns, Lists cx (below cx fuel) ⟨.node n, above⟩ n "generics"
        (beneath cx n above "generics") ns ∧
        ∀ m ∈ ns, ∃ ps : List Node, m.get "ts" = .list (ps.map .node) := by
  have hfits := hn.shaped.get (known_of hkind rfl) (show ("generics", FieldType.types) ∈ _ by simp)
  generalize hget : n.get "generics" = v at hfits
  cases hfits with
  | types hns hkinds =>
    have hkey := Node.mem_childKeys (known_of hkind rfl) (show ("generics", .types) ∈ _ by simp) rfl
    exact .inr ⟨_, h.lists hP hn hdepth hkey hget hns, fun m hm =>
      nodes_of (hns m hm) (hkinds m hm) rfl "ts" (by simp)⟩
  | noTypes => exact .inl ⟨rfl, fieldEntrusted_null hget⟩

theorem tallies_expression (h : Accounted cx P fuel) (hP : ∀ m, P m → 0 ≤ m.stop)
    (hin : ∀ a ∈ cx.attached, InSource cx a) (hn : SiteOf cx P n above) (hdepth : n.depth ≤ fuel)
    (hkind : n.kind ∈ expressionKinds) : Tallies cx fuel n above := by
  simp only [expressionKinds, List.mem_cons, List.not_mem_nil, or_false] at hkind
  rcases hkind with hkind | hkind | hkind | hkind | hkind | hkind | hkind | hkind | hkind | hkind
    | hkind | hkind | hkind | hkind | hkind | hkind | hkind | hkind | hkind | hkind
  · have p : Provision cx fuel n above _ := h.provision hP hn hdepth hkind rfl
    obtain ⟨s, hname, hs⟩ := p.text "name" (by simp)
    have hearlier := (hn.shaped.get (known_of hkind rfl)
      (show ("original", FieldType.absent) ∈ _ by simp)).eq_null
    exact .of_rule "identifier" hkind (by decide) rfl
      (show Keeps _ 0 from .pure (holds_identifier hname hs hearlier)).tells rfl
  · obtain ⟨s, hraw, hs, hne, hnumber⟩ := literal_fields hkind hn.shaped
    exact .of_rule "literal" hkind (by decide) rfl
      (keeps_monkeyLiteral hkind hraw hs hne hnumber).tells rfl
  · have p : Provision cx fuel n above _ := h.provision hP hn hdepth hkind rfl
    obtain ⟨s, htext, hs⟩ := p.text "text" (by simp)
    exact .of_rule "this_expression" hkind (by decide) rfl
      (show Keeps _ 0 from .pure (holds_fieldOr htext hs (by decide))).tells rfl
  · have p : Provision cx fuel n above _ := h.provision hP hn hdepth hkind rfl
    obtain ⟨op, hop, hs⟩ := p.text "operator" (by simp)
    exact .of_generic "unary_expression" hkind (by decide) rfl (fun _ _ _ _ => rfl)
      (keeps_unaryExpression hop hs (p.keeps "argument" (by simp))).tells (by simp)
  · have p : Provision cx fuel n above _ := h.provision hP hn hdepth hkind rfl
    obtain ⟨op, hop, hs⟩ := p.text "operator" (by simp)
    exact .of_generic "update_expression" hkind (by decide) rfl (fun _ _ _ _ => rfl)
      (keeps_updateExpression hop hs (p.keeps "argument" (by simp))).tells (by simp)
  · exact .of_generic "binary_expression" hkind (by decide) rfl (fun _ _ _ _ => rfl)
      (keeps_binaryExpression (keepsAll_chain h hin (.inl hkind) hn hdepth (Nat.le_refl _)
        false)).tells (by simp)
  · exact .of_generic "logical_expression" hkind (by decide) rfl (fun _ _ _ _ => rfl)
      (keeps_binaryExpression (keepsAll_chain h hin (.inr hkind) hn hdepth (Nat.le_refl _)
        false)).tells (by simp)
  · have p : Provision cx fuel n above _ := h.provision hP hn hdepth hkind rfl
    obtain ⟨op, hop, hs⟩ := p.text "operator" (by simp)
    exact .of_generic "assignment_expression" hkind (by decide) rfl (fun _ _ _ _ => rfl)
      (keeps_assignmentExpression hop (p.keeps "left" (by simp)) (p.keeps "right" (by simp))).tells
      (by simp)
  · have p : Provision cx fuel n above _ := h.provision hP hn hdepth hkind rfl
    exact .of_generic "member_expression" hkind (by decide) rfl (fun _ _ _ _ => rfl)
      (keeps_memberExpression (p.keeps "object" (by simp)) (p.keeps "property" (by simp))).tells
      (by simp)
  · have p : Provision cx fuel n above _ := h.provision hP hn hdepth hkind rfl
    obtain ⟨ns, hargs⟩ := p.lists "arguments" (by simp)
    exact .of_generic "call_expression" hkind (by decide) rfl (fun _ _ _ _ => rfl)
      (tells_call (fun d e fs gs hd he => .list (.cons hd (.one he))) (p.keeps "callee" (by simp))
        hargs) (by simp)
  · have p : Provision cx fuel n above _ := h.provision hP hn hdepth hkind rfl
    obtain ⟨ns, hargs⟩ := p.lists "arguments" (by simp)
    exact .of_generic "new_expression" hkind (by decide) rfl (fun _ _ _ _ => rfl)
      (tells_call (fun d e fs gs hd he => .list (.plain (.bare (by decide)) (.cons hd (.one he))))
        (p.keeps "callee" (by simp)) hargs) (by simp)
  · have p : Provision cx fuel n above _ := h.provision hP hn hdepth hkind rfl
    exact .of_generic "conditional_expression" hkind (by decide) rfl (fun _ _ _ _ => rfl)
      (keeps_conditionalExpression (p.keeps "test" (by simp)) (p.keeps "consequent" (by simp))
        (p.keeps "alternate" (by simp))).tells (by simp)
  · have p : Provision cx fuel n above _ := h.provision hP hn hdepth hkind rfl
    obtain ⟨ns, hexpressions⟩ := p.lists "expressions" (by simp)
    exact .of_generic "sequence_expression" hkind (by decide) rfl (fun _ _ _ _ => rfl)
      (Keeps.tells (hexpressions.each.last fun ds hds => .pure
        (.group (.join holds_commaLine hds.1) false))) (by simp)
  · have p : Provision cx fuel n above _ := h.provision hP hn hdepth hkind rfl
    have helement : ("elements", FieldType.nodes) ∈ [("elements", .nodes), ("byte", .suffix)] := by
      simp
    have hkey := Node.mem_childKeys (known_of hkind rfl) helement rfl
    obtain ⟨ns, hns, hshaped⟩ := (hn.shaped.get (known_of hkind rfl) helement).eq_nodes
    have htable := isTable_nodes ns
      (fun m hm hkind => nodes_of (hshaped m hm) hkind rfl "properties" (by simp))
      (fun m hm hkind => nodes_of (hshaped m hm) hkind rfl "elements" (by simp))
    have helements : Tells cx ⟨.node n, above⟩ _ _ :=
      tells_arrayExpression (h.lists hP hn hdepth hkey hns hshaped) htable
    have hrule : snake n.kind = "array_expression" := snake_of_mem (by rw [hkind]; decide)
    refine .of_rule "array_expression" hkind (by decide) rfl
      (Tells.map (tells_generic hrule helements) fun d fs hd => .pure ?_) (by simp)
    exact .list (.front hd (.one (p.suffix "byte" (by simp))))
  · have p : Provision cx fuel n above _ := h.provision hP hn hdepth hkind rfl
    exact .of_rule "sized_array_expression" hkind (by decide) rfl
      (keeps_sizedArray (p.suffix "byte" (by simp)) (p.gives "ts" (by simp))
        (p.keeps "size" (by simp))).tells (by simp)
  · have p : Provision cx fuel n above _ := h.provision hP hn hdepth hkind rfl
    obtain ⟨ns, hproperties⟩ := p.lists "properties" (by simp)
    exact .of_generic "object_expression" hkind (by decide) rfl (fun _ _ _ _ => rfl)
      (tells_objectExpression hproperties) (by simp)
  · have p : Provision cx fuel n above _ := h.provision hP hn hdepth hkind rfl
    exact .of_rule "property" hkind (by decide) rfl
      (keeps_property (p.keeps "key" (by simp)) (p.keeps "value" (by simp))).tells (by simp)
  · have p : Provision cx fuel n above _ := h.provision hP hn hdepth hkind rfl
    exact .of_rule "parenthesized_expression" hkind (by decide) rfl
      (keeps_parenthesizedExpression hkind (p.keeps "expression" (by simp))).tells (by simp)
  · have p : Provision cx fuel n above _ := h.provision hP hn hdepth hkind rfl
    obtain ⟨ns, hts⟩ := p.lists "ts" (by simp)
    exact .of_rule "type_spec_list" hkind (by decide) rfl (keeps_typeSpecList hts).tells (by simp)
  · have p : Provision cx fuel n above _ := h.provision hP hn hdepth hkind rfl
    obtain ⟨m, hm⟩ := p.node "name" (by simp)
    exact .of_rule "type_spec_part" hkind (by decide) rfl
      (keeps_typeSpecPart hm (p.keeps "name" (by simp)) (generics_given h hP hn hdepth hkind)
        (p.gives "callspec" (by simp))).tells (by simp)

theorem Accounted.tallies (h : Accounted cx P fuel) (hP : ∀ m, P m → 0 ≤ m.stop)
    (hin : ∀ a ∈ cx.attached, InSource cx a) (hn : SiteOf cx P n above)
    (hdepth : n.depth ≤ fuel) : Tallies cx fuel n above := by
  obtain ⟨types, known⟩ : ∃ types, fieldTypes? n.kind = some types := by
    cases hn.shaped with
    | intro _ types known _ _ _ => exact ⟨types, known⟩
  rcases kind_cases known with hkind | hkind | hkind
  · exact tallies_declaration h hP hn hdepth hkind
  · exact tallies_statement h hP hn hdepth hkind
  · exact tallies_expression h hP hin hn hdepth hkind

/-- A node that is kept as it is: the comments inside it are entered. -/
theorem lays_verbatim (hn : SiteOf cx P n above) : Lays (verbatim cx ⟨.node n, above⟩ n)
    (↑((own cx ⟨.node n, above⟩).filter (·.role = .dangling)) +
      (n.childKeys.map (beneath cx n above)).sum) fun d => d.Holds ⊤ := by
  refine Lays.last (P := fun _ => True) ?_ fun _ _ => .pure (.unknown rfl)
  exact (lays_forM_markPrinted _).of_eq hn.inside_eq

/-- One step down: the comments below a node are laid out by its rule, and its own by the rule or
around it. -/
theorem Accounted.step (h : Accounted cx P fuel) (hP : ∀ m, P m → 0 ≤ m.stop)
    (hin : ∀ a ∈ cx.attached, InSource cx a) : Accounted cx P (fuel + 1) := by
  intro n above hn hdepth
  have hown : ∀ a ∈ own cx ⟨.node n, above⟩, InSource cx a :=
    fun a ha => hin a (List.mem_of_mem_filter ha)
  rw [entrusted_eq]
  simp only [Keeps, forms_add]
  change Lays (commented cx (below cx fuel) ⟨.node n, above⟩) _ _
  unfold commented
  dsimp only
  by_cases hkept : (!cx.source.isEmpty && hasIgnore (own cx ⟨.node n, above⟩)) = true
  · -- the node is kept; its leading and trailing comments are still laid out around it
    simp only [hkept, if_true]
    obtain ⟨a, ha, hkeeps⟩ := List.any_eq_true.1 (Bool.and_eq_true_iff.1 hkept).2
    rw [Bool.and_eq_true, decide_eq_true_eq, decide_eq_true_eq] at hkeeps
    have hforms : forms ↑(ownAt cx (Cursor.address ⟨.node n, above⟩)) = ⊤ :=
      forms_eq_top ha hkeeps.2
    rw [hforms, WithTop.top_add]
    have hlays : Lays (_ >>= _) _ fun d => Holds d (forms _ + ⊤) :=
      lays_withComments (·.role = .dangling) hown
        ((lays_verbatim hn).weaken fun d hd => hd.of_eq (WithTop.add_top _).symm)
    exact hlays.weaken fun d hd => hd.of_eq (WithTop.add_top _)
  · have hrules : Tallies cx fuel n above := h.tallies hP hin hn (Nat.lt_succ_iff.1 hdepth)
    -- `p` says which of the node's own comments its rule has a place for
    obtain ⟨p, hrule⟩ := hrules
    simp only [Keeps, forms_add] at hrule
    simp only [hkept, Bool.false_eq_true, if_false]
    exact lays_withComments p hown hrule

/-- Every tree is laid out with its comments. -/
theorem accounted (hP : ∀ m, P m → 0 ≤ m.stop) (hin : ∀ a ∈ cx.attached, InSource cx a)
    (fuel : Nat) : Accounted cx P fuel := by
  induction fuel with
  | zero =>
    intro n above hn hdepth
    omega
  | succ fuel ih => exact ih.step hP hin

end All

end Layout

end MonkeyFormat
