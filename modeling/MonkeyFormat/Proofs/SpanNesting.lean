import MonkeyFormat.Proofs.Positions
import MonkeyFormat.Proofs.Tiling

set_option autoImplicit false

/-! # Nodes that lie in each other

In a well placed tree every span is one of the text, and the children of a node lie inside it, one
behind the other. The check of the spans accepts such a tree. -/

namespace MonkeyFormat

/-! ## The nodes in a field -/

/-- The nodes that a field's value holds directly. -/
def Value.held : Value → List Node
  | .node c => [c]
  | .list vs => vs.filterMap Value.node?
  | _ => []

theorem Value.slots_map_snd (name : String) (v : Value) : (v.slots name).map Prod.snd = v.held := by
  cases v with
  | list vs =>
    have hvs : vs.zipIdx.map Prod.fst = vs := List.zipIdx_map_fst 0 vs
    rw [Value.held]
    conv_rhs => rw [← hvs, List.filterMap_map]
    rw [Value.slots, List.map_filterMap]
    congr 1
    funext x
    simp only [Function.comp_apply, Option.map_map]
    cases x.1.node? <;> rfl
  | _ => rfl

theorem Node.children_eq (n : Node) :
    n.children = n.childKeys.flatMap fun key => (n.get key).held := by
  rw [Node.children, Node.slots, List.map_flatMap]
  congr 1
  funext key
  exact Value.slots_map_snd key _

theorem Node.walk_eq (n : Node) : n.walk = n :: n.children.flatMap Node.walk := by
  rw [Node.walk]
  simp

@[simp] theorem Value.held_null : Value.held .null = [] := rfl

@[simp] theorem Value.held_node (n : Node) : (Value.node n).held = [n] := rfl

@[simp] theorem Value.held_nodes (ns : List Node) : (Parse.nodes ns).held = ns := by
  rw [Parse.nodes, Value.held, List.filterMap_map]
  exact List.filterMap_some

@[simp] theorem Value.held_optional (o : Option Node) : (Parse.optional o).held = o.toList := by
  cases o <;> rfl

/-! ## One behind the other -/

/-- The nodes lie between two offsets, each behind the one before it. -/
def Apart : Int → List Node → Int → Prop
  | _, [], _ => True
  | lo, n :: ns, hi => lo ≤ n.start ∧ n.stop ≤ hi ∧ Apart n.stop ns hi

namespace Apart

variable {lo hi : Int} {ns ms : List Node}

theorem mono (h : Apart lo ns hi) {lo' hi' : Int} (hlo : lo' ≤ lo) (hhi : hi ≤ hi') :
    Apart lo' ns hi' := by
  induction ns generalizing lo lo' with
  | nil => trivial
  | cons n ns ih => exact ⟨hlo.trans h.1, h.2.1.trans hhi, ih h.2.2 le_rfl⟩

theorem append {lo' hi' : Int} (h : Apart lo ns hi) (h' : Apart lo' ms hi') (hlo : lo ≤ lo')
    (hmid : hi ≤ lo') (hhi : hi ≤ hi') : Apart lo (ns ++ ms) hi' := by
  induction ns generalizing lo with
  | nil => exact h'.mono hlo le_rfl
  | cons n ns ih => exact ⟨h.1, h.2.1.trans hhi, ih h.2.2 (h.2.1.trans hmid)⟩

/-- Nodes that lie apart lie between any lower bound and the end of the last one. -/
theorem upToLast (hne : ns ≠ []) (h : Apart lo ns hi) (horder : ∀ n ∈ ns, n.start ≤ n.stop) :
    Apart lo ns (ns.getLast hne).stop ∧ lo ≤ (ns.getLast hne).stop ∧
      (ns.getLast hne).stop ≤ hi := by
  induction ns generalizing lo with
  | nil => exact absurd rfl hne
  | cons n ns ih =>
    have hn := horder n List.mem_cons_self
    obtain ⟨hlo, hhi, hrest⟩ := h
    cases ns with
    | nil => exact ⟨⟨hlo, le_rfl, trivial⟩, hlo.trans hn, hhi⟩
    | cons m ns =>
      obtain ⟨hapart, hlast, hle⟩ := ih (List.cons_ne_nil m ns) hrest fun k hk =>
        horder k (List.mem_cons_of_mem n hk)
      exact ⟨⟨hlo, hlast, hapart⟩, (hlo.trans hn).trans hlast, hle⟩

end Apart

/-! ## Well placed trees -/

/-- The node and all nodes below it have coherent spans, and children lie inside their parents, in
order and apart. -/
inductive Node.Placed (cs : List Char) : Node → Prop where
  | intro (n : Node) (coherent : n.span.Coherent cs) (apart : Apart n.start n.children n.stop)
    (below : ∀ c ∈ n.children, c.Placed cs) : Node.Placed cs n

namespace Node.Placed

variable {cs : List Char} {n : Node}

theorem coherent (h : n.Placed cs) : n.span.Coherent cs := by
  cases h
  assumption

theorem apart (h : n.Placed cs) : Apart n.start n.children n.stop := by
  cases h
  assumption

theorem children (h : n.Placed cs) : ∀ c ∈ n.children, c.Placed cs := by
  cases h
  assumption

/-- Every node met on the walk is well placed. -/
theorem walk (h : n.Placed cs) : ∀ m ∈ n.walk, m.Placed cs := by
  induction h with
  | intro n coherent apart below ih =>
    rw [Node.walk_eq]
    intro m hm
    rcases List.mem_cons.1 hm with rfl | hm
    · exact .intro m coherent apart below
    · obtain ⟨c, hc, hm⟩ := List.mem_flatMap.1 hm
      exact ih c hc m hm

/-- A child that starts behind the one before it passes the check. -/
theorem checkChild {parent c : Node} {previous : Option Node}
    (hprevious : ∀ p ∈ previous, p.stop ≤ c.start) (hstart : parent.start ≤ c.start)
    (hstop : c.stop ≤ parent.stop) : parent.checkChild previous c = .ok () := by
  have hinside : (c.start < parent.start || parent.stop < c.stop) = false := by
    simp
    omega
  unfold Node.checkChild
  rw [hinside]
  cases previous with
  | none => rfl
  | some p =>
    have hbehind : ¬ c.start < p.stop := by
      have := hprevious p rfl
      omega
    simp only [if_neg hbehind]
    rfl

theorem checkChildren {parent : Node} {ns : List Node}
    (hchecked : ∀ c ∈ ns, c.checkSpans = .ok ()) :
    ∀ (lo : Int) (previous : Option Node), (∀ p ∈ previous, p.stop ≤ lo) →
      parent.start ≤ lo → (∀ c ∈ ns, c.start ≤ c.stop) → Apart lo ns parent.stop →
        ∃ last, ns.foldlM (fun previous c => do
          parent.checkChild previous c
          c.checkSpans
          pure (some c)) previous = .ok last := by
  induction ns with
  | nil => exact fun _ _ _ _ _ _ => ⟨_, rfl⟩
  | cons c ns ih =>
    intro lo previous hprevious hlo horder hapart
    obtain ⟨hstart, hstop, hapart⟩ := hapart
    have hchild := checkChild (fun p hp => (hprevious p hp).trans hstart) (hlo.trans hstart) hstop
    have hc : c.start ≤ c.stop := horder c List.mem_cons_self
    rw [List.foldlM_cons, hchild, hchecked c List.mem_cons_self]
    refine ih (fun d hd => hchecked d (List.mem_cons_of_mem c hd)) c.stop _ ?_
      (hlo.trans (hstart.trans hc)) (fun d hd => horder d (List.mem_cons_of_mem c hd)) hapart
    rintro p ⟨⟩
    exact le_rfl

/-- The check of the spans accepts a well placed tree. -/
theorem checkSpans (h : n.Placed cs) : n.checkSpans = .ok () := by
  induction h with
  | intro n coherent apart below ih =>
    obtain ⟨last, hlast⟩ := checkChildren ih n.start none (by simp) le_rfl
      (fun c hc => (below c hc).coherent.order) apart
    rw [← List.attach_map_subtype_val n.children, List.foldlM_map] at hlast
    rw [Node.checkSpans]
    exact congrArg (· >>= fun _ => pure ()) hlast

end Node.Placed

end MonkeyFormat
