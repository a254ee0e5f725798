import MonkeyFormat.Comment.Attach
import MonkeyFormat.Proofs.Addresses
import MonkeyFormat.Proofs.TokenPlaces

set_option autoImplicit false

/-! # Every comment finds an owner

No node of a parsed tree starts or stops inside a comment, so the search for the surroundings of a
comment always ends: the comment is inside a child or beside it. The owner is a node of the tree,
and each comment is attached once. -/

namespace MonkeyFormat

section Neighbours

variable {mayOwn : Node → Bool} {P : Node → Prop} {n : Node}

/-- The nearest nodes below a node that may own comments stand below it. -/
theorem Node.mem_places_of_mem_owners {s : Located} (h : s ∈ n.owners mayOwn) (base : Address) :
    (base ++ s.1, s.2) ∈ n.places base ∧ s.2.depth < n.depth := by
  induction n using Node.slots_induction generalizing base s with
  | step n ih =>
    rw [Node.owners, List.mem_mergeSort, List.mem_flatMap] at h
    obtain ⟨⟨⟨a, c⟩, hslot⟩, _, h⟩ := h
    have hdepth := depth_of_mem_slots hslot
    dsimp only at h
    split at h
    · rw [List.mem_singleton] at h
      subst h
      exact ⟨mem_places_of_slot hslot (mem_places_self c (base ++ a)), hdepth⟩
    · obtain ⟨⟨b, d⟩, hd, rfl⟩ := List.mem_map.1 h
      obtain ⟨hplace, hless⟩ := ih (a, c) hslot hd (base ++ a)
      refine ⟨?_, Nat.lt_trans hless hdepth⟩
      rw [← List.append_assoc]
      exact mem_places_of_slot hslot hplace

/-- No edge of a node is inside the stretch. -/
def Node.Beside (start stop : Int) (n : Node) : Prop :=
  (n.start ≤ start ∨ stop ≤ n.start) ∧ (n.stop ≤ start ∨ stop ≤ n.stop)

/-- The nodes at which a position points. -/
def Position.located : Position → List Located
  | .inside child => [child]
  | .between preceding following => preceding.toList ++ following.toList

/-- The search among children that have no edge inside the comment succeeds. -/
theorem search_eq_ok {start stop : Int} {children : Array Located}
    (h : ∀ c ∈ children, c.2.Beside start stop) {left right : Nat} (hright : right ≤ children.size)
    {preceding following : Option Located} (hpreceding : ∀ s ∈ preceding, s ∈ children)
    (hfollowing : ∀ s ∈ following, s ∈ children) :
    ∃ pos, search start stop children left right preceding following = .ok pos ∧
      ∀ s ∈ pos.located, s ∈ children := by
  induction hsize : right - left using Nat.strong_induction_on generalizing left right preceding
    following with
  | _ size ih =>
    rw [search]
    by_cases hlt : left < right
    · rw [if_pos hlt]
      have hmiddle : (left + right) / 2 < children.size := by omega
      have hmem : children[(left + right) / 2] ∈ children := Array.getElem_mem hmiddle
      obtain ⟨hstart, hstop⟩ := h _ hmem
      dsimp only
      rw [Array.getElem?_eq_getElem hmiddle]
      generalize children[(left + right) / 2] = child at hmem hstart hstop
      dsimp only
      by_cases hinside : child.2.start ≤ start ∧ stop ≤ child.2.stop
      · rw [if_pos hinside]
        exact ⟨_, rfl, by simpa [Position.located] using hmem⟩
      · rw [if_neg hinside]
        have hchild : ∀ s ∈ some child, s ∈ children := by simpa using hmem
        by_cases hbefore : child.2.stop ≤ start
        · rw [if_pos hbefore]
          exact ih _ (by omega) hright hchild hfollowing rfl
        · have hbehind : stop ≤ child.2.start := by omega
          rw [if_neg hbefore, if_pos hbehind]
          exact ih _ (by omega) (by omega) hpreceding hchild rfl
    · rw [if_neg hlt]
      refine ⟨_, rfl, fun s hs => ?_⟩
      rw [Position.located, List.mem_append, Option.mem_toList, Option.mem_toList] at hs
      exact hs.elim (hpreceding s) (hfollowing s)

theorem search_among {start stop : Int} {children : Array Located}
    (h : ∀ c ∈ children, c.2.Beside start stop) :
    ∃ pos, search start stop children 0 children.size none none = .ok pos ∧
      ∀ s ∈ pos.located, s ∈ children :=
  search_eq_ok h (Nat.le_refl _) (by simp) (by simp)

/-- The nodes of surroundings. -/
def Surroundings.located (s : Surroundings) : List Located :=
  s.enclosing :: (s.preceding.toList ++ s.following.toList)

/-- The way down to the surroundings of a comment ends in the tree. -/
theorem locate_eq_ok (mayOwn : Node → Bool) {start stop : Int} {root : Node}
    (h : ∀ p ∈ root.places [], p.2.Beside start stop) {fuel : Nat} {here : Located}
    (hplace : here ∈ root.places []) (hdepth : here.2.depth < fuel) :
    ∃ s, locate mayOwn start stop fuel here = .ok s ∧ ∀ l ∈ s.located, l ∈ root.places [] := by
  induction fuel generalizing here with
  | zero => omega
  | succ fuel ih =>
    obtain ⟨base, n⟩ := here
    have hchild : ∀ c ∈ ((n.owners mayOwn).map fun s => (base ++ s.1, s.2)).toArray,
        c ∈ root.places [] ∧ c.2.depth < n.depth := by
      intro c hc
      rw [List.mem_toArray, List.mem_map] at hc
      obtain ⟨s, hs, rfl⟩ := hc
      obtain ⟨hbelow, hless⟩ := Node.mem_places_of_mem_owners hs base
      exact ⟨Node.places_trans hplace hbelow, hless⟩
    obtain ⟨pos, hsearch, hpos⟩ := search_among (fun c hc => h c (hchild c hc).1)
    rw [locate]
    simp only [hsearch, bind, Except.bind]
    cases pos with
    | inside child =>
      have hmem := hchild child (hpos child (by simp [Position.located]))
      exact ih hmem.1 (by
        have := hmem.2
        change n.depth < fuel + 1 at hdepth
        omega)
    | between preceding following =>
      refine ⟨_, rfl, fun l hl => ?_⟩
      rcases List.mem_cons.1 hl with rfl | hl
      · exact hplace
      · exact (hchild l (hpos l hl)).1

end Neighbours

/-! ## Owners -/

section Owners

variable {root : Node} {P : Node → Prop} {s : Surroundings}

theorem firstStatement_eq_ok {block : Located} (hroot : root.Shaped P)
    (hplace : block ∈ root.places []) (hkind : block.2.kind = "BlockStatement") :
    ∃ o, firstStatement block = .ok o ∧ ∀ l ∈ o, l ∈ root.places [] := by
  have hshaped : block.2.Shaped P := hroot.places hplace
  have known : fieldTypes? block.2.kind = some [("body", .nodes)] := by
    rw [hkind]
    rfl
  have hbody : ("body", FieldType.nodes) ∈ [("body", FieldType.nodes)] := List.mem_singleton_self _
  obtain ⟨ns, hget, _⟩ := (hshaped.get known hbody).eq_nodes
  unfold firstStatement
  rw [hget]
  refine ⟨_, rfl, fun l hl => ?_⟩
  obtain ⟨⟨v, i⟩, hv, hnode⟩ := List.exists_of_findSome?_eq_some hl
  obtain ⟨m, hm, rfl⟩ := Option.map_eq_some_iff.1 hnode
  have hslot : (([.field "body", .index i], m) : Address × Node) ∈ block.2.slots :=
    Node.mem_slots_of_item (Node.mem_childKeys known hbody rfl) hget hv hm
  exact Node.places_trans hplace (Node.mem_places_of_slot hslot (Node.mem_places_self m _))

theorem beforeBlock_eq_some {block : Located} (h : s.beforeBlock = some block) :
    block ∈ s.located ∧ block.2.kind = "BlockStatement" := by
  unfold Surroundings.beforeBlock at h
  split at h
  · obtain ⟨hfollowing, hkind⟩ := Option.filter_eq_some_iff.1 h
    exact ⟨by simp [Surroundings.located, hfollowing], of_decide_eq_true hkind⟩
  · cases h

/-- One of the surrounding nodes is chosen. -/
theorem choose_mem (s : Surroundings) (followingFirst : Bool) :
    (s.choose followingFirst).1 ∈ s.located.map Prod.fst := by
  obtain ⟨enclosing, preceding, following⟩ := s
  unfold Surroundings.choose Surroundings.located
  cases preceding <;> cases following <;> cases followingFirst <;> simp

/-- The owner of a comment is a node of the tree. -/
theorem owner_eq_ok {text : Source} {c : Comment} (hroot : root.Shaped P)
    (hs : ∀ l ∈ s.located, l ∈ root.places []) (hin : c.Within text.size) :
    ∃ o, s.owner text c = .ok o ∧ o.1 ∈ (root.places []).map Prod.fst := by
  obtain ⟨_, hfirst, horder, hlast⟩ := hin
  have hlocated : ∀ a ∈ s.located.map Prod.fst, a ∈ (root.places []).map Prod.fst := by
    intro a ha
    obtain ⟨l, hl, rfl⟩ := List.mem_map.1 ha
    exact List.mem_map_of_mem (hs l hl)
  have henclosing : s.enclosing.1 ∈ (root.places []).map Prod.fst :=
    hlocated _ (List.mem_map_of_mem List.mem_cons_self)
  have hchoose (b : Bool) : ∃ o, (Except.ok (s.choose b) : Except Fault _) = .ok o ∧
      o.1 ∈ (root.places []).map Prod.fst := ⟨_, rfl, hlocated _ (choose_mem s b)⟩
  obtain ⟨before, hbefore⟩ := text.newlineBefore_eq_ok hfirst (by omega)
  obtain ⟨after, hafter⟩ := text.newlineAfter_eq_ok (show 0 ≤ c.span.stop by omega)
  unfold Surroundings.owner
  split
  · next block hblock =>
    obtain ⟨hmem, hkind⟩ := beforeBlock_eq_some hblock
    obtain ⟨o, ho, hplace⟩ := firstStatement_eq_ok hroot (hs block hmem) hkind
    rw [ho]
    cases o with
    | none => exact ⟨_, rfl, hlocated _ (List.mem_map_of_mem hmem)⟩
    | some l => exact ⟨_, rfl, List.mem_map_of_mem (hplace l rfl)⟩
  · split
    · exact ⟨_, rfl, henclosing⟩
    · split
      · exact ⟨_, rfl, henclosing⟩
      · rw [hbefore, hafter]
        cases before with
        | true => exact hchoose true
        | false =>
          cases after with
          | true => exact hchoose false
          | false =>
            simp only [bind, Except.bind, Bool.false_eq_true, if_false]
            split
            · exact hchoose _
            · exact hchoose false

end Owners

/-! ## Attaching -/

section Attaching

variable {root : Node} {P : Node → Prop} {text : Source}

theorem attachOne_eq_ok (mayOwn : Node → Bool) {c : Comment} (hroot : root.Shaped P)
    (hbeside : ∀ p ∈ root.places [], p.2.Beside c.span.start c.span.stop)
    (hin : c.Within text.size) (id : Nat) :
    ∃ a, attachOne mayOwn root text id c = .ok a ∧ a.id = id ∧ a.comment = c ∧
      a.owner ∈ (root.places []).map Prod.fst := by
  obtain ⟨s, hlocate, hs⟩ := locate_eq_ok mayOwn hbeside
    (Node.mem_places_self root []) (Nat.lt_succ_self root.depth)
  obtain ⟨o, howner, hplace⟩ := owner_eq_ok hroot hs hin
  obtain ⟨after, hafter⟩ := text.newlineAfter_eq_ok (i := c.span.stop) (by
    have := hin.first
    have := hin.order
    omega)
  have hsurroundings : root.surroundings mayOwn c.span.start c.span.stop = .ok s := hlocate
  refine ⟨⟨id, c, o.1, o.2, if c.isBlock then after else true⟩, ?_, rfl, rfl, hplace⟩
  cases hblock : c.isBlock with
  | true =>
    simp only [attachOne, hsurroundings, howner, hafter, hblock, bind, Except.bind, if_true]
    rfl
  | false =>
    simp only [attachOne, hsurroundings, howner, hblock, bind, Except.bind]
    rfl

theorem mapM_eq_ok {α β : Type} {f : α → Except Fault β} {g : β → α} {Q : β → Prop} {l : List α}
    (h : ∀ a ∈ l, ∃ b, f a = .ok b ∧ g b = a ∧ Q b) :
    ∃ bs, l.mapM f = .ok bs ∧ bs.map g = l ∧ ∀ b ∈ bs, Q b := by
  induction l with
  | nil => exact ⟨[], rfl, rfl, by simp⟩
  | cons a l ih =>
    rw [List.forall_mem_cons] at h
    obtain ⟨b, hb, hg, hq⟩ := h.1
    obtain ⟨bs, hbs, hmap, hall⟩ := ih h.2
    refine ⟨b :: bs, ?_, by rw [List.map_cons, hg, hmap], List.forall_mem_cons.2 ⟨hq, hall⟩⟩
    rw [List.mapM_cons, hb, hbs]
    rfl

/-- Every comment is attached to a node of the tree, each one once. -/
theorem attach_eq_ok (mayOwn : Node → Bool) {comments : List Comment} (hroot : root.Shaped P)
    (hbeside : ∀ c ∈ comments, ∀ p ∈ root.places [], p.2.Beside c.span.start c.span.stop)
    (hin : ∀ c ∈ comments, c.Within text.size) :
    ∃ attached, attach mayOwn root text comments = .ok attached ∧
      (attached.map fun a => (a.comment, a.id)).Perm comments.zipIdx ∧
      ∀ a ∈ attached, a.owner ∈ (root.places []).map Prod.fst := by
  have hperm := List.mergeSort_perm comments.zipIdx
    fun x y => decide (x.1.span.start ≤ y.1.span.start)
  obtain ⟨attached, hattach, hmap, hplaces⟩ := mapM_eq_ok
    (l := comments.zipIdx.mergeSort fun x y => decide (x.1.span.start ≤ y.1.span.start))
    (f := fun x => attachOne mayOwn root text x.2 x.1) (g := fun a => (a.comment, a.id))
    (Q := fun a => a.owner ∈ (root.places []).map Prod.fst) fun x hx => by
      have hmem := List.fst_mem_of_mem_zipIdx (hperm.mem_iff.1 hx)
      obtain ⟨a, ha, hid, hcomment, hplace⟩ :=
        attachOne_eq_ok mayOwn hroot (hbeside x.1 hmem) (hin x.1 hmem) x.2
      exact ⟨a, ha, by rw [hid, hcomment], hplace⟩
  exact ⟨attached, hattach, hmap ▸ hperm, hplaces⟩

end Attaching

end MonkeyFormat
