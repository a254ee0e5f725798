import MonkeyFormat.Proofs.Ownership
import MonkeyFormat.Proofs.Wrapping

set_option autoImplicit false

/-! # The neighbours of a comment

In a tree whose children lie inside their parents, in order and apart, the nodes that may own
comments below any node stand in a row. The search for a comment in such a row finds the one node
around it, or the place between two nodes where it stands, or a node across whose edge it lies; so
the way down from the root ends at the innermost node around the comment, with the last node before
it and the first one behind it as its neighbours. -/

namespace MonkeyFormat

open Parentheses (checkNext checkSpans_eq checkChild_eq_ok checkNext_eq_ok)

variable {mayOwn : Node → Bool} {start stop : Int}

/-! ## Neat trees -/

/-- Children lie inside their parents, in order and apart, and no node ends before it starts. -/
structure Node.Neat (n : Node) : Prop where
  spans : n.checkSpans = .ok ()
  order : ∀ m ∈ n.walk, m.start ≤ m.stop

/-- Children that pass the check one after the other lie apart, behind the one before them. -/
theorem apart_of_checkNext {n : Node} {cs : List Node} {previous last : Option Node} {lo : Int}
    (h : cs.foldlM (checkNext n) previous = .ok last) (hlo : lo ≤ previous.elim n.start Node.stop) :
    Apart lo cs n.stop ∧ ∀ c ∈ cs, n.start ≤ c.start ∧ c.checkSpans = .ok () := by
  induction cs generalizing previous lo with
  | nil => simp [Apart]
  | cons c cs ih =>
    rw [List.foldlM_cons] at h
    obtain ⟨next, hnext, hrest⟩ := bind_eq_ok h
    obtain ⟨hchild, hspans, rfl⟩ := checkNext_eq_ok.1 hnext
    obtain ⟨⟨hinside, hstop⟩, hbehind⟩ := checkChild_eq_ok.1 hchild
    have hlast : c.stop ≤ (some c).elim n.start Node.stop := le_rfl
    obtain ⟨hapart, hall⟩ := ih hrest hlast
    have hstart : lo ≤ c.start := by
      cases previous with
      | none => exact hlo.trans hinside
      | some p => exact hlo.trans (hbehind p rfl)
    exact ⟨⟨hstart, hstop, hapart⟩, List.forall_mem_cons.2 ⟨⟨hinside, hspans⟩, hall⟩⟩

/-- Nodes that lie apart lie behind each other, and between the two offsets. -/
theorem Apart.pairwise {lo hi : Int} {ns : List Node} (h : Apart lo ns hi)
    (horder : ∀ n ∈ ns, n.start ≤ n.stop) :
    ns.Pairwise (fun m n => m.stop ≤ n.start) ∧ ∀ n ∈ ns, lo ≤ n.start ∧ n.stop ≤ hi := by
  induction ns generalizing lo with
  | nil => simp
  | cons n ns ih =>
    obtain ⟨hlo, hhi, hrest⟩ := h
    rw [List.forall_mem_cons] at horder
    obtain ⟨hpairs, hbounds⟩ := ih hrest horder.2
    refine ⟨List.pairwise_cons.2 ⟨fun m hm => (hbounds m hm).1, hpairs⟩, ?_⟩
    rw [List.forall_mem_cons]
    refine ⟨⟨hlo, hhi⟩, fun m hm => ⟨?_, (hbounds m hm).2⟩⟩
    have := (hbounds m hm).1
    omega

namespace Node.Neat

variable {n : Node}

theorem self_order (h : n.Neat) : n.start ≤ n.stop := h.order n (Node.mem_walk_self n)

theorem child_order (h : n.Neat) {c : Node} (hc : c ∈ n.children) : c.start ≤ c.stop :=
  h.order c (Node.mem_walk_of_child hc (Node.mem_walk_self c))

theorem apart (h : n.Neat) :
    Apart n.start n.children n.stop ∧ ∀ c ∈ n.children, c.checkSpans = .ok () := by
  have hspans := h.spans
  rw [checkSpans_eq] at hspans
  obtain ⟨last, hlast, _⟩ := bind_eq_ok hspans
  obtain ⟨hapart, hall⟩ := apart_of_checkNext hlast (le_refl n.start)
  exact ⟨hapart, fun c hc => (hall c hc).2⟩

theorem child (h : n.Neat) {c : Node} (hc : c ∈ n.children) : c.Neat where
  spans := h.apart.2 c hc
  order := fun m hm => h.order m (Node.mem_walk_of_child hc hm)

theorem children_pairwise (h : n.Neat) : n.children.Pairwise (fun c d => c.stop ≤ d.start) :=
  (h.apart.1.pairwise fun _ hc => h.child_order hc).1

theorem child_inside (h : n.Neat) {c : Node} (hc : c ∈ n.children) :
    n.start ≤ c.start ∧ c.stop ≤ n.stop :=
  (h.apart.1.pairwise fun _ hc => h.child_order hc).2 c hc

end Node.Neat

/-! ## The nearest nodes that may own comments -/

/-- The nearest nodes below `n` that may own comments, in source order: its children, those below it
standing in for a child that may not own any. -/
def Node.nearest (mayOwn : Node → Bool) (n : Node) : List Located :=
  n.slots.attach.flatMap fun ⟨(a, c), _⟩ =>
    if mayOwn c then [(a, c)] else (c.nearest mayOwn).map fun (b, d) => (a ++ b, d)
termination_by sizeOf n
decreasing_by exact Node.sizeOf_lt_of_mem_slots ‹_›

/-- What stands in the row for a child. -/
def Node.standIns (mayOwn : Node → Bool) (s : Located) : List Located :=
  if mayOwn s.2 then [s] else (s.2.nearest mayOwn).map fun t => (s.1 ++ t.1, t.2)

theorem Node.nearest_eq (n : Node) :
    n.nearest mayOwn = n.slots.flatMap (Node.standIns mayOwn) := by
  rw [Node.nearest]
  conv_rhs => rw [← List.attach_map_subtype_val n.slots, List.flatMap_map]
  rfl

/-- Nodes that stand in a row between two offsets, one behind the other. -/
structure InRow (lo hi : Int) (cs : List Located) : Prop where
  neat : ∀ c ∈ cs, c.2.Neat
  inside : ∀ c ∈ cs, lo ≤ c.2.start ∧ c.2.stop ≤ hi
  apart : cs.Pairwise fun c d => c.2.stop ≤ d.2.start

theorem InRow.prefixed {lo hi : Int} {cs : List Located} (h : InRow lo hi cs) (base : Address) :
    InRow lo hi (cs.map fun c => (base ++ c.1, c.2)) where
  neat := List.forall_mem_map.2 h.neat
  inside := List.forall_mem_map.2 h.inside
  apart := by simpa [List.pairwise_map] using h.apart

/-- The nearest nodes stand in a row inside the node. -/
theorem Node.Neat.inRow {n : Node} (h : n.Neat) : InRow n.start n.stop (n.nearest mayOwn) := by
  induction n using Node.slots_induction with
  | step n ih =>
    have hstand : ∀ s ∈ n.slots, InRow s.2.start s.2.stop (Node.standIns mayOwn s) := by
      intro s hs
      have hs' : s.2.Neat := h.child (List.mem_map_of_mem hs)
      unfold Node.standIns
      split
      · exact ⟨by simpa using hs', by simp, by simp⟩
      · exact (ih s hs hs').prefixed s.1
    rw [Node.nearest_eq]
    constructor
    · intro c hc
      obtain ⟨s, hs, hc⟩ := List.mem_flatMap.1 hc
      exact (hstand s hs).neat c hc
    · intro c hc
      obtain ⟨s, hs, hc⟩ := List.mem_flatMap.1 hc
      have hchild := h.child_inside (List.mem_map_of_mem hs)
      have hinside := (hstand s hs).inside c hc
      omega
    · rw [List.pairwise_flatMap]
      refine ⟨fun s hs => (hstand s hs).apart, ?_⟩
      have hslots : n.slots.Pairwise fun s t => s.2.stop ≤ t.2.start :=
        List.pairwise_map.1 h.children_pairwise
      refine hslots.imp_of_mem fun {s t} hs ht hst c hc d hd => ?_
      have hleft := (hstand s hs).inside c hc
      have hright := (hstand t ht).inside d hd
      omega

/-- In a neat tree sorting by the start leaves the row as it is. -/
theorem Node.Neat.owners_eq {n : Node} (h : n.Neat) : n.owners mayOwn = n.nearest mayOwn := by
  induction n using Node.slots_induction with
  | step n ih =>
    have hrow : InRow n.start n.stop (n.nearest mayOwn) := h.inRow
    have hsame : (n.slots.attach.flatMap fun x =>
        if mayOwn x.1.2 then [x.1]
        else (x.1.2.owners mayOwn).map fun t => (x.1.1 ++ t.1, t.2)) = n.nearest mayOwn := by
      rw [Node.nearest]
      apply List.flatMap_congr
      intro x _
      rw [ih x.1 x.2 (h.child (List.mem_map_of_mem x.2))]
    rw [Node.owners]
    refine (congrArg (List.mergeSort · _) hsame).trans (List.mergeSort_of_pairwise ?_)
    refine hrow.apart.imp_of_mem fun {c d} hc _ hcd => ?_
    have horder := (hrow.neat c hc).self_order
    simp only [decide_eq_true_eq]
    omega

/-! ## The search in a row -/

/-- The node reaches around the stretch. -/
def Node.Surrounds (start stop : Int) (n : Node) : Prop := n.start ≤ start ∧ stop ≤ n.stop

/-- The node neither reaches around the stretch nor lies wholly before or behind it. -/
def Node.Straddled (start stop : Int) (n : Node) : Prop :=
  ¬ n.Surrounds start stop ∧ ¬ n.stop ≤ start ∧ ¬ stop ≤ n.start

/-- What the search for a stretch in a row may end in. -/
inductive Searched (start stop : Int) (cs : List Located) : Except Fault Position → Prop
  | inside (c : Located) (hc : c ∈ cs) (hin : c.2.Surrounds start stop) :
    Searched start stop cs (.ok (.inside c))
  | between (front back : List Located) (hcs : cs = front ++ back)
    (hfront : ∀ c ∈ front, c.2.stop ≤ start) (hback : ∀ c ∈ back, stop ≤ c.2.start) :
    Searched start stop cs (.ok (.between front.getLast? back.head?))
  | straddled (c : Located) (hc : c ∈ cs) (hcross : c.2.Straddled start stop) :
    Searched start stop cs (.error (.straddles start stop c.2.brief))

/-- The search ends rightly from any interval that has only nodes before the stretch to its left,
and only nodes behind it to its right. -/
theorem searched_search {lo hi : Int} {cs : List Located} (hrow : InRow lo hi cs) {left right : Nat}
    (hle : left ≤ right) (hright : right ≤ cs.length)
    (hfront : ∀ c ∈ cs.take left, c.2.stop ≤ start)
    (hback : ∀ c ∈ cs.drop right, stop ≤ c.2.start) :
    Searched start stop cs (search start stop cs.toArray left right (cs.take left).getLast?
      (cs.drop right).head?) := by
  induction hsize : right - left using Nat.strong_induction_on generalizing left right with
  | _ size ih =>
    rw [search]
    by_cases hlt : left < right
    · have hmiddle : (left + right) / 2 < cs.length := by omega
      generalize hm : (left + right) / 2 = middle at hmiddle
      have hmem : cs[middle] ∈ cs := List.getElem_mem hmiddle
      have horder := (hrow.neat _ hmem).self_order
      -- the row is what stands before the probe, the probe, and what stands behind it
      have hsplit : cs = cs.take middle ++ cs[middle] :: cs.drop (middle + 1) := by
        rw [← List.drop_eq_getElem_cons hmiddle, List.take_append_drop]
      have hpairs := hrow.apart
      rw [hsplit, List.pairwise_append, List.pairwise_cons] at hpairs
      obtain ⟨-, ⟨hbehind, -⟩, hbefore⟩ := hpairs
      simp only [if_pos hlt, List.getElem?_toArray, List.getElem?_eq_getElem hmiddle]
      split_ifs with hinside hleft hafter
      · exact .inside _ hmem hinside
      · have hnext : (cs.take (middle + 1)).getLast? = some cs[middle] := by
          rw [List.take_succ_eq_append_getElem hmiddle, List.getLast?_concat]
        rw [← hnext]
        refine ih _ (by omega) (by omega) hright ?_ hback rfl
        intro c hc
        rw [List.take_succ_eq_append_getElem hmiddle, List.mem_append, List.mem_singleton] at hc
        rcases hc with hc | rfl
        · have := hbefore c hc _ List.mem_cons_self
          omega
        · exact hleft
      · have hnext : (cs.drop middle).head? = some cs[middle] := by
          rw [List.drop_eq_getElem_cons hmiddle, List.head?_cons]
        rw [← hnext]
        refine ih _ (by omega) (by omega) (by omega) hfront ?_ rfl
        intro c hc
        rw [List.drop_eq_getElem_cons hmiddle, List.mem_cons] at hc
        rcases hc with rfl | hc
        · exact hafter
        · have := hbehind c hc
          omega
      · exact .straddled _ hmem ⟨hinside, hleft, hafter⟩
    · have heq : left = right := by omega
      subst heq
      rw [if_neg hlt]
      exact .between _ _ (List.take_append_drop left cs).symm hfront hback

theorem searched_row {lo hi : Int} {cs : List Located} (hrow : InRow lo hi cs) :
    Searched start stop cs (search start stop cs.toArray 0 cs.toArray.size none none) := by
  have h : Searched start stop cs (search start stop cs.toArray 0 cs.length
      (cs.take 0).getLast? (cs.drop cs.length).head?) :=
    searched_search hrow (Nat.zero_le _) le_rfl (by simp) (by simp)
  simpa using h

/-- If one node of a row reaches around the stretch, then every other one is before it or behind. -/
theorem InRow.beside {lo hi : Int} {cs : List Located} (hrow : InRow lo hi cs) {c d : Located}
    (hc : c ∈ cs) (hin : c.2.Surrounds start stop) (hd : d ∈ cs) :
    d = c ∨ d.2.stop ≤ start ∨ stop ≤ d.2.start := by
  obtain ⟨front, back, rfl⟩ := List.append_of_mem hc
  have hpairs := hrow.apart
  rw [List.pairwise_append, List.pairwise_cons] at hpairs
  obtain ⟨-, ⟨hbehind, -⟩, hbefore⟩ := hpairs
  obtain ⟨hstart, hstop⟩ := hin
  rw [List.mem_append, List.mem_cons] at hd
  rcases hd with hd | rfl | hd
  · have := hbefore d hd c List.mem_cons_self
    omega
  · exact .inl rfl
  · have := hbehind d hd
    omega

theorem Node.Surrounds.not_before {n : Node} (hin : n.Surrounds start stop) (h : start < stop) :
    ¬ n.stop ≤ start := by
  have := hin.2
  omega

theorem Node.Surrounds.not_behind {n : Node} (hin : n.Surrounds start stop) (h : start < stop) :
    ¬ stop ≤ n.start := by
  have := hin.1
  omega

theorem InRow.eq_of_surrounds {lo hi : Int} {cs : List Located} (hrow : InRow lo hi cs)
    (h : start < stop) {c d : Located} (hc : c ∈ cs) (hin : c.2.Surrounds start stop) (hd : d ∈ cs)
    (hin' : d.2.Surrounds start stop) : d = c := by
  rcases hrow.beside hc hin hd with heq | hbefore | hbehind
  · exact heq
  · exact absurd hbefore (hin'.not_before h)
  · exact absurd hbehind (hin'.not_behind h)

/-- In a row with a node that lies across the edge of the stretch none reaches around it. -/
theorem InRow.not_surrounds {lo hi : Int} {cs : List Located} (hrow : InRow lo hi cs)
    {c d : Located} (hc : c ∈ cs) (hcross : c.2.Straddled start stop) (hd : d ∈ cs) :
    ¬ d.2.Surrounds start stop := by
  intro hin
  obtain ⟨hnot, hbefore, hbehind⟩ := hcross
  rcases hrow.beside hd hin hc with rfl | hc | hc
  · exact hnot hin
  · exact hbefore hc
  · exact hbehind hc

/-! ## The way down -/

/-- The nearest nodes below a node that may own comments, with their addresses in the tree. -/
def nearestBelow (mayOwn : Node → Bool) (l : Located) : List Located :=
  (l.2.nearest mayOwn).map fun c => (l.1 ++ c.1, c.2)

/-- `Descends mayOwn start stop l m`: the way down from `l`, always into a nearest node around the
stretch, passes `m`. -/
inductive Descends (mayOwn : Node → Bool) (start stop : Int) : Located → Located → Prop
  | here (l : Located) : Descends mayOwn start stop l l
  | enter {l c m : Located} (hc : c ∈ nearestBelow mayOwn l) (hin : c.2.Surrounds start stop)
    (hrest : Descends mayOwn start stop c m) : Descends mayOwn start stop l m

/-- The way down from `l` ends at `m`: no nearest node below `m` reaches around the stretch. -/
def Innermost (mayOwn : Node → Bool) (start stop : Int) (l m : Located) : Prop :=
  Descends mayOwn start stop l m ∧ ∀ c ∈ nearestBelow mayOwn m, ¬ c.2.Surrounds start stop

/-- On the way down from `l` there is a nearest node `c` across whose edge the stretch lies. -/
def Crosses (mayOwn : Node → Bool) (start stop : Int) (l c : Located) : Prop :=
  ∃ m, Descends mayOwn start stop l m ∧ c ∈ nearestBelow mayOwn m ∧ c.2.Straddled start stop

theorem Node.Neat.nearestBelow {l : Located} (h : l.2.Neat) :
    InRow l.2.start l.2.stop (nearestBelow mayOwn l) := h.inRow.prefixed l.1

theorem Descends.neat {l m : Located} (hdown : Descends mayOwn start stop l m) (h : l.2.Neat) :
    m.2.Neat := by
  induction hdown with
  | here => exact h
  | enter hc _ _ ih => exact ih (h.nearestBelow.neat _ hc)

/-- There is only one way down, and it passes every other node of it before its end. -/
theorem Innermost.eq {l m e : Located} (hlt : start < stop) (h : l.2.Neat)
    (he : Innermost mayOwn start stop l e) (hm : Innermost mayOwn start stop l m) : m = e := by
  obtain ⟨hdown, hend⟩ := he
  induction hdown with
  | here l =>
    cases hm.1 with
    | here => rfl
    | enter hc hin _ => exact absurd hin (hend _ hc)
  | enter hc hin _ ih =>
    cases hm.1 with
    | here => exact absurd hin (hm.2 _ hc)
    | enter hc' hin' hrest =>
      have heq := h.nearestBelow.eq_of_surrounds hlt hc hin hc' hin'
      subst heq
      exact ih (h.nearestBelow.neat _ hc) ⟨hrest, hm.2⟩ hend

/-- Where the stretch lies across an edge, the way down ends. -/
theorem innermost_of_straddled {l m c : Located} (h : l.2.Neat)
    (hdown : Descends mayOwn start stop l m) (hc : c ∈ nearestBelow mayOwn m)
    (hcross : c.2.Straddled start stop) : Innermost mayOwn start stop l m :=
  ⟨hdown, fun _ hd => (hdown.neat h).nearestBelow.not_surrounds hc hcross hd⟩

section Parted

variable {l e : Located}

/-- Where all nodes are before the stretch or behind it, the way down ends. -/
theorem innermost_of_parted (hlt : start < stop) (hdown : Descends mayOwn start stop l e)
    (hparted : ∀ c ∈ nearestBelow mayOwn e, c.2.stop ≤ start ∨ stop ≤ c.2.start) :
    Innermost mayOwn start stop l e := by
  refine ⟨hdown, fun c hc hin => ?_⟩
  rcases hparted c hc with hbefore | hbehind
  · exact hin.not_before hlt hbefore
  · exact hin.not_behind hlt hbehind

/-- If all nodes are before the stretch or behind it where the way down ends, then the stretch lies
across no edge: an edge on the way would be at its end. -/
theorem not_crosses_of_parted (hlt : start < stop) (h : l.2.Neat)
    (hend : Innermost mayOwn start stop l e)
    (hparted : ∀ c ∈ nearestBelow mayOwn e, c.2.stop ≤ start ∨ stop ≤ c.2.start) :
    ¬ ∃ c, Crosses mayOwn start stop l c := by
  rintro ⟨c, m, hdown, hc, hcross⟩
  have heq := hend.eq hlt h (innermost_of_straddled h hdown hc hcross)
  rw [heq] at hc
  rcases hparted c hc with hbefore | hbehind
  · exact hcross.2.1 hbefore
  · exact hcross.2.2 hbehind

end Parted

/-- What the way down from `l` may end in. -/
inductive Arrives (mayOwn : Node → Bool) (start stop : Int) (l : Located) :
    Except Fault Surroundings → Prop
  | between {m : Located} (front back : List Located) (hdown : Descends mayOwn start stop l m)
    (hrow : nearestBelow mayOwn m = front ++ back) (hfront : ∀ c ∈ front, c.2.stop ≤ start)
    (hback : ∀ c ∈ back, stop ≤ c.2.start) :
    Arrives mayOwn start stop l (.ok ⟨m, front.getLast?, back.head?⟩)
  | straddled {m c : Located} (hdown : Descends mayOwn start stop l m)
    (hc : c ∈ nearestBelow mayOwn m) (hcross : c.2.Straddled start stop) :
    Arrives mayOwn start stop l (.error (.straddles start stop c.2.brief))

theorem Arrives.enter {l c : Located} {result : Except Fault Surroundings}
    (h : Arrives mayOwn start stop c result) (hc : c ∈ nearestBelow mayOwn l)
    (hin : c.2.Surrounds start stop) : Arrives mayOwn start stop l result := by
  cases h with
  | between front back hdown hrow hfront hback =>
    exact .between front back (.enter hc hin hdown) hrow hfront hback
  | straddled hdown hd hcross => exact .straddled (.enter hc hin hdown) hd hcross

/-- The way down ends rightly, if there is fuel for the depth of the tree. -/
theorem arrives_locate {fuel : Nat} {l : Located} (h : l.2.Neat) (hfuel : l.2.depth < fuel) :
    Arrives mayOwn start stop l (locate mayOwn start stop fuel l) := by
  induction fuel generalizing l with
  | zero => omega
  | succ fuel ih =>
    obtain ⟨base, n⟩ := l
    have hrow : InRow n.start n.stop (nearestBelow mayOwn (base, n)) := h.nearestBelow
    have hsearch : Searched start stop (nearestBelow mayOwn (base, n)) _ := searched_row hrow
    simp only [locate, h.owners_eq]
    rw [nearestBelow] at hsearch
    generalize search start stop _ 0 _ none none = found at hsearch
    cases hsearch with
    | inside c hc hin =>
      obtain ⟨t, ht, rfl⟩ := List.mem_map.1 hc
      rw [← Node.Neat.owners_eq h] at ht
      have hdepth : t.2.depth < n.depth := (Node.mem_places_of_mem_owners ht base).2
      have hless : t.2.depth < fuel := by
        change n.depth < fuel + 1 at hfuel
        omega
      exact (ih (h.nearestBelow.neat _ hc) hless).enter hc hin
    | between front back hrow hfront hback => exact .between front back (.here _) hrow hfront hback
    | straddled c hc hcross => exact .straddled (.here _) hc hcross

/-! ## The neighbours -/

/-- The last node of a row that ends before the stretch. -/
def lastBefore (start : Int) (cs : List Located) : Option Located :=
  (cs.filter fun c => c.2.stop ≤ start).getLast?

/-- The first node of a row that starts behind the stretch. -/
def firstBehind (stop : Int) (cs : List Located) : Option Located :=
  cs.find? fun c => stop ≤ c.2.start

theorem neighbours_eq {lo hi : Int} {front back : List Located} (hlt : start < stop)
    (hrow : InRow lo hi (front ++ back)) (hfront : ∀ c ∈ front, c.2.stop ≤ start)
    (hback : ∀ c ∈ back, stop ≤ c.2.start) :
    lastBefore start (front ++ back) = front.getLast? ∧
      firstBehind stop (front ++ back) = back.head? := by
  have horder : ∀ c ∈ front ++ back, c.2.start ≤ c.2.stop := fun c hc => (hrow.neat c hc).self_order
  constructor
  · have hleft : front.filter (fun c => c.2.stop ≤ start) = front := by simpa using hfront
    have hright : back.filter (fun c => c.2.stop ≤ start) = [] := by
      rw [List.filter_eq_nil_iff]
      intro c hc
      have := horder c (List.mem_append_right front hc)
      have := hback c hc
      simp only [decide_eq_true_eq]
      omega
    rw [lastBefore, List.filter_append, hleft, hright, List.append_nil]
  · have hleft : front.find? (fun c => stop ≤ c.2.start) = none := by
      rw [List.find?_eq_none]
      intro c hc
      have := horder c (List.mem_append_left back hc)
      have := hfront c hc
      simp only [decide_eq_true_eq]
      omega
    rw [firstBehind, List.find?_append, hleft, Option.none_or]
    cases back with
    | nil => rfl
    | cons c back => simp [hback c List.mem_cons_self]

/-- The way down from the root ends at the innermost node around the stretch. If the stretch lies
across the edge of a node on this way, a fault names such a node; else the last node before it and
the first one behind it are found. -/
theorem surroundings_neighbours (mayOwn : Node → Bool) {root : Node}
    (hspans : root.checkSpans = .ok ()) (horder : ∀ n ∈ root.walk, n.start ≤ n.stop)
    {start stop : Int} (hlt : start < stop) :
    ∃ e, Innermost mayOwn start stop ([], root) e ∧
      (∀ m, Innermost mayOwn start stop ([], root) m → m = e) ∧
      ((∃ f, root.surroundings mayOwn start stop = .error f) ↔
        ∃ c, Crosses mayOwn start stop ([], root) c) ∧
      (∀ f, root.surroundings mayOwn start stop = .error f →
        ∃ c, Crosses mayOwn start stop ([], root) c ∧ f = .straddles start stop c.2.brief) ∧
      ((¬ ∃ c, Crosses mayOwn start stop ([], root) c) →
        root.surroundings mayOwn start stop = .ok ⟨e, lastBefore start (nearestBelow mayOwn e),
          firstBehind stop (nearestBelow mayOwn e)⟩) := by
  have hneat : Node.Neat (([], root) : Located).2 := ⟨hspans, horder⟩
  have harrives : Arrives mayOwn start stop ([], root) (root.surroundings mayOwn start stop) :=
    arrives_locate hneat (Nat.lt_succ_self root.depth)
  generalize root.surroundings mayOwn start stop = result at harrives
  cases harrives with
  | straddled hdown hc hcross =>
    have hend := innermost_of_straddled hneat hdown hc hcross
    have hcrosses : ∃ c, Crosses mayOwn start stop ([], root) c := ⟨_, _, hdown, hc, hcross⟩
    refine ⟨_, hend, fun m hm => hend.eq hlt hneat hm, ?_, ?_, fun hnot => absurd hcrosses hnot⟩
    · simp [hcrosses]
    · rintro _ ⟨⟩
      exact ⟨_, ⟨_, hdown, hc, hcross⟩, rfl⟩
  | @between e front back hdown hrow hfront hback =>
    have hparted : ∀ c ∈ nearestBelow mayOwn e, c.2.stop ≤ start ∨ stop ≤ c.2.start := by
      intro c hc
      rw [hrow, List.mem_append] at hc
      exact hc.imp (hfront c) (hback c)
    have hend := innermost_of_parted hlt hdown hparted
    have hnone := not_crosses_of_parted hlt hneat hend hparted
    have hbelow :
      InRow e.2.start e.2.stop (nearestBelow mayOwn e) := (hdown.neat hneat).nearestBelow
    rw [hrow] at hbelow
    obtain ⟨hlast, hfirst⟩ := neighbours_eq hlt hbelow hfront hback
    refine ⟨e, hend, fun m hm => hend.eq hlt hneat hm, ?_, ?_, fun _ => ?_⟩
    · simp [hnone]
    · rintro _ ⟨⟩
    · rw [hrow, hlast, hfirst]

/-- A function with attributes on one line: `(:test)`, room for a comment, and the name. -/
def attributedFunction : Node :=
  let covering (kind : String) (first last : Int) (fields : Fields) : Node :=
    ⟨kind, ⟨first, last, 1, first + 1, 1, last + 1⟩, fields⟩
  covering "FunctionDeclaration" 0 40
    [("attrs", .node (covering "AttributeList" 0 7
      [("attributes", .node (covering "Attributes" 1 6 [("elements", .list [])]))])),
     ("id", .node (covering "Identifier" 30 31 [("name", .str "f")]))]

/-- A program of that function only. -/
def attributedProgram : Node :=
  ⟨"Program", attributedFunction.span, [("body", .list [.node attributedFunction])]⟩

/-- Between the list of attributes and the name a comment has the attributes in the list before it,
as the list itself may not own any. -/
theorem surroundings_neighbours_attributes :
    attributedProgram.checkSpans = .ok () ∧ (∀ n ∈ attributedProgram.walk, n.start ≤ n.stop) ∧
      (8 : Int) < 18 ∧ ∃ before behind : Located,
        attributedProgram.surroundings Layout.mayOwn 8 18 =
          .ok ⟨([.field "body", .index 0], attributedFunction), some before, some behind⟩ ∧
        before.2.kind = "Attributes" ∧ behind.2.kind = "Identifier" := by
  have hspans : attributedProgram.checkSpans = .ok () := by
    have hchecked : attributedProgram.checkSpans.toOption = some () := by decide +kernel
    cases hspans : attributedProgram.checkSpans with
    | ok => rfl
    | error f => simp [hspans, Except.toOption] at hchecked
  have horder : ∀ n ∈ attributedProgram.walk, n.start ≤ n.stop := by decide +kernel
  have hlt : (8 : Int) < 18 := by decide
  let e : Located := ([.field "body", .index 0], attributedFunction)
  have hdown : Descends Layout.mayOwn 8 18 ([], attributedProgram) e := by
    have hslots : attributedProgram.slots = [e] := rfl
    have he : e ∈ nearestBelow Layout.mayOwn ([], attributedProgram) := by
      simp [nearestBelow, Node.nearest_eq, hslots, Node.standIns, Layout.mayOwn, e,
        attributedFunction]
    exact .enter he (by constructor <;> decide) (.here e)
  have hparted : ∀ c ∈ nearestBelow Layout.mayOwn e, c.2.stop ≤ 8 ∨ 18 ≤ c.2.start := by
    decide +kernel
  have hend := innermost_of_parted hlt hdown hparted
  have hnone := not_crosses_of_parted hlt ⟨hspans, horder⟩ hend hparted
  obtain ⟨_, _, hunique, _, _, hok⟩ := surroundings_neighbours Layout.mayOwn hspans horder hlt
  rw [← hunique e hend] at hok
  have hlast : (lastBefore 8 (nearestBelow Layout.mayOwn e)).map (·.2.kind) =
      some "Attributes" := by decide +kernel
  have hfirst : (firstBehind 18 (nearestBelow Layout.mayOwn e)).map (·.2.kind) =
      some "Identifier" := by decide +kernel
  obtain ⟨before, hbefore, hkind⟩ := Option.map_eq_some_iff.1 hlast
  obtain ⟨behind, hbehind, hkind'⟩ := Option.map_eq_some_iff.1 hfirst
  refine ⟨hspans, horder, hlt, before, behind, ?_, hkind, hkind'⟩
  rw [hok hnone, hbefore, hbehind]

end MonkeyFormat
