import MonkeyFormat.Proofs.TextKept

set_option autoImplicit false

/-! # Forced breaks and the groups around them

Two recursions look for forced breaks. `willBreak` stops at the first one that it meets and never
looks into a line suffix; `propagate` goes through the whole document, line suffixes included, and
marks groups on its way. Both are measured here against the parts of the document, each found by its
address and without either of the two. So the marks say exactly which groups have a forced break
inside, marking a second time changes nothing, and where no line suffix hides anything the two
recursions agree. -/

namespace MonkeyFormat

namespace Doc

/-! ## Parts by their addresses -/

/-- The documents that a document is put together from, in order. -/
def children : Doc → List Doc
  | .list parts => parts
  | .concat parts => parts
  | .fill parts => parts
  | .indent d => [d]
  | .group d _ => [d]
  | .lineSuffix d => [d]
  | _ => []

/-- The part of a document at an address, which says at each level which child to go to. -/
def partAt : Doc → List Nat → Option Doc
  | d, [] => some d
  | d, i :: address => d.children[i]?.bind fun c => c.partAt address

theorem partAt_cons_eq_some_iff {d x : Doc} {i : Nat} {address : List Nat} :
    d.partAt (i :: address) = some x ↔
      ∃ c, d.children[i]? = some c ∧ c.partAt address = some x := by
  rw [partAt, Option.bind_eq_some_iff]

theorem size_lt_sizes {d : Doc} {ds : List Doc} (h : d ∈ ds) : d.size < sizes ds := by
  induction ds with
  | nil => cases h
  | cons e ds ih =>
    rw [sizes]
    rcases List.mem_cons.mp h with rfl | hmem
    · omega
    · have hlt := ih hmem
      omega

theorem size_lt_of_mem_children {c d : Doc} (h : c ∈ d.children) : c.size < d.size := by
  cases d with
  | list parts | concat parts | fill parts =>
    have hlt : c.size < sizes parts := size_lt_sizes h
    simp only [size]
    omega
  | indent d | group d broken | lineSuffix d =>
    rw [children, List.mem_singleton] at h
    subst h
    simp only [size]
    omega
  | _ => cases h

/-- What holds of a document whenever it holds of its children holds of every document. -/
@[elab_as_elim]
theorem children_induction {motive : Doc → Prop}
    (step : ∀ d : Doc, (∀ c ∈ d.children, motive c) → motive d) (d : Doc) : motive d :=
  step d fun c _ => children_induction step c
termination_by d.size
decreasing_by exact size_lt_of_mem_children ‹_›

theorem every_children {p : Doc → Bool} {d : Doc} (h : d.every p = true) :
    ∀ c ∈ d.children, c.every p = true := by
  cases d with
  | list parts | concat parts | fill parts =>
    rw [every, Bool.and_eq_true, everyAll_iff] at h
    exact h.2
  | indent d | group d broken | lineSuffix d =>
    rw [every, Bool.and_eq_true] at h
    simpa [children] using h.2
  | _ => simp [children]

/-- A test on all parts holds of the part at any address and of all that is in it. -/
theorem every_partAt {p : Doc → Bool} {d x : Doc} {address : List Nat} (h : d.every p = true)
    (hx : d.partAt address = some x) : x.every p = true := by
  induction address generalizing d with
  | nil =>
    cases hx
    exact h
  | cons i address ih =>
    obtain ⟨c, hc, hx⟩ := partAt_cons_eq_some_iff.mp hx
    exact ih (every_children h c (List.mem_of_getElem? hc)) hx

/-! ## Forced breaks inside a document -/

/-- Is the document a forced break by itself, whatever it is put together from? -/
def forces : Doc → Bool
  | .bare s => isMultiline s
  | .text s => isMultiline s
  | .line kind => kind = .hard
  | .breakParent => true
  | .group _ broken => broken
  | _ => false

/-- A forced break stands somewhere in the document, at any depth and in line suffixes too. -/
def HoldsBreak (d : Doc) : Prop := ∃ address x, d.partAt address = some x ∧ x.forces = true

theorem holdsBreak_iff {d : Doc} :
    d.HoldsBreak ↔ d.forces = true ∨ ∃ c ∈ d.children, c.HoldsBreak := by
  constructor
  · rintro ⟨address, x, hx, hforces⟩
    cases address with
    | nil =>
      cases hx
      exact .inl hforces
    | cons i address =>
      obtain ⟨c, hc, hx⟩ := partAt_cons_eq_some_iff.mp hx
      exact .inr ⟨c, List.mem_of_getElem? hc, address, x, hx, hforces⟩
  · rintro (hforces | ⟨c, hc, address, x, hx, hforces⟩)
    · exact ⟨[], d, rfl, hforces⟩
    · obtain ⟨i, hi⟩ := List.getElem?_of_mem hc
      exact ⟨i :: address, x, partAt_cons_eq_some_iff.mpr ⟨c, hi, hx⟩, hforces⟩

/-- A forced break stands in the document with no line suffix on the way to it. -/
def ShowsBreak (d : Doc) : Prop := ∃ address x, d.partAt address = some x ∧ x.forces = true ∧
  ∀ way y, way <+: address → d.partAt way = some y → y.isUnsuffixed = true

theorem isUnsuffixed_of_forces {d : Doc} (h : d.forces = true) : d.isUnsuffixed = true := by
  cases d with
  | lineSuffix d => cases h
  | _ => rfl

theorem showsBreak_iff {d : Doc} : d.ShowsBreak ↔
    d.forces = true ∨ d.isUnsuffixed = true ∧ ∃ c ∈ d.children, c.ShowsBreak := by
  constructor
  · rintro ⟨address, x, hx, hforces, hways⟩
    cases address with
    | nil =>
      cases hx
      exact .inl hforces
    | cons i address =>
      obtain ⟨c, hc, hx⟩ := partAt_cons_eq_some_iff.mp hx
      refine .inr ⟨hways [] d List.nil_prefix rfl, c, List.mem_of_getElem? hc, ?_⟩
      refine ⟨address, x, hx, hforces, fun way y hway hy => ?_⟩
      have hlonger : i :: way <+: i :: address := (List.prefix_cons_inj i).mpr hway
      exact hways (i :: way) y hlonger (partAt_cons_eq_some_iff.mpr ⟨c, hc, hy⟩)
  · rintro (hforces | ⟨hopen, c, hmem, address, x, hx, hforces, hways⟩)
    · refine ⟨[], d, rfl, hforces, fun way y hway hy => ?_⟩
      obtain rfl := List.prefix_nil.mp hway
      cases hy
      exact isUnsuffixed_of_forces hforces
    · obtain ⟨i, hi⟩ := List.getElem?_of_mem hmem
      refine ⟨i :: address, x, partAt_cons_eq_some_iff.mpr ⟨c, hi, hx⟩, hforces, ?_⟩
      intro way y hway hy
      -- A way to the break stops at this document, or goes on into the child.
      rcases List.prefix_cons_iff.mp hway with rfl | ⟨rest, rfl, hrest⟩
      · cases hy
        exact hopen
      · obtain ⟨c', hc', hy⟩ := partAt_cons_eq_some_iff.mp hy
        cases hi.symm.trans hc'
        exact hways rest y hrest hy

theorem ShowsBreak.holdsBreak {d : Doc} (h : d.ShowsBreak) : d.HoldsBreak := by
  obtain ⟨address, x, hx, hforces, _⟩ := h
  exact ⟨address, x, hx, hforces⟩

/-- Without line suffixes no forced break is hidden. -/
theorem showsBreak_of_unsuffixed {d : Doc} (h : d.every isUnsuffixed = true)
    (hbreak : d.HoldsBreak) : d.ShowsBreak := by
  obtain ⟨address, x, hx, hforces⟩ := hbreak
  exact ⟨address, x, hx, hforces, fun _ _ _ hy => every_self (every_partAt h hy)⟩

/-! ## Looking for a forced break -/

theorem anyWillBreak_eq (ds : List Doc) : anyWillBreak ds = ds.any willBreak := by
  induction ds with
  | nil => rfl
  | cons d ds ih => rw [anyWillBreak, List.any_cons, ih]

/-- One level of the search: a line suffix ends it, and nothing else does. -/
theorem willBreak_eq (d : Doc) :
    d.willBreak = (d.forces || d.isUnsuffixed && d.children.any willBreak) := by
  cases d with
  | list parts | concat parts | fill parts =>
    simp [willBreak, anyWillBreak_eq, forces, isUnsuffixed, children]
  | _ => simp [willBreak, forces, isUnsuffixed, children]

/-- The search finds a forced break exactly when one stands outside the line suffixes. -/
theorem willBreak_iff {d : Doc} : d.willBreak = true ↔ d.ShowsBreak := by
  induction d using children_induction with
  | step d ih =>
    rw [willBreak_eq, Bool.or_eq_true, Bool.and_eq_true, List.any_eq_true, showsBreak_iff]
    apply or_congr_right
    apply and_congr_right
    intro _
    exact exists_congr fun c => and_congr_right fun hmem => ih c hmem

/-! ## One level of marking -/

/-- The document by itself: its command and its own text, without mark and children. -/
def shell : Doc → Doc
  | .list _ => .list []
  | .concat _ => .concat []
  | .fill _ => .fill []
  | .indent _ => .indent (.list [])
  | .group _ _ => .group (.list []) false
  | .lineSuffix _ => .lineSuffix (.list [])
  | d => d

/-- What marking does at one level of a document `d`: it marks the children, with one result for
each, and puts them together to a document `e` of the same kind. A forced break is reported if `d`
is one itself or a child reports one. -/
structure MarkStep (d e : Doc) (b : Bool) (results : List (Doc × Bool)) : Prop where
  each : List.Forall₂ (fun c r => c.propagate = .ok r) d.children results
  shell : e.shell = d.shell
  children : e.children = results.map Prod.fst
  forced : b = (d.forces || results.any Prod.snd)

theorem propagateAll_step {ds es : List Doc} {b : Bool} (h : propagateAll ds = .ok (es, b)) :
    ∃ results, List.Forall₂ (fun c r => c.propagate = .ok r) ds results ∧
      es = results.map Prod.fst ∧ b = results.any Prod.snd := by
  induction ds generalizing es b with
  | nil =>
    cases h
    exact ⟨[], .nil, rfl, rfl⟩
  | cons d ds ih =>
    rw [propagateAll] at h
    obtain ⟨⟨e, bd⟩, he, h⟩ := bind_eq_ok h
    obtain ⟨⟨es, bs⟩, hes, hout⟩ := bind_eq_ok h
    cases hout
    obtain ⟨results, hall, rfl, rfl⟩ := ih hes
    exact ⟨(e, bd) :: results, .cons he hall, rfl, rfl⟩

theorem propagate_step {d e : Doc} {b : Bool} (h : d.propagate = .ok (e, b)) :
    ∃ results, MarkStep d e b results := by
  cases d with
  | bare s | text s | line kind | breakParent =>
    cases h
    exact ⟨[], .nil, rfl, rfl, by simp [forces]⟩
  | list parts | concat parts | fill parts =>
    rw [propagate] at h
    obtain ⟨⟨es, bs⟩, hes, hout⟩ := bind_eq_ok h
    cases hout
    obtain ⟨results, hall, rfl, rfl⟩ := propagateAll_step hes
    exact ⟨results, hall, rfl, rfl, rfl⟩
  | indent d | lineSuffix d =>
    rw [propagate] at h
    obtain ⟨⟨e, b⟩, he, hout⟩ := bind_eq_ok h
    cases hout
    exact ⟨[(e, _)], .cons he .nil, rfl, rfl, by simp [forces]⟩
  | group d broken =>
    rw [propagate] at h
    obtain ⟨⟨e, b⟩, he, hout⟩ := bind_eq_ok h
    cases hout
    exact ⟨[(e, b)], .cons he .nil, rfl, rfl, by simp [forces, Bool.or_comm]⟩
  | alien v => cases h

theorem propagateBreaks_eq_ok {d e : Doc} :
    d.propagateBreaks = .ok e ↔ ∃ b, d.propagate = .ok (e, b) := by
  rw [propagateBreaks]
  cases d.propagate with
  | error fault => simp
  | ok r => simp [Prod.ext_iff]

theorem rel_results {ds : List Doc} {results : List (Doc × Bool)}
    (hall : List.Forall₂ (fun c r => c.propagate = .ok r) ds results) (i : Nat) :
    Option.Rel (fun c c' => c.propagateBreaks = .ok c') ds[i]? (results.map Prod.fst)[i]? := by
  induction hall generalizing i with
  | nil => exact .none
  | cons hc _ ih =>
    cases i with
    | zero => exact .some (propagateBreaks_eq_ok.mpr ⟨_, hc⟩)
    | succ i => exact ih i

theorem propagateBreaks_shell {d e : Doc} (h : d.propagateBreaks = .ok e) : e.shell = d.shell := by
  obtain ⟨b, hb⟩ := propagateBreaks_eq_ok.mp h
  obtain ⟨results, hstep⟩ := propagate_step hb
  exact hstep.shell

/-- A marked group stands for the group that it was, with the mark that its content asks for. -/
theorem propagateBreaks_group {content e : Doc} {broken : Bool}
    (h : (Doc.group content broken).propagateBreaks = .ok e) :
    ∃ child b, content.propagate = .ok (child, b) ∧ e = .group child (b || broken) := by
  obtain ⟨_, hb⟩ := propagateBreaks_eq_ok.mp h
  rw [propagate] at hb
  obtain ⟨⟨child, b⟩, hchild, hout⟩ := bind_eq_ok hb
  cases hout
  exact ⟨child, b, hchild, rfl⟩

/-! ## The whole document -/

theorem any_forced {ds : List Doc} {results : List (Doc × Bool)}
    (hall : List.Forall₂ (fun c r => c.propagate = .ok r) ds results)
    (hforced : ∀ c ∈ ds, ∀ e b, c.propagate = .ok (e, b) → (b = true ↔ c.HoldsBreak)) :
    results.any Prod.snd = true ↔ ∃ c ∈ ds, c.HoldsBreak := by
  induction hall with
  | nil => simp
  | cons hc _ ih =>
    have hhead := hforced _ List.mem_cons_self _ _ hc
    have htail := ih fun c hmem => hforced c (List.mem_cons_of_mem _ hmem)
    rw [List.any_cons, Bool.or_eq_true, hhead, htail]
    simp

/-- Marking reports a forced break exactly when the document holds one. -/
theorem propagate_forced {d e : Doc} {b : Bool} (h : d.propagate = .ok (e, b)) :
    b = true ↔ d.HoldsBreak := by
  induction d using children_induction generalizing e b with
  | step d ih =>
    obtain ⟨results, hstep⟩ := propagate_step h
    rw [hstep.forced, Bool.or_eq_true, holdsBreak_iff]
    exact or_congr_right (any_forced hstep.each fun c hmem _ _ hc => ih c hmem hc)

/-- What stands at an address after marking is what marking makes of the part that stood there. -/
theorem propagateBreaks_partAt {d e : Doc} (h : d.propagateBreaks = .ok e) (address : List Nat) :
    Option.Rel (fun x y => x.propagateBreaks = .ok y) (d.partAt address) (e.partAt address) := by
  induction address generalizing d e with
  | nil => exact .some h
  | cons i address ih =>
    obtain ⟨b, hb⟩ := propagateBreaks_eq_ok.mp h
    obtain ⟨results, hstep⟩ := propagate_step hb
    have hchild := rel_results hstep.each i
    rw [partAt, partAt, hstep.children]
    generalize d.children[i]? = x, (results.map Prod.fst)[i]? = y at hchild ⊢
    cases hchild with
    | none => exact .none
    | some hc => exact ih hc

/-- The documents that can be marked are those without alien parts. -/
theorem exists_propagateBreaks_iff {d : Doc} :
    (∃ e, d.propagateBreaks = .ok e) ↔ d.solid = true := by
  constructor
  · rintro ⟨e, h⟩
    induction d using children_induction generalizing e with
    | step d ih =>
      obtain ⟨b, hb⟩ := propagateBreaks_eq_ok.mp h
      obtain ⟨results, hstep⟩ := propagate_step hb
      have hall : ∀ c ∈ d.children, c.solid = true := by
        intro c hmem
        obtain ⟨i, hi⟩ := List.getElem?_of_mem hmem
        have hchild := rel_results hstep.each i
        rw [hi] at hchild
        generalize (results.map Prod.fst)[i]? = y at hchild
        cases hchild with
        | some hc => exact ih c hmem _ hc
      cases d with
      | list parts | concat parts | fill parts => exact solidAll_iff.mpr hall
      | indent d | group d broken | lineSuffix d => exact hall d List.mem_cons_self
      | alien v => cases hb
      | _ => rfl
  · intro h
    obtain ⟨⟨e, b⟩, he⟩ := propagate_solid d h
    exact ⟨e, propagateBreaks_eq_ok.mpr ⟨b, he⟩⟩

/-! ## Marking a second time -/

mutual

theorem propagate_twice : ∀ (d e : Doc) (b : Bool), d.propagate = .ok (e, b) →
    e.propagate = .ok (e, b)
  | .bare _, _, _, h | .text _, _, _, h | .line _, _, _, h | .breakParent, _, _, h => by
    cases h
    rfl
  | .list ds, _, _, h | .concat ds, _, _, h | .fill ds, _, _, h => by
    rw [propagate] at h
    obtain ⟨⟨es, _⟩, hes, hout⟩ := bind_eq_ok h
    cases hout
    rw [propagate, propagateAll_twice ds es _ hes]
    rfl
  | .indent d, _, _, h | .lineSuffix d, _, _, h => by
    rw [propagate] at h
    obtain ⟨⟨e, _⟩, he, hout⟩ := bind_eq_ok h
    cases hout
    rw [propagate, propagate_twice d e _ he]
    rfl
  | .group d broken, _, _, h => by
    rw [propagate] at h
    obtain ⟨⟨e, b⟩, he, hout⟩ := bind_eq_ok h
    cases hout
    rw [propagate, propagate_twice d e b he]
    -- The mark that the group has got is there already.
    change Except.ok (Doc.group e (b || (b || broken)), b || (b || broken)) = _
    rw [← Bool.or_assoc, Bool.or_self]
  | .alien _, _, _, h => by cases h

theorem propagateAll_twice : ∀ (ds es : List Doc) (b : Bool), propagateAll ds = .ok (es, b) →
    propagateAll es = .ok (es, b)
  | [], _, _, h => by
    cases h
    rfl
  | d :: ds, _, _, h => by
    rw [propagateAll] at h
    obtain ⟨⟨e, b⟩, he, h⟩ := bind_eq_ok h
    obtain ⟨⟨es, bs⟩, hes, hout⟩ := bind_eq_ok h
    cases hout
    rw [propagateAll, propagate_twice d e b he]
    change (propagateAll es >>= fun x => pure (e :: x.1, b || x.2)) = _
    rw [propagateAll_twice ds es bs hes]
    rfl

end

/-- Marking a second time changes nothing. -/
theorem propagateBreaks_twice {d e : Doc} (h : d.propagateBreaks = .ok e) :
    e.propagateBreaks = .ok e := by
  obtain ⟨b, hb⟩ := propagateBreaks_eq_ok.mp h
  exact propagateBreaks_eq_ok.mpr ⟨b, propagate_twice d e b hb⟩

/-- A group that marking leaves unmarked holds nothing that the search could find. -/
theorem willBreak_marked {content child : Doc} {b broken : Bool}
    (h : content.propagate = .ok (child, b)) :
    (Doc.group child (b || broken)).willBreak = (b || broken) := by
  have hholds : child.willBreak = true → b = true := fun hbreak =>
    (propagate_forced (propagate_twice content child b h)).mpr (willBreak_iff.mp hbreak).holdsBreak
  cases b with
  | true => rfl
  | false =>
    have hnone : child.willBreak = false := by simpa using hholds
    rw [willBreak, hnone, Bool.or_false]

/-! ## Exact marks -/

/-- Break propagation is exact. Marking a second time changes nothing, and the marked document is
rendered like the document itself within any widths. But for the marks on groups, the same stands at
every address as before. A group is marked exactly when it was marked before or a forced break
stands in its content. The search says the same of the marked group, and in a document without line
suffixes also of the group as it was. -/
theorem propagateBreaks_exact {d : Doc} (h : d.solid = true) :
    ∃ e, d.propagateBreaks = .ok e ∧ e.propagateBreaks = .ok e ∧
      (∀ w, e.render w = d.render w) ∧
      (∀ address, (e.partAt address).map shell = (d.partAt address).map shell) ∧
      ∀ address content broken, d.partAt address = some (.group content broken) →
        ∃ child marked, e.partAt address = some (.group child marked) ∧
          (marked = true ↔ broken = true ∨ content.HoldsBreak) ∧
          (Doc.group child marked).willBreak = marked ∧
          (d.every isUnsuffixed = true → (Doc.group content broken).willBreak = marked) := by
  obtain ⟨e, hmarks⟩ := exists_propagateBreaks_iff.mpr h
  have htwice : e.propagateBreaks = .ok e := propagateBreaks_twice hmarks
  refine ⟨e, hmarks, htwice, fun w => by rw [render, htwice, render, hmarks], ?_, ?_⟩
  · intro address
    have hpart := propagateBreaks_partAt hmarks address
    generalize d.partAt address = x, e.partAt address = y at hpart ⊢
    cases hpart with
    | none => rfl
    | some hx => rw [Option.map_some, Option.map_some, propagateBreaks_shell hx]
  · intro address content broken hgroup
    have hpart := propagateBreaks_partAt hmarks address
    rw [hgroup] at hpart
    generalize hpartAt : e.partAt address = y at hpart ⊢
    cases hpart with
    | some hy =>
      obtain ⟨child, b, hchild, rfl⟩ := propagateBreaks_group hy
      have hholds : b = true ↔ content.HoldsBreak := propagate_forced hchild
      refine ⟨child, b || broken, rfl, ?_, willBreak_marked hchild, fun hplain => ?_⟩
      · rw [Bool.or_eq_true, hholds, or_comm]
      · have hcontent : content.every isUnsuffixed = true :=
          every_children (every_partAt hplain hgroup) content List.mem_cons_self
        have hsearch : content.willBreak = b := by
          rw [Bool.eq_iff_iff, willBreak_iff, hholds]
          exact ⟨ShowsBreak.holdsBreak, showsBreak_of_unsuffixed hcontent⟩
        rw [willBreak, hsearch, Bool.or_comm]

/-- Two groups, one around a text of two lines deep inside a fill and one without any break. -/
theorem propagateBreaks_exact_fill :
    let d := Doc.list [.group (.fill [.bare "a", .line .space, .group (.text "b\nc") false]) false,
      .group (.concat [.bare "d", .line .soft]) false]
    d.solid = true ∧ d.every isUnsuffixed = true ∧ ∃ e child other, d.propagateBreaks = .ok e ∧
      e.partAt [0] = some (.group child true) ∧ e.partAt [1] = some (.group other false) := by
  intro d
  have hsolid : d.solid = true := rfl
  have hplain : d.every isUnsuffixed = true := rfl
  obtain ⟨e, hmarks, _, _, _, hgroups⟩ := propagateBreaks_exact hsolid
  obtain ⟨child, marked, hchild, _, _, hmarked⟩ := hgroups [0] _ _ rfl
  obtain ⟨other, unmarked, hother, _, _, hunmarked⟩ := hgroups [1] _ _ rfl
  have htrue : true = marked := hmarked hplain
  have hfalse : false = unmarked := hunmarked hplain
  exact ⟨hsolid, hplain, e, child, other, hmarks, htrue ▸ hchild, hfalse ▸ hother⟩

-- A break in a line suffix marks the groups around it, although the search does not see it.
example : let d := Doc.group (.lineSuffix (.line .hard)) false
    d.willBreak = false ∧ d.propagateBreaks = .ok (.group (.lineSuffix (.line .hard)) true) :=
  ⟨rfl, rfl⟩

end Doc

end MonkeyFormat
